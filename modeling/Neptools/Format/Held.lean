import Neptools.Format.Keeps

/-!
What an item holds while a file is read. Only a split of one of its children
changes the list, unless the item itself gets data; so an item whose children
cannot be split any more has the same number of them in the end.
-/

namespace Neptools

open Lib

namespace Context

/-- What a split of the item `id` does to a list of items. -/
inductive SplitIn (nextId id pos : Nat) (body : Body) (cs : ItemList) : ItemList → Prop
  | apart (h : ∀ it ∈ cs.nodes, it.id ≠ id) : SplitIn nextId id pos body cs cs
  | inside {k : Hole Item} {r n : Item} {src : Source} {p : Parts} (hid : r.id = id)
      (hraw : r.body = .raw src) (hcs : cs = k.plug (.single r .nil))
      (hle : pos + body.ownSize ≤ src.size) (hfront : p.front.size = pos)
      (hback : p.back.size = src.size - body.ownSize - pos) (hn : n.id = nextId)
      (hbody : n.body = body) :
      SplitIn nextId id pos body cs (k.plug (p.items (nextId + 1) r src.size pos n .nil))

/-- The pieces of a raw item: the new item, and others that are raw and not empty. -/
theorem Parts.mem_pieces {p : Parts} {nextId pos : Nat} {r n it : Item} {src : Source}
    (hle : pos + n.body.ownSize ≤ src.size) (hfront : p.front.size = pos)
    (hback : p.back.size = src.size - n.body.ownSize - pos)
    (hit : it ∈ (p.items nextId r src.size pos n .nil).nodes) :
    it = p.newItem r pos n ∨ ∃ src', it.body = .raw src' ∧ 0 < src'.size ∧ src'.size ≤ src.size := by
  have hsize : n.getSize .nil = n.body.ownSize := rfl
  rw [Parts.items, Forest.nodes_append, List.mem_append, Forest.nodes, Forest.nodes,
    List.nil_append, List.mem_cons, Parts.frontItems, Parts.backItems, hsize] at hit
  rcases hit with hit | rfl | hit
  · split at hit
    · cases hit
    · rw [List.mem_singleton.mp hit]
      refine .inr ⟨p.front, rfl, ?_⟩
      omega
  · exact .inl rfl
  · split at hit
    · cases hit
    · rw [List.mem_singleton.mp hit]
      refine .inr ⟨p.back, rfl, ?_⟩
      omega

namespace SplitIn

variable {nextId id pos : Nat} {body : Body} {cs cs' : ItemList}

/-- An item of the list was there, or comes from the raw item. -/
theorem mem (h : SplitIn nextId id pos body cs cs') {it : Item} (hit : it ∈ cs'.nodes) :
    it ∈ cs.nodes ∨ ∃ r ∈ cs.nodes, ∃ src, r.id = id ∧ r.body = .raw src ∧
      (it.body = body ∧ body.ownSize ≤ src.size ∨
        ∃ src', it.body = .raw src' ∧ 0 < src'.size ∧ src'.size ≤ src.size) := by
  cases h with
  | apart h => exact .inl hit
  | @inside k r n src p hid hraw hcs hle hfront hback hn hbody =>
      rw [mem_plug] at hit
      have hr : r ∈ cs.nodes := by
        rw [hcs, mem_plug]
        exact .inr List.mem_cons_self
      rcases hit with hit | hit
      · rw [hcs, mem_plug]
        exact .inl (.inl hit)
      · refine .inr ⟨r, hr, src, hid, hraw, ?_⟩
        rcases Parts.mem_pieces (hbody ▸ hle) hfront (hbody ▸ hback) hit with rfl | hpiece
        · exact .inl ⟨hbody, by omega⟩
        · exact .inr hpiece

/-- What is not raw stays. -/
theorem kept (h : SplitIn nextId id pos body cs cs') {it : Item} (hit : it ∈ cs.nodes)
    (hraw : ∀ src, it.body ≠ .raw src) : it ∈ cs'.nodes := by
  cases h with
  | apart h => exact hit
  | @inside k r n src p hid hbody hcs hle hfront hback hn hnbody =>
      rw [hcs, mem_plug] at hit
      rw [mem_plug]
      rcases hit with hit | hit
      · exact .inl hit
      · rw [List.mem_singleton.mp hit] at hraw
        exact absurd hbody (hraw src)

/-- The new item is in the list of the raw one. -/
theorem mem_new (h : SplitIn nextId id pos body cs cs') {it : Item} (hit : it ∈ cs.nodes)
    (hid : it.id = id) : ∃ n ∈ cs'.nodes, n.id = nextId ∧ n.body = body := by
  cases h with
  | apart h => exact absurd hid (h it hit)
  | @inside k r n src p hrid hraw hcs hle hfront hback hn hbody =>
      refine ⟨p.newItem r pos n, ?_, hn, hbody⟩
      rw [mem_plug, Parts.items, Forest.nodes_append]
      exact .inr (List.mem_append_right _ List.mem_cons_self)

theorem getSize (h : SplitIn nextId id pos body cs cs') : cs'.getSize = cs.getSize := by
  cases h with
  | apart h => rfl
  | @inside k r n src p hid hraw hcs hle hfront hback hn hbody =>
      have hsize : n.getSize .nil = body.ownSize := by rw [Item.getSize, hbody]; rfl
      have hfirst : ItemList.getSize (p.frontItems r pos) = pos := by
        rw [Parts.frontItems]
        split
        · rename_i hzero
          exact hzero.symm
        · exact hfront
      have hlast : ItemList.getSize (p.backItems (nextId + 1) r src.size pos (n.getSize .nil)) =
          src.size - body.ownSize - pos := by
        rw [Parts.backItems, hsize]
        split
        · rename_i hzero
          exact hzero.symm
        · exact hback
      have hparts : ItemList.getSize (p.items (nextId + 1) r src.size pos n .nil) = src.size := by
        rw [Parts.items, ItemList.getSize, Forest.weight_append, Forest.weight_cons]
        change ItemList.getSize (p.frontItems r pos) + (n.getSize .nil +
          ItemList.getSize (p.backItems (nextId + 1) r src.size pos (n.getSize .nil))) = _
        rw [hfirst, hlast, hsize]
        omega
      have hsingle : ItemList.getSize (.single r .nil) = src.size := by
        rw [ItemList.getSize, Forest.weight_single, hraw]
        rfl
      rw [hcs, ItemList.getSize, ItemList.getSize, Hole.weight_plug, Hole.weight_plug]
      exact congrArg (k.weight _ + ·) (hparts.trans hsingle.symm)

/-- Items are counted by what they are; the pieces that are raw do not count. -/
theorem count {P : Body → Bool} (hP : ∀ src, P (.raw src) = false)
    (h : SplitIn nextId id pos body cs cs') :
    cs.nodes.countP (fun it => P it.body) ≤ cs'.nodes.countP (fun it => P it.body) ∧
      (P body = true → (∃ it ∈ cs.nodes, it.id = id) →
        cs.nodes.countP (fun it => P it.body) < cs'.nodes.countP (fun it => P it.body)) := by
  cases h with
  | apart h => exact ⟨Nat.le_refl _, fun _ ⟨it, hit, hid⟩ => absurd hid (h it hit)⟩
  | @inside k r n src p hid hraw hcs hle hfront hback hn hbody =>
      have hcount (loc : ItemList) : (k.plug loc).nodes.countP (fun it => P it.body) =
          loc.nodes.countP (fun it => P it.body) +
            (k.before ++ k.after).countP (fun it => P it.body) := by
        rw [(k.nodes_plug_perm loc).countP_eq, List.countP_append]
      have hr : (Forest.single r Forest.nil).nodes.countP (fun it => P it.body) = 0 := by
        rw [nodes_single, Forest.nodes, List.countP_singleton, hraw, hP]
        rfl
      rw [hcs, hcount, hcount, hr]
      refine ⟨by omega, fun htrue _ => ?_⟩
      have hnew : 0 < (p.items (nextId + 1) r src.size pos n .nil).nodes.countP
          fun it => P it.body := by
        refine List.countP_pos_iff.mpr ⟨p.newItem r pos n, ?_, ?_⟩
        · rw [Parts.items, Forest.nodes_append]
          exact List.mem_append_right _ List.mem_cons_self
        · exact (congrArg P hbody).trans htrue
      omega

/-- An empty raw item is replaced as a whole. -/
theorem length (hempty : ∀ it ∈ cs.nodes, ∀ src, it.body = .raw src → src.size = 0)
    (h : SplitIn nextId id pos body cs cs') : cs'.length = cs.length := by
  cases h with
  | apart h => rfl
  | @inside k r n src p hid hraw hcs hle hfront hback hn hbody =>
      have hzero : src.size = 0 := by
        refine hempty r ?_ src hraw
        rw [hcs, mem_plug]
        exact .inr List.mem_cons_self
      have hpos : pos = 0 := by omega
      rw [hcs]
      refine Hole.length_plug k ?_
      have hrest : src.size - n.getSize .nil - pos = 0 := by omega
      rw [Parts.items, Parts.frontItems, if_pos hpos, Forest.nil_append, Parts.backItems,
        if_pos hrest]
      rfl

end SplitIn

section

variable {ctx ctx' : Context}

/-- A label of an item leads to it as long as the item is there. -/
theorem Keeps.target (h : ctx.Keeps ctx') (hctx : ctx.Consistent) {l : LabelPtr} {it : Item}
    {cs cs' : ItemList} {offset : Nat} (htarget : ctx.target l = .ok (it, cs, offset))
    (hfind' : ctx'.find? it.id = some (it, cs')) : ctx'.target l = .ok (it, cs', offset) := by
  obtain ⟨-, hl, -⟩ := hctx.mem_labels htarget
  have hit' : it ∈ ctx'.children.nodes := Forest.mem_nodes.mpr ⟨_, (find?_some hfind').1⟩
  obtain ⟨offset', hlookup⟩ := (h.consistent.labelled it hit').attached l hl
  have htarget' : ctx'.target l = .ok (it, cs', offset') := target_of_find? hlookup hfind'
  have hpos : ctx'.toFilePos l = .ok (it.position + offset) :=
    h.answers.toFilePos l _ (bind_eq_ok.mpr ⟨_, htarget, rfl⟩)
  rw [toFilePos, htarget', ok_bind] at hpos
  have heq : it.position + offset' = it.position + offset := Except.ok.inj hpos
  rw [htarget', Nat.add_left_cancel heq]

/-- A split changes only the raw item, so what is not raw is still there. -/
theorem Consistent.splitCreate_children (h : ctx.Consistent) {id pos : Nat} {body : Body}
    (hheader : body.isHeader = false) (hsplit : ctx.splitCreate id pos body = .ok ctx') {e : Nat}
    {it : Item} {cs : ItemList} (hfind : ctx.find? e = some (it, cs))
    (hraw : ∀ src, it.body ≠ .raw src) :
    ∃ cs', ctx'.find? e = some (it, cs') ∧ SplitIn ctx.nextId id pos body cs cs' := by
  have hctx' := (h.splitCreate_keeps hheader hsplit).consistent
  obtain ⟨k, r, src, p, rfl, hbody, hk, hapart, -, hle, hp⟩ := h.splitCreate_ok hsplit
  obtain ⟨hmem, hid⟩ := find?_some hfind
  have hsize : ({ id := ctx.nextId, position := 0, labels := [], body } : Item).getSize .nil =
      body.ownSize := rfl
  have hfront : p.front.size = pos := by
    have hlen := congrArg List.length hp.frontBytes
    rw [Source.length_bytes, length_slice_of_le (by rw [Source.length_bytes]; omega)] at hlen
    exact hlen
  have hback : p.back.size = src.size - body.ownSize - pos := by
    have hlen := congrArg List.length hp.backBytes
    rw [Source.length_bytes, hsize, length_slice_of_le (by rw [Source.length_bytes]; omega)] at hlen
    exact hlen
  rw [hk, Hole.mem_subtrees_plug] at hmem
  rcases hmem with hmem | haside | ⟨⟨a, k'⟩, hspine, heq⟩
  · cases List.mem_singleton.mp hmem
    exact absurd hbody (hraw src)
  · refine ⟨cs, ?_, .apart fun c hc => ?_⟩
    · rw [← hid]
      refine hctx'.find?_of_mem ?_
      rw [hp.children, Hole.mem_subtrees_plug]
      exact .inr (.inl haside)
    · exact ne_of_apart hapart (Hole.mem_around_of_aside haside hc)
  · cases heq
    refine ⟨_, ?_, .inside (n := { id := ctx.nextId, position := 0, labels := [], body })
      rfl hbody rfl hle hfront hback rfl rfl⟩
    rw [← hid]
    refine hctx'.find?_of_mem ?_
    rw [hp.children, Hole.mem_subtrees_plug]
    exact .inr (.inr ⟨_, hspine, rfl⟩)

/-- What becomes a child of an item is taken from its own siblings. -/
theorem Consistent.moveNextToChild_children (h : ctx.Consistent) {id size : Nat} {x : Item}
    {xs : ItemList} (hx : ctx.find? id = some (x, xs)) (hkind : x.body.hasChildren = true)
    (hmove : ctx.moveNextToChild id size = .ok ctx') {e : Nat} {it : Item} {cs : ItemList}
    (hfind : ctx.find? e = some (it, cs)) (hraw : ∀ src, it.body ≠ .raw src) (hne : e ≠ id)
    (hleaf : ∀ c ∈ cs.nodes, c.body.hasChildren = false) : ctx'.find? e = some (it, cs) := by
  have hctx' := (h.moveNextToChild_keeps hx hkind hmove).consistent
  obtain ⟨ctx₁, k, x', xs', next, src, sub, p, hid', -, hbody, -, -, -, hat⟩ :=
    h.moveNextToChild_ok hmove
  obtain ⟨hmem, hid⟩ := find?_some hfind
  have hx' : (x', xs') ∈ ctx.children.subtrees := by
    rw [hat.children, Hole.mem_subtrees_plug]
    exact .inl List.mem_cons_self
  have hfound := h.find?_of_mem hx'
  rw [hid', hx] at hfound
  cases hfound
  rw [← hid]
  refine hctx'.find?_of_mem ?_
  rw [hat.nested, Hole.mem_subtrees_plug]
  rw [hat.children, Hole.mem_subtrees_plug] at hmem
  rcases hmem with hmem | haside | ⟨⟨a, k'⟩, hspine, heq⟩
  · rw [Forest.subtrees, List.mem_cons, List.mem_append] at hmem
    rcases hmem with heq | hmem | hmem
    · cases heq
      exact absurd (hid.symm.trans hid') hne
    · refine .inl (List.mem_cons_of_mem _ ?_)
      rw [Forest.subtrees_append, List.append_assoc]
      exact List.mem_append_left _ hmem
    · cases List.mem_singleton.mp hmem
      exact absurd hbody (hraw src)
  · refine .inr (.inl ?_)
    exact Hole.mem_aside_followed haside
  · cases heq
    -- then `x` would be one of the children
    have hxcs : x ∈ (k'.plug (.cons x xs (.single next .nil))).nodes := by
      rw [mem_plug]
      exact .inr List.mem_cons_self
    exact absurd (hkind.symm.trans (hleaf x hxcs)) Bool.noConfusion

/-- What replaces another item, or an item inside it, is not counted. -/
theorem Consistent.replace_children (h : ctx.Consistent) {id : Nat} {n r : Item} {its : ItemList}
    (hnew : ctx.Fresh n) (halone : ctx.HeaderAlone id n.body) (hget : ctx.get id = .ok (r, its))
    (hreplace : ctx.replace id n .nil = .ok ctx') {e : Nat} {it : Item} {cs : ItemList}
    (hfind : ctx.find? e = some (it, cs)) (hne : it ≠ r) (hlabels : it.labels ≠ []) :
    ∃ cs', ctx'.find? e = some (it, cs') ∧ cs'.length = cs.length ∧
      ∀ c ∈ cs'.nodes, c ∈ cs.nodes ∨ c.body = n.body := by
  have hctx' := h.replace hnew halone hreplace
  obtain ⟨rfl, k, hk, hapart⟩ := h.registers.exists_hole (get_eq_ok hget)
  obtain ⟨-, -, hnone, heq⟩ := (replace_eq_ok hk hapart).mp hreplace
  obtain ⟨hmem, hid⟩ := find?_some hfind
  have hchildren : ctx'.children = k.plug (.single (replacement r n) .nil) := by rw [heq]
  rw [hk, Hole.mem_subtrees_plug] at hmem
  rw [← hid]
  rcases hmem with hmem | haside | ⟨⟨a, k'⟩, hspine, heq⟩
  · rw [Forest.single, Forest.subtrees, List.mem_cons, Forest.subtrees, List.append_nil] at hmem
    rcases hmem with heq | hmem
    · exact absurd (congrArg Prod.fst heq) hne
    · exact absurd (hnone it (Forest.mem_nodes.mpr ⟨_, hmem⟩)) hlabels
  · refine ⟨cs, hctx'.find?_of_mem ?_, rfl, fun c hc => .inl hc⟩
    rw [hchildren, Hole.mem_subtrees_plug]
    exact .inr (.inl haside)
  · cases heq
    refine ⟨k'.plug (.single (replacement r n) .nil), hctx'.find?_of_mem ?_,
      Hole.length_plug k' rfl, fun c hc => ?_⟩
    · rw [hchildren, Hole.mem_subtrees_plug]
      exact .inr (.inr ⟨_, hspine, rfl⟩)
    · rw [mem_plug] at hc ⊢
      rcases hc with hc | hc
      · exact .inl (.inl hc)
      · rw [nodes_single, Forest.nodes, List.mem_singleton] at hc
        rw [hc]
        exact .inr rfl

/-- None of the items can get others beside it. -/
def Sealed (cs : ItemList) : Prop :=
  ∀ c ∈ cs.nodes, c.body.hasChildren = false ∧ ∀ src, c.body = .raw src → src.size = 0

/-- The label leads to an item with `n` children, and they are sealed. -/
def SealedAt (ctx : Context) (l : LabelPtr) (e : Nat) (b : Body) (n : Nat) : Prop :=
  ∃ it cs, it.id = e ∧ it.body = b ∧ ctx.target l = .ok (it, cs, 0) ∧ cs.length = n ∧ Sealed cs

/-- An edit of other items leaves a sealed list as long as it was. -/
theorem Edit.sealedAt {own : Nat → Prop} (h : Edit own Body.Lasting ctx ctx')
    (hctx : ctx.Consistent) {l : LabelPtr} {e n : Nat} {b : Body} (hcounted : isCounted b = true)
    (hown : ¬ own e) (hsealed : ctx.SealedAt l e b n) : ctx'.SealedAt l e b n := by
  have hkeeps := h.keeps hctx
  obtain ⟨it, cs, rfl, rfl, htarget, hlength, hcs⟩ := hsealed
  have hraw : ∀ src, it.body ≠ .raw src := fun src heq => by
    rw [heq] at hcounted
    cases hcounted
  obtain ⟨hmem, hl, -⟩ := hctx.mem_labels htarget
  obtain ⟨ptr, hptr, hfind, hoffset⟩ := target_eq_ok htarget
  have hid := (find?_some hfind).2
  rw [← hid] at hfind
  cases h with
  | relabel h =>
      obtain ⟨it', cs', hfind', hplain, hchildren⟩ := h.find? hfind
      have hid' : it'.id = it.id := (congrArg Item.id hplain :)
      have htarget' : ctx'.target l = .ok (it', cs', 0) := by
        rw [target_of_find? (h.kept l ptr hptr) (hid ▸ hfind'), hoffset]
      refine ⟨it', cs', hid', body_of_plain hplain, htarget', ?_, fun c hc => ?_⟩
      · rw [← Forest.length_map Item.plain cs', hchildren, Forest.length_map, hlength]
      · have hin : c.plain ∈ (cs.map Item.plain).nodes := by
          rw [← hchildren, Forest.nodes_map]
          exact List.mem_map_of_mem hc
        rw [Forest.nodes_map] at hin
        obtain ⟨c', hc', heq⟩ := List.mem_map.mp hin
        rw [show c.body = c'.body from (body_of_plain heq).symm]
        exact hcs c' hc'
  | split h hlasting hheader hnraw =>
      rename_i body
      obtain ⟨cs', hfind', hin⟩ := hctx.splitCreate_children hheader h hfind hraw
      refine ⟨it, cs', rfl, rfl, hkeeps.target hctx htarget hfind', ?_, fun c hc => ?_⟩
      · exact (hin.length fun c hc => (hcs c hc).2).trans hlength
      · rcases hin.mem hc with hc | ⟨r, hr, src, -, hrbody, hpiece⟩
        · exact hcs c hc
        · -- what is split is empty, and so is what is split off
          have hzero := (hcs r hr).2 src hrbody
          rcases hpiece with ⟨hc, hle⟩ | ⟨src', -, hpos, hle⟩
          · rw [hc]
            refine ⟨hlasting.resolve_right (by omega), fun src' heq => ?_⟩
            rw [heq] at hle
            exact Nat.le_zero.mp (hzero ▸ hle)
          · omega
  | nest howned hfindx hkind h =>
      have hfind' := hctx.moveNextToChild_children hfindx hkind h hfind hraw
        (fun heq => hown (heq ▸ howned)) fun c hc => (hcs c hc).1
      exact ⟨it, cs, rfl, rfl, hkeeps.target hctx htarget hfind', hlength, hcs⟩
  | replace h _ hheader hkind hnraw hget hold hnot _ =>
      obtain ⟨cs', hfind', hlength', hin⟩ := hctx.create.replace_children (hctx.fresh_create _)
        (fun htrue => absurd (hheader.symm.trans htrue) Bool.false_ne_true) hget h hfind
        (fun heq => Bool.noConfusion (hcounted.symm.trans (heq ▸ hnot))) (List.ne_nil_of_mem hl)
      refine ⟨it, cs', rfl, rfl, hkeeps.target hctx htarget hfind', hlength'.trans hlength,
        fun c hc => ?_⟩
      rcases hin c hc with hc | hc
      · exact hcs c hc
      · rw [hc]
        exact ⟨hkind, fun src heq => absurd heq (Body.ne_raw hnraw src)⟩

/-- So does reading other items. -/
theorem Edits.sealedAt {own : Nat → Prop} (h : Edits own Body.Lasting ctx ctx')
    (hctx : ctx.Consistent) {l : LabelPtr} {e n : Nat} {b : Body} (hcounted : isCounted b = true)
    (hown : ¬ own e) (hsealed : ctx.SealedAt l e b n) : ctx.Keeps ctx' ∧ ctx'.SealedAt l e b n :=
  h.preserves (fun _ _ hctx hsealed hedit => hedit.sealedAt hctx hcounted hown hsealed) hctx hsealed

end

end Context

end Neptools
