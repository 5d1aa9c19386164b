import Neptools.Format.AtLabels
import Neptools.Format.Contained
import Neptools.Format.Keeps
import Neptools.Lib.Siblings

/-!
What follows an item in its list. An item that is followed by another one stays so
while a file is read, unless it gets data itself; and two raw items never follow
each other.
-/

namespace Neptools

open Lib

/-- It stands for the end of the file's list, where no raw item is. -/
def anyRaw : Item := { id := 0, position := 0, labels := [], body := .raw (.fromMemory []) }

namespace Context

/-- `++Iterator()` of the item leads to an item. -/
def HasNext (ctx : Context) (id : Nat) : Prop := ctx.children.next? (isItem id) ≠ none

instance (ctx : Context) (id : Nat) : Decidable (ctx.HasNext id) :=
  match h : ctx.children.next? (isItem id) with
  | some _ => .isTrue fun hnone => nomatch h.symm.trans hnone
  | none => .isFalse fun hsome => hsome h

/-- No raw item is followed by a raw one, and the file does not end with one. -/
def RawSpaced (ctx : Context) : Prop :=
  Spaced (fun it : Item => it.body.isRaw) [anyRaw] ctx.children

section

variable {ctx ctx' : Context}

theorem Relabels.rawSpaced (h : ctx.Relabels ctx') (hspaced : ctx.RawSpaced) :
    ctx'.RawSpaced := by
  have hplain (it : Item) : it.plain.body.isRaw = it.body.isRaw := rfl
  rw [RawSpaced, ← spaced_map hplain, h.plain, spaced_map hplain]
  exact hspaced

theorem Parts.spaced_items (p : Parts) (nextId : Nat) (r : Item) (size pos : Nat) {n : Item}
    (hn : n.body.isRaw = false) :
    (p.items nextId r size pos n .nil).roots.IsChain (NotBoth fun it : Item => it.body.isRaw) ∧
      ∀ x ∈ (p.items nextId r size pos n .nil).subtrees, x.2 = .nil := by
  have hnew : (p.newItem r pos n).body.isRaw = false := hn
  rw [Parts.items, Parts.frontItems, Parts.backItems]
  split <;> split <;> simp [NotBoth, hnew, Forest.single, Forest.roots, Forest.subtrees]

theorem Consistent.splitCreate_rawSpaced (h : ctx.Consistent) {id pos : Nat} {body : Body}
    (hraw : body.isRaw = false) (hsplit : ctx.splitCreate id pos body = .ok ctx')
    (hspaced : ctx.RawSpaced) : ctx'.RawSpaced := by
  obtain ⟨k, r, src, p, -, hbody, hk, -, -, -, hp⟩ := h.splitCreate_ok hsplit
  let n : Item := { id := ctx.nextId, position := 0, labels := [], body }
  have hnew : n.body.isRaw = false := hraw
  obtain ⟨hroots, hinner⟩ := p.spaced_items (ctx.nextId + 1) r src.size pos hnew
  rw [RawSpaced, hk] at hspaced
  rw [RawSpaced, hp.children]
  refine hspaced.replug (fun pre post hold => ?_) fun x hx => ?_
  · exact isChain_fill (P := fun it : Item => it.body.isRaw) (by rw [hbody]; rfl) hold hroots
  · rw [hinner x hx]
    exact .nil

theorem Consistent.moveNextToChild_rawSpaced (h : ctx.Consistent) {id size : Nat} {it : Item}
    (hfind : ctx.find? id = some (it, .nil)) (hmove : ctx.moveNextToChild id size = .ok ctx')
    (hspaced : ctx.RawSpaced) : ctx'.RawSpaced := by
  obtain ⟨ctx₁, k, x, cs, next, src, sub, p, rfl, -, hbody, -, -, -, hat⟩ :=
    h.moveNextToChild_ok hmove
  have hx : (x, cs) ∈ ctx.children.subtrees := by
    rw [hat.children, Hole.mem_subtrees_plug]
    exact .inl List.mem_cons_self
  cases (h.find?_of_mem hx).symm.trans hfind
  rw [RawSpaced, hat.children] at hspaced
  rw [RawSpaced, hat.nested, Hole.plug_followed]
  refine hspaced.replug (fun pre post hold => ?_) fun x hx => ?_
  · -- the raw item that follows is replaced by what is left of it
    have hold' : ((pre ++ [it]) ++ [next] ++ post).IsChain
        (NotBoth fun it : Item => it.body.isRaw) := by
      rw [List.append_assoc pre [it] [next]]
      exact hold
    have hmid : (p.backItems (ctx.nextId + 1) next src.size 0
        (Item.getSize { id := ctx.nextId, position := next.position + 0, labels := []
                        body := .raw sub } .nil)).roots.IsChain
          (NotBoth fun it : Item => it.body.isRaw) := by
      rw [Parts.backItems]
      split
      · exact .nil
      · exact .singleton _
    have hnew := isChain_fill (P := fun it : Item => it.body.isRaw) (by rw [hbody]; rfl) hold' hmid
    rw [List.append_assoc pre] at hnew
    exact hnew
  · rw [Forest.subtrees_append, List.mem_append, Forest.single, Forest.subtrees, List.mem_cons,
      List.mem_append, Parts.backItems] at hx
    rcases hx with (rfl | hx | hx) | hx
    · exact .singleton _
    · rw [Forest.nil_append, Forest.single] at hx
      rw [List.mem_singleton.mp hx]
      exact .nil
    · cases hx
    · split at hx
      · cases hx
      · rw [List.mem_singleton.mp hx]
        exact .nil

theorem Consistent.replace_rawSpaced (h : ctx.Consistent) {id : Nat} {n r : Item} {its : ItemList}
    (hraw : n.body.isRaw = false) (hget : ctx.get id = .ok (r, its))
    (hreplace : ctx.replace id n .nil = .ok ctx') (hspaced : ctx.RawSpaced) : ctx'.RawSpaced := by
  obtain ⟨rfl, k, hk, hapart⟩ := h.registers.exists_hole (get_eq_ok hget)
  obtain ⟨-, -, -, rfl⟩ := (replace_eq_ok hk hapart).mp hreplace
  rw [RawSpaced, hk] at hspaced
  refine hspaced.replug (fun pre post hold => isChain_swap ?_ hold) fun x hx => ?_
  · exact hraw
  · rw [List.mem_singleton.mp hx]
    exact .nil

theorem Edit.rawSpaced {own : Nat → Prop} {new : Body → Prop} (h : Edit own new ctx ctx')
    (hctx : ctx.Consistent) (hspaced : ctx.RawSpaced) : ctx'.RawSpaced := by
  cases h with
  | relabel h => exact h.rawSpaced hspaced
  | split h _ _ hraw => exact hctx.splitCreate_rawSpaced hraw h hspaced
  | nest _ hfind _ h => exact hctx.moveNextToChild_rawSpaced hfind h hspaced
  | replace h _ _ _ hraw hget _ _ _ => exact hctx.create.replace_rawSpaced hraw hget h hspaced

theorem Edits.rawSpaced {own : Nat → Prop} {new : Body → Prop} (h : Edits own new ctx ctx')
    (hctx : ctx.Consistent) (hspaced : ctx.RawSpaced) : ctx'.RawSpaced :=
  (h.preserves (fun _ _ hctx hspaced hedit => hedit.rawSpaced hctx hspaced) hctx hspaced).2

/-! What follows a single item. -/

/-- An item that is read already, and that another one follows. -/
structure Standing (ctx : Context) (id : Nat) : Prop where
  parsed : ∃ it ∈ ctx.children.nodes, it.id = id ∧ it.body.isRaw = false
  next : ctx.HasNext id

theorem Standing.lt {id : Nat} (h : ctx.Standing id) (hctx : ctx.Consistent) : id < ctx.nextId := by
  obtain ⟨it, hit, rfl, -⟩ := h.parsed
  exact hctx.numbered it hit

/-- A raw item is another one. -/
theorem Standing.ne_raw {id : Nat} (h : ctx.Standing id) (hctx : ctx.Consistent) {r : Item}
    (hr : r ∈ ctx.children.nodes) (hraw : r.body.isRaw = true) : isItem id r = false := by
  obtain ⟨it, hit, rfl, hparsed⟩ := h.parsed
  refine decide_eq_false fun heq => ?_
  rw [hctx.eq_of_id hr hit heq, hparsed] at hraw
  cases hraw

theorem Relabels.next? (h : ctx.Relabels ctx') (id : Nat) :
    (ctx'.children.next? (isItem id)).map (fun x => (x.1.plain, x.2.map Item.plain)) =
      (ctx.children.next? (isItem id)).map fun x => (x.1.plain, x.2.map Item.plain) := by
  have hmap (f : ItemList) : (f.map Item.plain).next? (isItem id) =
      (f.next? (isItem id)).map fun x => (x.1.plain, x.2.map Item.plain) :=
    Forest.next?_map (isItem id) Item.plain f
  rw [← hmap, h.plain, hmap]

theorem Relabels.hasNext (h : ctx.Relabels ctx') (id : Nat) : ctx'.HasNext id ↔ ctx.HasNext id := by
  have hnext := congrArg Option.isSome (h.next? id)
  rw [Option.isSome_map, Option.isSome_map] at hnext
  rw [HasNext, HasNext, ← Option.isSome_iff_ne_none, ← Option.isSome_iff_ne_none, hnext]

/-- It stays so when items elsewhere are replaced. -/
theorem Standing.elsewhere {id : Nat} (h : ctx.Standing id) {k : Hole Item} {old loc : ItemList}
    (hk : ctx.children = k.plug old) (hk' : ctx'.children = k.plug loc)
    (hold : ∀ a ∈ old.nodes, isItem id a = false) (hloc : ∀ a ∈ loc.nodes, isItem id a = false)
    (hne : loc.roots ≠ []) : ctx'.Standing id := by
  refine ⟨?_, ?_⟩
  · obtain ⟨it, hit, rfl, hparsed⟩ := h.parsed
    refine ⟨it, ?_, rfl, hparsed⟩
    rw [hk, mem_plug] at hit
    rw [hk', mem_plug]
    refine .inl (hit.resolve_right fun hin => ?_)
    exact absurd ((hold it hin).symm.trans (isItem_self it)) Bool.noConfusion
  · have hnext := h.next
    rw [HasNext, hk] at hnext
    rw [HasNext, hk']
    refine Hole.next?_plug_ne_none (fun a ha => hold a (Forest.mem_nodes_of_mem_roots ha))
      (fun a ha => hloc a (Forest.mem_nodes_of_mem_roots ha)) hne (fun hsome => ?_) hnext
    exact absurd (Forest.next?_eq_none hold) hsome

theorem Edit.standing {own : Nat → Prop} {new : Body → Prop} (h : Edit own new ctx ctx')
    (hctx : ctx.Consistent) {id : Nat} (hown : ¬ own id) (hstanding : ctx.Standing id) :
    ctx'.Standing id := by
  have hlt := hstanding.lt hctx
  -- what a raw item is split into is another one too
  have hnew {p : Parts} {size pos : Nat} {r n a : Item} (hn : n.id = ctx.nextId)
      (ha : a ∈ (p.items (ctx.nextId + 1) r size pos n .nil).nodes) (hne : isItem id r = false) :
      isItem id a = false := by
    refine decide_eq_false fun heq => ?_
    rcases Parts.mem_items ha with rfl | hnil | ⟨hid | ⟨hid, -⟩, -⟩
    · have : n.id = id := heq
      omega
    · cases hnil
    · exact of_decide_eq_false hne (hid.symm.trans heq)
    · omega
  cases h with
  | relabel h =>
      obtain ⟨it, hit, hid, hparsed⟩ := hstanding.parsed
      refine ⟨?_, (h.hasNext id).mpr hstanding.next⟩
      obtain ⟨it', hit', heq⟩ := exists_of_plain h.plain hit
      exact ⟨it', hit', (congrArg Item.id heq :).trans hid, body_of_plain heq ▸ hparsed⟩
  | split h _ _ _ =>
      obtain ⟨k, r, src, p, -, hbody, hk, -, -, -, hp⟩ := hctx.splitCreate_ok h
      have hr : r ∈ ctx.children.nodes := by
        rw [hk, mem_plug]
        exact .inr List.mem_cons_self
      have hne := hstanding.ne_raw hctx hr (by rw [hbody]; rfl)
      refine hstanding.elsewhere hk hp.children (fun a ha => ?_) (fun a ha => ?_) ?_
      · rw [List.mem_singleton.mp ha]
        exact hne
      · exact hnew rfl ha hne
      · rw [Parts.items, Forest.roots_append, Forest.roots]
        exact List.append_ne_nil_of_right_ne_nil _ (List.cons_ne_nil _ _)
  | @nest _ _ it hid hfind _ h =>
      obtain ⟨ctx₁, k, x, cs, next, src, sub, p, rfl, -, hbody, -, -, -, hat⟩ :=
        hctx.moveNextToChild_ok h
      have hx : (x, cs) ∈ ctx.children.subtrees := by
        rw [hat.children, Hole.mem_subtrees_plug]
        exact .inl List.mem_cons_self
      cases (hctx.find?_of_mem hx).symm.trans hfind
      have hr : next ∈ ctx.children.nodes := by
        rw [hat.children, mem_plug]
        exact .inr (List.mem_cons_of_mem _ List.mem_cons_self)
      have hne := hstanding.ne_raw hctx hr (by rw [hbody]; rfl)
      have hneIt : isItem id it = false := decide_eq_false fun heq => hown (heq ▸ hid)
      have hchildren := congrArg Context.children hat.nested
      dsimp only at hchildren
      rw [Hole.plug_followed] at hchildren
      refine hstanding.elsewhere hat.children hchildren (fun a ha => ?_) (fun a ha => ?_) ?_
      · rcases List.mem_cons.mp ha with rfl | ha
        · exact hneIt
        · rw [List.mem_singleton.mp ha]
          exact hne
      · rw [Forest.nil_append, Forest.nodes_append, Forest.single, Forest.nodes, Forest.nodes,
          List.append_nil, List.cons_append, List.mem_cons] at ha
        rcases ha with rfl | ha
        · exact hneIt
        · have hin : a ∈ (p.items (ctx.nextId + 1) next src.size 0
              { id := ctx.nextId, position := next.position + 0, labels := [], body := .raw sub }
              .nil).nodes := ha
          exact hnew rfl hin hne
      · rw [Forest.roots_append, Forest.single, Forest.roots]
        exact List.cons_ne_nil _ _
  | replace h hid _ _ _ hget _ _ hinner =>
      obtain ⟨rfl, k, hk, hapart⟩ := hctx.create.registers.exists_hole (get_eq_ok hget)
      obtain ⟨-, -, -, rfl⟩ := (replace_eq_ok hk hapart).mp h
      refine hstanding.elsewhere hk rfl (fun a ha => ?_) (fun a ha => ?_) (List.cons_ne_nil _ _)
      · rcases List.mem_cons.mp ha with rfl | ha
        · exact decide_eq_false fun heq => hown (heq ▸ hid)
        · rw [Forest.nodes, List.append_nil] at ha
          refine hstanding.ne_raw hctx ?_ (hinner a ha)
          have hk' : ctx.children = k.plug _ := hk
          rw [hk', mem_plug]
          exact .inr (List.mem_cons_of_mem _ (List.mem_append_left _ ha))
      · rw [List.mem_singleton.mp ha]
        exact decide_eq_false (Nat.ne_of_gt hlt)

theorem Edits.standing {own : Nat → Prop} {new : Body → Prop} (h : Edits own new ctx ctx')
    (hctx : ctx.Consistent) {id : Nat} (hown : ¬ own id) (hstanding : ctx.Standing id) :
    ctx'.Standing id :=
  (h.preserves (fun _ _ hctx hstanding hedit => hedit.standing hctx hown hstanding) hctx
    hstanding).2

/-- A new item is followed by what is left of the raw item. If nothing is left, it is
followed by what followed the raw item. -/
theorem Consistent.splitCreate_next (h : ctx.Consistent) {id pos : Nat} {body : Body}
    (hsplit : ctx.splitCreate id pos body = .ok ctx') :
    ∃ src, ctx.bodyOf id = some (.raw src) ∧
      (pos + body.ownSize = src.size ∧
          ctx'.children.next? (isItem ctx.nextId) = ctx.children.next? (isItem id) ∨
        ∃ b back, ctx'.children.next? (isItem ctx.nextId) = some (b, .nil) ∧ b.body = .raw back ∧
          0 < back.size ∧ pos + body.ownSize + back.size = src.size ∧
          ctx'.children.next? (isItem b.id) = ctx.children.next? (isItem id)) := by
  obtain ⟨k, r, src, p, rfl, hbody, hk, hapart, hapartNew, hle, hp⟩ := h.splitCreate_ok hsplit
  have hr : (r, .nil) ∈ ctx.children.subtrees := by
    rw [hk, Hole.mem_subtrees_plug]
    exact .inl List.mem_cons_self
  have hlt := h.numbered r (Forest.mem_nodes.mpr ⟨_, hr⟩)
  have hold : ctx.children.next? (isItem r.id) = k.follower? := by
    rw [hk]
    exact Hole.next?_plug_follower hapart.before hapart.after (isItem_self r) .nil
  refine ⟨src, (h.bodyOf_of_mem hr).trans (congrArg some hbody), ?_⟩
  have hsize : ({ id := ctx.nextId, position := 0, labels := [], body } : Item).getSize .nil =
      body.ownSize := rfl
  obtain ⟨n, hself, hchildren⟩ : ∃ n, isItem ctx.nextId n = true ∧
      ctx'.children = k.plug (p.frontItems r pos ++ .single n .nil ++
        p.backItems (ctx.nextId + 1) r src.size pos body.ownSize) := by
    refine ⟨p.newItem r pos { id := ctx.nextId, position := 0, labels := [], body },
      decide_eq_true rfl, ?_⟩
    rw [hp.children, Parts.items, hsize, Forest.append_assoc]
    rfl
  -- the items before the new one
  have hfront {id : Nat} (hid : pos ≠ 0 → r.id ≠ id) :
      ∀ a ∈ (p.frontItems r pos).nodes, isItem id a = false := by
    rw [Parts.frontItems]
    split
    · exact List.forall_mem_nil _
    · rename_i hpos
      intro a ha
      rw [List.mem_singleton.mp ha]
      exact decide_eq_false (hid hpos)
  by_cases hrest : src.size - body.ownSize - pos = 0
  · refine .inl ⟨by omega, ?_⟩
    rw [hold, hchildren, Parts.backItems, if_pos hrest, Forest.append_nil]
    exact Hole.next?_plug_last hapartNew.before hapartNew.after (hfront fun _ => Nat.ne_of_lt hlt)
      hself .nil
  · obtain ⟨b, hitems, hraw, hid⟩ : ∃ b, p.backItems (ctx.nextId + 1) r src.size pos body.ownSize =
        .single b .nil ∧ b.body = .raw p.back ∧ b.id = if pos = 0 then r.id else ctx.nextId + 1 := by
      rw [Parts.backItems, if_neg hrest]
      exact ⟨_, rfl, rfl, rfl⟩
    have hlength := congrArg List.length hp.backBytes
    rw [Source.length_bytes, hsize, length_slice_of_le (by rw [Source.length_bytes]; omega)] at hlength
    refine .inr ⟨b, p.back, ?_, hraw, by omega, by omega, ?_⟩
    · rw [hchildren, hitems]
      refine Hole.next?_plug hapartNew.before ?_
      have hfront := hfront fun _ => Nat.ne_of_lt hlt
      rw [Forest.append_assoc,
        Forest.next?_append_of_roots fun a ha => hfront a (Forest.mem_nodes_of_mem_roots ha),
        Forest.next?_eq_none hfront, Option.none_or, Forest.single_append, Forest.next?,
        if_pos hself]
      rfl
    · have hapartBack : Apart b.id k := by
        rw [hid]
        split
        · exact hapart
        · refine apart_of_ne fun it hit heq => ?_
          have := h.numbered it (by rw [hk, mem_plug]; exact .inl hit)
          omega
      have hne : isItem b.id n = false := by
        refine decide_eq_false fun heq => ?_
        have hnId : n.id = ctx.nextId := of_decide_eq_true hself
        rw [hid] at heq
        split at heq <;> omega
      have hfront := @hfront b.id fun hpos => by
        rw [hid, if_neg hpos]
        omega
      rw [hold, hchildren, hitems]
      refine Hole.next?_plug_last hapartBack.before hapartBack.after (fun a ha => ?_)
        (isItem_self b) .nil
      rw [Forest.nodes_append, List.mem_append] at ha
      rcases ha with ha | ha
      · exact hfront a ha
      · rw [List.mem_singleton.mp ha]
        exact hne

/-- What an item gets as a child follows it no more. -/
theorem Consistent.moveNextToChild_next (h : ctx.Consistent) {id size : Nat}
    (hmove : ctx.moveNextToChild id size = .ok ctx') :
    ∃ next src, ctx.children.next? (isItem id) = some (next, .nil) ∧ next.body = .raw src ∧
      size ≤ src.size ∧
      (size < src.size → ctx'.HasNext id) ∧
      (size = src.size →
        ctx'.children.next? (isItem id) = ctx.children.next? (isItem next.id)) := by
  obtain ⟨ctx₁, k, x, cs, next, src, sub, p, rfl, hnext, hbody, hle, hbytes, -, hat⟩ :=
    h.moveNextToChild_ok hmove
  have hlength := congrArg List.length hbytes
  rw [Source.length_bytes, length_slice_of_le (by rw [Source.length_bytes]; omega)] at hlength
  have hchildren := congrArg Context.children hat.nested
  dsimp only at hchildren
  have hlen : Item.getSize { id := ctx.nextId, position := next.position + 0, labels := []
                             body := .raw sub } .nil = sub.size := rfl
  have hapartX : Apart x.id k := h.registers.apart hat.children List.mem_cons_self
  have hbehind : ctx.children = (k.behind x cs).plug (.single next .nil) := by
    rw [Hole.plug_behind]
    exact hat.children
  have hapartNext := h.registers.apart hbehind List.mem_cons_self
  rw [Hole.plug_followed] at hchildren
  refine ⟨next, src, hnext, hbody, hle, fun hlt => ?_, fun heq => ?_⟩
  · obtain ⟨b, hb⟩ : ∃ b, p.backItems (ctx.nextId + 1) next src.size 0 sub.size = .single b .nil := by
      rw [Parts.backItems, if_neg (by omega)]
      exact ⟨_, rfl⟩
    rw [HasNext, hchildren, hlen, hb, Forest.single_append]
    refine ne_of_eq_of_ne (Hole.next?_plug (x := (b, .nil)) hapartX.before ?_)
      (Option.some_ne_none _)
    rw [Forest.next?, if_pos (isItem_self x)]
    rfl
  · rw [hchildren, hlen, Parts.backItems, if_pos (by omega), Forest.append_nil, hbehind]
    refine (Hole.next?_plug_follower hapartX.before hapartX.after (isItem_self x) _).trans ?_
    rw [← Hole.follower?_behind x cs]
    exact (Hole.next?_plug_follower hapartNext.before hapartNext.after
      (isItem_self next) .nil).symm

/-! Before an item gets data, all items are in one list. -/

def Flat (ctx : Context) : Prop := ∀ it ∈ ctx.children.nodes, it.body.hasChildren = false

theorem Relabels.flat (h : ctx.Relabels ctx') (hflat : ctx.Flat) : ctx'.Flat := by
  intro it hit
  obtain ⟨it', hit', heq⟩ := exists_of_plain h.plain.symm hit
  exact body_of_plain heq ▸ hflat it' hit'

theorem Consistent.splitCreate_flat (h : ctx.Consistent) {id pos : Nat} {body : Body}
    (hkind : body.hasChildren = false) (hsplit : ctx.splitCreate id pos body = .ok ctx')
    (hflat : ctx.Flat) : ctx'.Flat := by
  intro it hit
  obtain ⟨k, r, src, p, -, -, hk, -, -, -, hp⟩ := h.splitCreate_ok hsplit
  rw [hp.children, mem_plug] at hit
  rcases hit with hit | hit
  · refine hflat it ?_
    rw [hk, mem_plug]
    exact .inl hit
  · rcases Parts.mem_items hit with rfl | hnil | ⟨-, src', hbody⟩
    · exact hkind
    · cases hnil
    · rw [hbody]
      rfl

theorem Consistent.headerAlone_of_flat (h : ctx.Consistent)
    (hflat : ctx.Flat) {id : Nat}
    (hid : ∃ it ∈ ctx.children.nodes, it.id = id) (body : Body) : ctx.HeaderAlone id body := by
  intro _
  obtain ⟨it, hit, rfl⟩ := hid
  have hinner : ctx.children.inner = [] := Forest.inner_eq_nil fun a cs hmem =>
    h.childless a cs hmem (hflat a (Forest.mem_nodes.mpr ⟨cs, hmem⟩))
  rw [ctx.children.nodes_perm.mem_iff, hinner, List.append_nil] at hit
  exact List.mem_map_of_mem hit

theorem Consistent.splitCreate_of_flat (h : ctx.Consistent)
    (hflat : ctx.Flat) {id pos : Nat} {body : Body}
    (hsplit : ctx.splitCreate id pos body = .ok ctx') : ctx'.Consistent := by
  obtain ⟨k, r, src, p, hid, -, hk, -, -, -, -⟩ := h.splitCreate_ok hsplit
  have hr : r ∈ ctx.children.nodes := by
    rw [hk, mem_plug]
    exact .inr List.mem_cons_self
  exact h.splitCreate (h.headerAlone_of_flat hflat ⟨r, hr, hid⟩ body) hsplit

theorem Edit.flat {own : Nat → Prop} (h : Edit own Body.Leaf ctx ctx') (hctx : ctx.Consistent)
    (hflat : ctx.Flat) : ctx'.Flat := by
  cases h with
  | relabel h => exact h.flat hflat
  | split h hkind _ _ => exact hctx.splitCreate_flat hkind h hflat
  | nest _ hfind hkind _ =>
      have hnot := hflat _ (Forest.mem_nodes.mpr ⟨_, (find?_some hfind).1⟩)
      exact absurd (hnot.symm.trans hkind) Bool.noConfusion
  | replace h _ _ hkind _ hget _ _ _ =>
      obtain ⟨rfl, k, hk, hapart⟩ := hctx.create.registers.exists_hole (get_eq_ok hget)
      obtain ⟨-, -, -, rfl⟩ := (replace_eq_ok hk hapart).mp h
      intro it hit
      rw [mem_plug] at hit
      rcases hit with hit | hit
      · refine hflat it ?_
        have hk' : ctx.children = k.plug _ := hk
        rw [hk', mem_plug]
        exact .inl hit
      · rw [List.mem_singleton.mp hit]
        exact hkind

theorem Edits.flat {own : Nat → Prop} (h : Edits own Body.Leaf ctx ctx') (hctx : ctx.Consistent)
    (hflat : ctx.Flat) : ctx'.Flat :=
  (h.preserves (fun _ _ hctx hflat hedit => hedit.flat hctx hflat) hctx hflat).2

/-- Then every raw item has an item behind it. -/
theorem Consistent.hasNext_of_flat (h : ctx.Consistent) (hspaced : ctx.RawSpaced)
    (hflat : ctx.Flat) {id : Nat} {src : Source} (hbody : ctx.bodyOf id = some (.raw src)) :
    ctx.HasNext id := by
  obtain ⟨it, children, hfind, hraw⟩ := exists_of_bodyOf hbody
  obtain ⟨rfl, k, hk, hapart⟩ := h.registers.exists_hole hfind
  have hchildless : ∀ x ∈ ctx.children.subtrees, x.2 = .nil := fun x hx =>
    h.childless x.1 x.2 hx (hflat x.1 (Forest.mem_nodes.mpr ⟨_, hx⟩))
  rw [hk] at hchildless
  have hroots : (Forest.single it children).roots ≠ [] := List.cons_ne_nil _ _
  have htop := Hole.top_of_childless hroots hchildless
  rw [RawSpaced, hk] at hspaced
  rw [HasNext, hk]
  have hfollower := Hole.next?_plug_follower hapart.before hapart.after (isItem_self it) children
  refine ne_of_eq_of_ne hfollower ?_
  have hisRaw : it.body.isRaw = true := by
    rw [hraw]
    rfl
  exact hspaced.follower htop rfl hisRaw rfl rfl

end

end Context

end Neptools
