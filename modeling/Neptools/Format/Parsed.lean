import Neptools.Format.Covered
import Neptools.Format.Pieces

/-!
What is read already. While items are split out of raw ones, and nothing else is done to
them, an item that is not raw stays where it is, and so do its labels and what follows it;
what gets less are the bytes that are not read.
-/

namespace Neptools

open Lib

def Body.rawSize : Body → Nat
  | raw src => src.size
  | _ => 0

theorem Body.rawSize_eq_zero {b : Body} (h : b.isRaw = false) : b.rawSize = 0 := by
  cases b with
  | raw src => cases h
  | _ => rfl

namespace Context

/-- The bytes that are not read yet. -/
def rawBytes (ctx : Context) : Nat := Forest.weight (fun it : Item => it.body.rawSize) ctx.children

/-- The item is there, and is not raw. -/
def Parsed (ctx : Context) (id : Nat) : Prop :=
  ∃ it ∈ ctx.children.nodes, it.id = id ∧ it.body.isRaw = false

/-- The label is at some place. -/
def LabelPlaced (ctx : Context) (l : LabelPtr) : Prop :=
  ∃ ptr, ctx.labels.lookup l = some (some ptr)

/-- The label is at an item that is not raw. -/
def LabelParsed (ctx : Context) (l : LabelPtr) : Prop :=
  ∃ ptr, ctx.labels.lookup l = some (some ptr) ∧ ctx.Parsed ptr.item

/-- The item is followed by one that is not raw. -/
def NextParsed (ctx : Context) (id : Nat) : Prop :=
  ∃ next, ctx.children.next? (isItem id) = some next ∧ next.1.body.isRaw = false

variable {ctx ctx' : Context}

theorem getPtr_eq_ok {ctx : Context} {l : LabelPtr} {ptr : ItemPointer} :
    ctx.getPtr l = .ok ptr ↔ ctx.labels.lookup l = some (some ptr) := by
  rw [getPtr]
  split
  · rename_i ptr' hptr
    rw [hptr, pure_eq_ok, Except.ok.injEq, Option.some.injEq, Option.some.injEq]
  · rename_i hnot
    exact ⟨fun h => (nomatch h), fun h => absurd h (hnot ptr)⟩

/-- What is read stays so. -/
structure StaysRead (ctx ctx' : Context) : Prop where
  parsed : ∀ id, ctx.Parsed id → ctx'.Parsed id
  placed : ∀ l, ctx.LabelPlaced l → ctx'.LabelPlaced l
  label : ∀ l, ctx.LabelParsed l → ctx'.LabelParsed l
  next : ∀ id, ctx.Parsed id → ctx.NextParsed id → ctx'.NextParsed id

theorem StaysRead.refl (ctx : Context) : ctx.StaysRead ctx :=
  ⟨fun _ h => h, fun _ h => h, fun _ h => h, fun _ _ h => h⟩

theorem StaysRead.trans {ctx₁ : Context} (h : ctx.StaysRead ctx₁) (h' : ctx₁.StaysRead ctx') :
    ctx.StaysRead ctx' where
  parsed id hid := h'.parsed id (h.parsed id hid)
  placed l hl := h'.placed l (h.placed l hl)
  label l hl := h'.label l (h.label l hl)
  next id hid hnext := h'.next id (h.parsed id hid) (h.next id hid hnext)

/-! New labels. -/

theorem Relabels.rawBytes (h : ctx.Relabels ctx') : ctx'.rawBytes = ctx.rawBytes := by
  have hnodes := congrArg (fun f => (f.nodes.map fun it : Item => it.body.rawSize).sum) h.plain
  simp only [Forest.nodes_map, List.map_map] at hnodes
  rw [Context.rawBytes, Context.rawBytes, Forest.weight_eq_sum, Forest.weight_eq_sum]
  exact hnodes

theorem Relabels.parsed (h : ctx.Relabels ctx') {id : Nat} (hparsed : ctx.Parsed id) :
    ctx'.Parsed id := by
  obtain ⟨it, hit, rfl, hraw⟩ := hparsed
  obtain ⟨it', hit', heq⟩ := exists_of_plain h.plain hit
  exact ⟨it', hit', (congrArg Item.id heq :), body_of_plain heq ▸ hraw⟩

theorem Relabels.nextParsed (h : ctx.Relabels ctx') {id : Nat} (hparsed : ctx.NextParsed id) :
    ctx'.NextParsed id := by
  obtain ⟨next, hnext, hraw⟩ := hparsed
  have hsame := h.next? id
  rw [hnext] at hsame
  obtain ⟨next', hnext', heq⟩ := Option.map_eq_some_iff.mp hsame
  exact ⟨next', hnext', body_of_plain (congrArg Prod.fst heq) ▸ hraw⟩

theorem Relabels.staysRead (h : ctx.Relabels ctx') : ctx.StaysRead ctx' where
  parsed _ := h.parsed
  placed _ := fun ⟨ptr, hptr⟩ => ⟨ptr, h.kept _ _ hptr⟩
  label _ := fun ⟨ptr, hptr, hitem⟩ => ⟨ptr, h.kept _ _ hptr, h.parsed hitem⟩
  next _ _ := h.nextParsed

/-! A split. -/

section

variable (h : ctx.Consistent) {id pos : Nat} {body : Body}
  (hsplit : ctx.splitCreate id pos body = .ok ctx')

include h hsplit

theorem Consistent.splitCreate_rawBytes (hraw : body.isRaw = false) :
    ctx'.rawBytes + body.ownSize = ctx.rawBytes := by
  obtain ⟨k, r, src, p, -, hbody, hk, -, -, hle, hp⟩ := h.splitCreate_ok hsplit
  let w (it : Item) : Nat := it.body.rawSize
  have hsize : ({ id := ctx.nextId, position := 0, labels := [], body } : Item).getSize .nil =
      body.ownSize := rfl
  obtain ⟨hfront, hback⟩ := hp.sizes hle
  rw [hsize] at hback
  have hbefore : Forest.weight w (p.frontItems r pos) = pos := by
    rw [Parts.frontItems]
    split
    · rename_i hzero
      exact hzero.symm
    · exact hfront
  have hbehind : Forest.weight w (p.backItems (ctx.nextId + 1) r src.size pos body.ownSize) =
      src.size - body.ownSize - pos := by
    rw [Parts.backItems]
    split
    · rename_i hzero
      exact hzero.symm
    · exact hback
  have hold : ctx.rawBytes = k.weight w + src.size := by
    rw [rawBytes, hk, Hole.weight_plug, Forest.weight_single, hbody]
    rfl
  have hnew : ctx'.rawBytes = k.weight w + (pos + (src.size - body.ownSize - pos)) := by
    rw [rawBytes, hp.children, Hole.weight_plug, Parts.items, Forest.weight_append,
      Forest.weight_cons]
    change k.weight w + (Forest.weight w (p.frontItems r pos) + (body.rawSize + 0 +
      Forest.weight w (p.backItems (ctx.nextId + 1) r src.size pos body.ownSize))) = _
    rw [hbefore, hbehind, Body.rawSize_eq_zero hraw, Nat.zero_add]
  have hle : pos + body.ownSize ≤ src.size := hle
  omega

theorem Consistent.splitCreate_parsed {i : Nat} (hparsed : ctx.Parsed i) : ctx'.Parsed i := by
  obtain ⟨k, r, src, p, -, hbody, hk, -, -, -, hp⟩ := h.splitCreate_ok hsplit
  obtain ⟨it, hit, hid, hraw⟩ := hparsed
  rw [hk, mem_plug] at hit
  refine ⟨it, ?_, hid, hraw⟩
  rw [hp.children, mem_plug]
  refine .inl (hit.resolve_right fun hr => ?_)
  rw [List.mem_singleton.mp hr, hbody] at hraw
  cases hraw

theorem Consistent.splitCreate_labelPlaced {l : LabelPtr} (hplaced : ctx.LabelPlaced l) :
    ctx'.LabelPlaced l := by
  obtain ⟨k, r, src, p, -, -, -, -, -, -, hp⟩ := h.splitCreate_ok hsplit
  by_cases hl : l ∈ r.labels
  · obtain ⟨it, -, -, offset, hlookup, -⟩ := hp.moved.moved l hl
    exact ⟨_, hlookup⟩
  · obtain ⟨ptr, hptr⟩ := hplaced
    exact ⟨ptr, (hp.moved.other l hl).trans hptr⟩

theorem Consistent.splitCreate_labelParsed {l : LabelPtr} (hparsed : ctx.LabelParsed l) :
    ctx'.LabelParsed l := by
  obtain ⟨ptr, hptr, hitem⟩ := hparsed
  refine ⟨ptr, ?_, h.splitCreate_parsed hsplit hitem⟩
  obtain ⟨k, r, src, p, -, hbody, hk, -, -, -, hp⟩ := h.splitCreate_ok hsplit
  obtain ⟨it, hit, hid, hraw⟩ := hitem
  obtain ⟨it', hit', hid', hl⟩ := h.attached l ptr hptr
  cases h.eq_of_id hit hit' (hid.trans hid'.symm)
  refine (hp.moved.other l fun hl' => ?_).trans hptr
  have hr : r ∈ ctx.children.nodes := by
    rw [hk, mem_plug]
    exact .inr List.mem_cons_self
  rw [h.eq_of_label hit hr hl hl', hbody] at hraw
  cases hraw

theorem Consistent.splitCreate_nextParsed {i : Nat} (hi : ctx.Parsed i)
    (hparsed : ctx.NextParsed i) : ctx'.NextParsed i := by
  obtain ⟨k, r, src, p, -, hbody, hk, -, -, -, hp⟩ := h.splitCreate_ok hsplit
  obtain ⟨it, hit, rfl, hraw⟩ := hi
  obtain ⟨next, hnext, hnextRaw⟩ := hparsed
  have hr : r ∈ ctx.children.nodes := by
    rw [hk, mem_plug]
    exact .inr List.mem_cons_self
  have hrRaw : r.body.isRaw = true := by
    rw [hbody]
    rfl
  have hne : r.id ≠ it.id := fun heq => by
    rw [h.eq_of_id hr hit heq, hraw] at hrRaw
    cases hrRaw
  have hlt := h.numbered it hit
  have hroots : (Forest.single r .nil).roots ≠ [] := List.cons_ne_nil _ _
  have hout : next.1 ∉ (Forest.single r .nil).roots := fun hin => by
    rw [List.mem_singleton.mp hin, hrRaw] at hnextRaw
    cases hnextRaw
  have hold : ∀ a ∈ (Forest.single r .nil).nodes, isItem it.id a = false := fun a ha => by
    rw [List.mem_singleton.mp ha]
    exact decide_eq_false hne
  have hnew : ∀ a ∈ (p.items (ctx.nextId + 1) r src.size pos
      { id := ctx.nextId, position := 0, labels := [], body } .nil).nodes,
      isItem it.id a = false := fun a ha => decide_eq_false fun heq => by
    rcases Parts.mem_items ha with rfl | hnil | ⟨hid | ⟨hid, -⟩, -⟩
    · exact absurd heq (Nat.ne_of_gt hlt)
    · cases hnil
    · exact hne (hid.symm.trans heq)
    · omega
  rw [hk] at hnext
  obtain ⟨bs, hbs⟩ := Hole.next?_plug_of_not_mem hold hnew hroots hout hnext
  rw [NextParsed, hp.children]
  exact ⟨_, hbs, hnextRaw⟩

theorem Consistent.splitCreate_staysRead : ctx.StaysRead ctx' where
  parsed _ := h.splitCreate_parsed hsplit
  placed _ := h.splitCreate_labelPlaced hsplit
  label _ := h.splitCreate_labelParsed hsplit
  next _ := h.splitCreate_nextParsed hsplit

/-- The items are those that were there, the new one, and raw ones. -/
theorem Consistent.mem_splitCreate {it : Item} (hit : it ∈ ctx'.children.nodes)
    (hraw : it.body.isRaw = false) :
    it ∈ ctx.children.nodes ∨ it.id = ctx.nextId ∧ it.body = body := by
  obtain ⟨k, r, src, p, -, -, hk, -, -, -, hp⟩ := h.splitCreate_ok hsplit
  rw [hp.children, mem_plug] at hit
  rcases hit with hit | hit
  · exact .inl (by rw [hk, mem_plug]; exact .inl hit)
  · rcases Parts.mem_items hit with rfl | hnil | ⟨-, src', hbody⟩
    · exact .inr ⟨rfl, rfl⟩
    · cases hnil
    · rw [hbody] at hraw
      cases hraw

theorem Consistent.splitCreate_new (hheader : body.isHeader = false) (hraw : body.isRaw = false) :
    ctx'.Parsed ctx.nextId := by
  obtain ⟨n, hfind, hbody⟩ := h.splitCreate_find? hheader hsplit
  obtain ⟨hmem, hid⟩ := find?_some hfind
  exact ⟨n, Forest.mem_nodes.mpr ⟨_, hmem⟩, hid, hbody ▸ hraw⟩

end

/-- A new item takes the labels at its place. -/
theorem Consistent.splitCreate_takes {ctx ctx' : Context} (h : ctx.Consistent) {l : LabelPtr}
    {ptr : ItemPointer} (hptr : ctx.labels.lookup l = some (some ptr)) {body : Body}
    (hheader : body.isHeader = false)
    (hsplit : ctx.splitCreate ptr.item ptr.offset body = .ok ctx') :
    ∃ n, ctx'.target l = .ok (n, .nil, 0) ∧ n.id = ctx.nextId ∧ n.body = body := by
  obtain ⟨n, hfind, hbody⟩ := h.splitCreate_find? hheader hsplit
  obtain ⟨⟨r, children, src⟩, hraw, -⟩ := bind_eq_ok.mp hsplit
  obtain ⟨-, hid, -, k, hk, -⟩ := h.create.registers.raw_hole hraw
  have hk' : ctx.children = k.plug (.single r .nil) := hk
  have hr : r ∈ ctx.children.nodes := by
    rw [hk', mem_plug]
    exact .inr List.mem_cons_self
  obtain ⟨it, hit, hitId, hl⟩ := h.attached l ptr hptr
  rw [h.eq_of_id hit hr (hitId.trans hid.symm)] at hl
  have hoffset : ctx.labels.offset l = ptr.offset := by rw [LabelsMap.offset, hptr]
  have htakes := (h.create.split2_labels hraw (h.fresh_create body) hsplit).1 l hl
    (Nat.le_of_eq hoffset.symm) (by
      change Takes _ _ (ctx.labels.offset l)
      rw [hoffset, Takes]
      omega)
  change ctx'.labels.lookup l =
    some (some { item := ctx.nextId, offset := ctx.labels.offset l - ptr.offset }) at htakes
  rw [hoffset, Nat.sub_self] at htakes
  exact ⟨n, target_of_find? htakes hfind, (find?_some hfind).2, hbody⟩

theorem Consistent.splitCreate_at (h : ctx.Consistent) {l : LabelPtr} {ptr : ItemPointer}
    (hptr : ctx.labels.lookup l = some (some ptr)) {body : Body} (hheader : body.isHeader = false)
    (hraw : body.isRaw = false) (hsplit : ctx.splitCreate ptr.item ptr.offset body = .ok ctx') :
    ctx'.LabelParsed l := by
  obtain ⟨n, htarget, -, rfl⟩ := h.splitCreate_takes hptr hheader hsplit
  obtain ⟨ptr', hptr', hfind, -⟩ := target_eq_ok htarget
  obtain ⟨hmem, hid⟩ := find?_some hfind
  exact ⟨ptr', hptr', n, Forest.mem_nodes.mpr ⟨_, hmem⟩, hid, hraw⟩

/-- An item that takes the start of the raw item behind another one follows that one. -/
theorem Consistent.splitCreate_behind (h : ctx.Consistent) {id : Nat} {next : Item × ItemList}
    {body : Body} (hraw : body.isRaw = false)
    (hnext : ctx.children.next? (isItem id) = some next)
    (hsplit : ctx.splitCreate next.1.id 0 body = .ok ctx') : ctx'.NextParsed id := by
  obtain ⟨k, a, cs, ha, hk⟩ := Hole.exists_plug_next hnext
  obtain ⟨⟨r, children, src⟩, hget, -⟩ := bind_eq_ok.mp hsplit
  obtain ⟨-, hid, hbody, k', hk', -⟩ := h.create.registers.raw_hole hget
  have hk' : ctx.children = _ := hk'
  -- the item that follows is the raw one that is split
  have hr : (r, .nil) ∈ ctx.children.subtrees := by
    rw [hk', Hole.mem_subtrees_plug]
    exact .inl List.mem_cons_self
  have hmem : next ∈ ctx.children.subtrees := by
    rw [hk, Hole.mem_subtrees_plug]
    exact .inl (List.mem_cons_of_mem _ (List.mem_append_right _ List.mem_cons_self))
  have hnode := Forest.mem_nodes.mpr ⟨_, hr⟩
  cases h.eq_of_id hnode (Forest.mem_nodes.mpr ⟨_, hmem⟩) hid
  have hnil := h.childless _ _ hmem (by rw [hbody]; rfl)
  have hbehind : ctx.children = (k.behind a cs).plug (.single next.1 .nil) := by
    rw [Hole.plug_behind, hk, hnil]
  have hlt := h.numbered _ hnode
  have hapart := h.registers.apart hbehind List.mem_cons_self
  have hapartA := h.registers.apart hk List.mem_cons_self
  have hbehind' : (ctx.create body).2.children = (k.behind a cs).plug (.single next.1 .nil) :=
    hbehind
  obtain ⟨p, hp⟩ := split2_ok hbehind' hapart hbody (h.labelled _ hnode)
    (fun it hit => by
      rw [List.mem_singleton.mp hit]
      exact decide_eq_false (Nat.ne_of_gt hlt)) (Nat.lt_succ_of_lt hlt) hsplit
  obtain rfl : a.id = id := of_decide_eq_true ha
  refine ⟨(p.newItem next.1 0 (ctx.create body).1, .nil), ?_, hraw⟩
  rw [hp.children, Hole.plug_behind]
  refine Hole.next?_plug hapartA.before ?_
  rw [Parts.items, Parts.frontItems, if_pos rfl, Forest.nil_append, Forest.next?, if_pos ha]
  rfl

/-! Reading on, where nothing is nested or replaced. -/

variable {new : Body → Prop}

theorem Edits.staysRead (h : Edits (fun _ => False) new ctx ctx') (hctx : ctx.Consistent) :
    ctx.StaysRead ctx' := by
  refine (h.preserves (I := ctx.StaysRead) (fun ctx₁ ctx₂ hctx₁ hread hedit => ?_) hctx
    (.refl ctx)).2
  cases hedit with
  | relabel h => exact hread.trans h.staysRead
  | split h _ _ _ => exact hread.trans (hctx₁.splitCreate_staysRead h)
  | nest hown _ _ _ | replace _ hown _ _ _ _ _ _ _ => exact hown.elim

theorem Edits.pointed (h : Edits (fun _ => False) new ctx ctx') (hctx : ctx.Consistent)
    (hpointed : ctx.Pointed) : ctx'.Pointed := by
  refine (h.preserves (I := Pointed) (fun ctx₁ ctx₂ hctx₁ hpointed hedit => ?_) hctx hpointed).2
  cases hedit with
  | relabel h => exact h.pointed hpointed
  | split h _ _ _ => exact hpointed.create.split2 hctx₁.create (hctx₁.fresh_create _) h
  | nest hown _ _ _ | replace _ hown _ _ _ _ _ _ _ => exact hown.elim

end Context

end Neptools
