import Neptools.Format.Parse
import Neptools.Format.Split

/-!
The registry of the labels. A label that is set is on exactly one item, and the
labels of an item are set to it. Which items there are, and in which order, is
left open here.
-/

namespace Neptools

open Lib

theorem Item.mem_insertLabel {labels : LabelsMap} {l l' : LabelPtr} {it : Item} :
    l' ∈ (it.insertLabel labels l).labels ↔ l' = l ∨ l' ∈ it.labels :=
  (List.perm_orderedInsert _ l it.labels).mem_iff.trans List.mem_cons

theorem Item.Labelled.insertLabel {labels : LabelsMap} {l : LabelPtr} {it : Item} {offset : Nat}
    (h : it.Labelled labels) (hl : l ∉ it.labels)
    (hlookup : labels.lookup l = some (some { item := it.id, offset })) :
    (it.insertLabel labels l).Labelled labels := by
  refine ⟨?_, ?_, ?_⟩
  · exact (List.perm_orderedInsert _ l it.labels).nodup_iff.mpr (List.nodup_cons.mpr ⟨hl, h.nodup⟩)
  · have hsorted := h.sorted
    change (it.labels.orderedInsert (fun a b => labels.offset a < labels.offset b) l).Pairwise _
    generalize it.labels = ls at hsorted
    induction ls with
    | nil => exact List.pairwise_singleton _ _
    | cons a ls ih =>
        obtain ⟨ha, hls⟩ := List.pairwise_cons.mp hsorted
        rw [List.orderedInsert_cons]
        split
        · rename_i hlt
          refine List.pairwise_cons.mpr ⟨fun b hb => ?_, hsorted⟩
          rcases List.mem_cons.mp hb with rfl | hb
          · exact Nat.le_of_lt hlt
          · exact Nat.le_trans (Nat.le_of_lt hlt) (ha b hb)
        · rename_i hge
          refine List.pairwise_cons.mpr ⟨fun b hb => ?_, ih hls⟩
          rcases List.mem_cons.mp ((List.perm_orderedInsert _ l ls).mem_iff.mp hb) with rfl | hb
          · exact Nat.not_lt.mp hge
          · exact ha b hb
  · intro l' hl'
    rcases Item.mem_insertLabel.mp hl' with rfl | hl'
    · exact ⟨offset, hlookup⟩
    · exact h.attached l' hl'

/-- The labels of the items, and no item besides them has one. -/
structure Registered (items : List Item) (labels : LabelsMap) : Prop where
  distinct : (items.map Item.id).Nodup
  labelled : ∀ it ∈ items, it.Labelled labels
  attached : ∀ l ptr, labels.lookup l = some (some ptr) →
    ∃ it ∈ items, it.id = ptr.item ∧ l ∈ it.labels

namespace Registered

variable {items : List Item} {labels labels' : LabelsMap}

theorem perm {items' : List Item} (h : Registered items labels) (hp : items.Perm items') :
    Registered items' labels where
  distinct := (hp.map Item.id).nodup_iff.mp h.distinct
  labelled := fun it hit => h.labelled it (hp.mem_iff.mpr hit)
  attached := fun l ptr hl => by
    obtain ⟨it, hit, hid, hmem⟩ := h.attached l ptr hl
    exact ⟨it, hp.mem_iff.mp hit, hid, hmem⟩

/-- One more item, without labels. -/
theorem cons {it : Item} (h : Registered items labels) (hnone : it.labels = [])
    (hnew : ∀ a ∈ items, a.id ≠ it.id) : Registered (it :: items) labels where
  distinct := by
    rw [List.map_cons, List.nodup_cons]
    refine ⟨fun hmem => ?_, h.distinct⟩
    obtain ⟨a, ha, hid⟩ := List.mem_map.mp hmem
    exact hnew a ha hid
  labelled := List.forall_mem_cons.mpr ⟨.of_nil hnone, h.labelled⟩
  attached := fun l ptr hl => by
    obtain ⟨a, ha, hid, hmem⟩ := h.attached l ptr hl
    exact ⟨a, List.mem_cons_of_mem _ ha, hid, hmem⟩

/-- Two items with one number are the same. -/
theorem eq_of_id (h : Registered items labels) {a b : Item} (ha : a ∈ items) (hb : b ∈ items)
    (hid : a.id = b.id) : a = b :=
  List.inj_on_of_nodup_map h.distinct ha hb hid

/-- No label is on two items. -/
theorem eq_of_label (h : Registered items labels) {a b : Item} (ha : a ∈ items) (hb : b ∈ items)
    {l : LabelPtr} (hla : l ∈ a.labels) (hlb : l ∈ b.labels) : a = b := by
  obtain ⟨offset, hlookup⟩ := (h.labelled a ha).attached l hla
  obtain ⟨offset', hlookup'⟩ := (h.labelled b hb).attached l hlb
  have hptr := hlookup.symm.trans hlookup'
  injection hptr with hptr
  injection hptr with hptr
  exact h.eq_of_id ha hb (congrArg ItemPointer.item hptr)

/-- A label that is not set is on no item. -/
theorem not_mem_of_unset (h : Registered items labels) {l : LabelPtr}
    (hunset : ∀ ptr, labels.lookup l ≠ some (some ptr)) {it : Item} (hit : it ∈ items) :
    l ∉ it.labels := fun hl => by
  obtain ⟨offset, hlookup⟩ := (h.labelled it hit).attached l hl
  exact hunset _ hlookup

/-- The labels of the other items, when only those of `r` are moved. -/
theorem keep {r : Item} {others : List Item} (h : Registered (r :: others) labels)
    (hother : ∀ l, l ∉ r.labels → labels'.lookup l = labels.lookup l) {it : Item}
    (hit : it ∈ others) : it.Labelled labels' := by
  refine (h.labelled it (List.mem_cons_of_mem _ hit)).congr fun l hl => hother l fun hl' => ?_
  have heq := h.eq_of_label (List.mem_cons_of_mem _ hit) List.mem_cons_self hl hl'
  exact (List.nodup_cons.mp (List.map_cons ▸ h.distinct)).1 (heq ▸ List.mem_map_of_mem hit)

/-- `r` and the items in `gone` are replaced by those in `new`, which have all
their labels. -/
theorem moved {r : Item} {gone kept new : List Item}
    (h : Registered (r :: (gone ++ kept)) labels)
    (hother : ∀ l, l ∉ r.labels → labels'.lookup l = labels.lookup l)
    (hmoved : ∀ l ∈ r.labels, ∃ it ∈ new, l ∈ it.labels ∧ ∃ offset,
      labels'.lookup l = some (some { item := it.id, offset }))
    (hgone : ∀ it ∈ gone, ∀ l ∈ it.labels, ∃ it' ∈ new, it'.id = it.id ∧ l ∈ it'.labels)
    (hids : ((new ++ kept).map Item.id).Nodup) (hlabelled : ∀ it ∈ new, it.Labelled labels') :
    Registered (new ++ kept) labels' := by
  refine ⟨hids, fun it hit => ?_, fun l ptr hl => ?_⟩
  · rcases List.mem_append.mp hit with hit | hit
    · exact hlabelled it hit
    · exact h.keep hother (List.mem_append_right _ hit)
  · by_cases hmem : l ∈ r.labels
    · obtain ⟨it, hit, hlabel, offset, hlookup⟩ := hmoved l hmem
      cases hl.symm.trans hlookup
      exact ⟨it, List.mem_append_left _ hit, rfl, hlabel⟩
    · rw [hother l hmem] at hl
      obtain ⟨it, hit, hid, hlabel⟩ := h.attached l ptr hl
      rcases List.mem_cons.mp hit with rfl | hit
      · exact absurd hlabel hmem
      · rcases List.mem_append.mp hit with hit | hit
        · obtain ⟨it', hit', hid', hlabel'⟩ := hgone it hit l hlabel
          exact ⟨it', List.mem_append_left _ hit', hid'.trans hid, hlabel'⟩
        · exact ⟨it, List.mem_append_right _ hit, hid, hlabel⟩

/-- A label that was not set is set. -/
theorem attach {it : Item} {rest : List Item} {name : LabelPtr} {offset : Nat}
    (h : Registered (it :: rest) labels)
    (hunset : ∀ ptr, labels.lookup name ≠ some (some ptr))
    (hset : labels.insert name (some { item := it.id, offset }) = labels') :
    Registered (it.insertLabel labels' name :: rest) labels' := by
  have hname : labels'.lookup name = some (some { item := it.id, offset }) := by
    rw [← hset, AList.lookup_insert]
  have hother : ∀ l, l ≠ name → labels'.lookup l = labels.lookup l := fun l hne => by
    rw [← hset, AList.lookup_insert_ne hne]
  have hkeep : ∀ a ∈ it :: rest, a.Labelled labels' := fun a ha =>
    (h.labelled a ha).congr fun l hl => hother l fun heq =>
      h.not_mem_of_unset hunset ha (heq ▸ hl)
  refine ⟨h.distinct, fun a ha => ?_, fun l ptr hl => ?_⟩
  · rcases List.mem_cons.mp ha with rfl | ha
    · exact (hkeep it List.mem_cons_self).insertLabel
        (h.not_mem_of_unset hunset List.mem_cons_self) hname
    · exact hkeep a (List.mem_cons_of_mem _ ha)
  · by_cases heq : l = name
    · cases heq
      cases hl.symm.trans hname
      exact ⟨_, List.mem_cons_self, rfl, Item.mem_insertLabel.mpr (.inl rfl)⟩
    · rw [hother l heq] at hl
      obtain ⟨a, ha, hid, hlabel⟩ := h.attached l ptr hl
      rcases List.mem_cons.mp ha with rfl | ha
      · exact ⟨_, List.mem_cons_self, hid, Item.mem_insertLabel.mpr (.inr hlabel)⟩
      · exact ⟨a, List.mem_cons_of_mem _ ha, hid, hlabel⟩

/-- A label becomes a dummy, and is taken off its item. -/
theorem detach {it : Item} {rest : List Item} {name : LabelPtr}
    (h : Registered (it :: rest) labels) (hname : name ∈ it.labels) :
    Registered ({ it with labels := it.labels.erase name } :: rest) (labels.insert name none) := by
  have hother : ∀ l, l ≠ name → (labels.insert name none).lookup l = labels.lookup l :=
    fun l hne => AList.lookup_insert_ne hne
  have hself := h.labelled it List.mem_cons_self
  have herase : ∀ l, l ∈ it.labels.erase name ↔ l ≠ name ∧ l ∈ it.labels := fun l =>
    hself.nodup.mem_erase_iff
  have hbut : Item.Labelled labels { it with labels := it.labels.erase name } :=
    ⟨hself.nodup.erase name, hself.sorted.sublist List.erase_sublist,
      fun l hl => hself.attached l ((herase l).mp hl).2⟩
  refine ⟨h.distinct, fun a ha => ?_, fun l ptr hl => ?_⟩
  · rcases List.mem_cons.mp ha with rfl | ha
    · exact hbut.congr fun l hl => hother l ((herase l).mp hl).1
    · refine (h.labelled a (List.mem_cons_of_mem _ ha)).congr fun l hl => hother l fun heq => ?_
      cases heq
      have heq := h.eq_of_label (List.mem_cons_of_mem _ ha) List.mem_cons_self hl hname
      exact (List.nodup_cons.mp (List.map_cons ▸ h.distinct)).1 (heq ▸ List.mem_map_of_mem ha)
  · by_cases heq : l = name
    · rw [heq, AList.lookup_insert] at hl
      cases hl
    · rw [hother l heq] at hl
      obtain ⟨a, ha, hid, hlabel⟩ := h.attached l ptr hl
      rcases List.mem_cons.mp ha with rfl | ha
      · exact ⟨_, List.mem_cons_self, hid, (herase l).mpr ⟨heq, hlabel⟩⟩
      · exact ⟨a, List.mem_cons_of_mem _ ha, hid, hlabel⟩

/-- A new label that is not set. -/
theorem dummy {name : LabelPtr} (h : Registered items labels)
    (hunset : ∀ ptr, labels.lookup name ≠ some (some ptr)) :
    Registered items (labels.insert name none) := by
  have hother : ∀ l, l ≠ name → (labels.insert name none).lookup l = labels.lookup l :=
    fun l hne => AList.lookup_insert_ne hne
  refine ⟨h.distinct, fun it hit => ?_, fun l ptr hl => ?_⟩
  · exact (h.labelled it hit).congr fun l hl => hother l fun heq =>
      h.not_mem_of_unset hunset hit (heq ▸ hl)
  · by_cases heq : l = name
    · rw [heq, AList.lookup_insert] at hl
      cases hl
    · exact h.attached l ptr (hother l heq ▸ hl)

end Registered

/-- Only the items that can have children have some. -/
def Childless (f : ItemList) : Prop :=
  ∀ it children, (it, children) ∈ f.subtrees → it.body.hasChildren = false → children = .nil

/-- An item around a place that was not empty had children before. -/
theorem Childless.replug {k : Hole Item} {old loc : ItemList} (h : Childless (k.plug old))
    (hold : old ≠ .nil) (hloc : Childless loc) : Childless (k.plug loc) := by
  intro it children hmem hnone
  rw [Hole.mem_subtrees_plug] at hmem
  rcases hmem with hmem | hmem | ⟨⟨a, k'⟩, hmem, heq⟩
  · exact hloc it children hmem hnone
  · exact h it children (Hole.mem_subtrees_plug.mpr (.inr (.inl hmem))) hnone
  · cases heq
    have hnil := h a (k'.plug old) (Hole.mem_subtrees_plug.mpr (.inr (.inr ⟨(a, k'), hmem, rfl⟩)))
      hnone
    have hnodes := congrArg Forest.nodes hnil
    rw [Hole.nodes_plug] at hnodes
    cases old with
    | nil => exact absurd rfl hold
    | cons b bs ts =>
        exact absurd (List.append_eq_nil_iff.mp (List.append_eq_nil_iff.mp hnodes).1).2
          (List.cons_ne_nil _ _)

/-- What the registry of a context rests on, while the items in `extra` are not
among its items. -/
structure Context.Registers (ctx : Context) (extra : List Item) : Prop where
  registered : Registered (ctx.children.nodes ++ extra) ctx.labels
  numbered : ∀ it ∈ ctx.children.nodes ++ extra, it.id < ctx.nextId
  childless : Childless ctx.children

namespace Context

theorem ne_of_apart {id : Nat} {k : Hole Item} (h : Apart id k) {it : Item}
    (hit : it ∈ k.before ∨ it ∈ k.after) : it.id ≠ id := by
  rcases hit with hit | hit
  · exact of_decide_eq_false (h.before it hit)
  · exact of_decide_eq_false (h.after it hit)

theorem apart_of_ne {id : Nat} {k : Hole Item}
    (h : ∀ it, it ∈ k.before ∨ it ∈ k.after → it.id ≠ id) : Apart id k :=
  { before := fun it hit => decide_eq_false (h it (.inl hit))
    after := fun it hit => decide_eq_false (h it (.inr hit)) }

theorem mem_plug {k : Hole Item} {loc : ItemList} {it : Item} :
    it ∈ (k.plug loc).nodes ↔ (it ∈ k.before ∨ it ∈ k.after) ∨ it ∈ loc.nodes := by
  rw [Hole.nodes_plug, List.mem_append, List.mem_append]
  tauto

/-- An item a parser has made, but not put anywhere yet. -/
structure Fresh (ctx : Context) (n : Item) : Prop where
  numbered : n.id < ctx.nextId
  new : ∀ it ∈ ctx.children.nodes, it.id ≠ n.id

theorem Fresh.apart {ctx : Context} {n : Item} (h : ctx.Fresh n) {k : Hole Item} {old : ItemList}
    (hk : ctx.children = k.plug old) : Apart n.id k :=
  apart_of_ne fun it hit => h.new it (by
    rw [hk, mem_plug]
    exact .inl hit)

namespace Registers

variable {ctx ctx' : Context} {extra extra' : List Item} {k : Hole Item}

theorem item_mem (h : ctx.Registers extra) {it : Item} (hit : it ∈ ctx.children.nodes) :
    it.Labelled ctx.labels ∧ it.id < ctx.nextId :=
  ⟨h.registered.labelled it (List.mem_append_left _ hit),
    h.numbered it (List.mem_append_left _ hit)⟩

/-- The place of an item. -/
theorem exists_hole (h : ctx.Registers extra) {id : Nat} {it : Item} {children : ItemList}
    (hfind : ctx.find? id = some (it, children)) :
    it.id = id ∧ ∃ k : Hole Item, ctx.children = k.plug (.single it children) ∧ Apart id k := by
  have hdistinct := h.registered.distinct
  rw [List.map_append] at hdistinct
  exact Context.exists_hole (List.nodup_append.mp hdistinct).1 hfind

/-- The items at a place, and all others. -/
theorem around (h : ctx.Registers extra) {old : ItemList} (hk : ctx.children = k.plug old) :
    Registered (old.nodes ++ (k.before ++ k.after ++ extra)) ctx.labels := by
  refine h.registered.perm ?_
  rw [hk, ← List.append_assoc]
  exact (Hole.nodes_plug_perm k old).append_right extra

/-- What is at a place is apart from what is around it. -/
theorem apart (h : ctx.Registers extra) {old : ItemList} (hk : ctx.children = k.plug old)
    {it : Item} (hit : it ∈ old.nodes) : Apart it.id k := by
  have hdistinct := (h.around hk).distinct
  rw [List.map_append, List.nodup_append] at hdistinct
  exact apart_of_ne fun a ha heq => hdistinct.2.2 _ (List.mem_map_of_mem hit) _
    (List.mem_map_of_mem (List.mem_append_left _ (List.mem_append.mpr ha))) heq.symm

/-- A place that is filled anew. -/
theorem refill {old loc : ItemList} (h : ctx.Registers extra) (hk : ctx.children = k.plug old)
    (hk' : ctx'.children = k.plug loc) (hold : old ≠ .nil)
    (hregistered : Registered (loc.nodes ++ (k.before ++ k.after ++ extra')) ctx'.labels)
    (hnext : ctx.nextId ≤ ctx'.nextId) (hlt : ∀ it ∈ loc.nodes ++ extra', it.id < ctx'.nextId)
    (hchildless : Childless loc) : ctx'.Registers extra' := by
  refine ⟨hregistered.perm ?_, fun it hit => ?_, ?_⟩
  · rw [hk', ← List.append_assoc]
    exact ((Hole.nodes_plug_perm k loc).append_right extra').symm
  · rw [hk', List.mem_append, mem_plug] at hit
    rcases hit with (hit | hit) | hit
    · refine Nat.lt_of_lt_of_le (h.item_mem ?_).2 hnext
      rw [hk, mem_plug]
      exact .inl hit
    · exact hlt it (List.mem_append_left _ hit)
    · exact hlt it (List.mem_append_right _ hit)
  · have hchildren : Childless (k.plug old) := hk ▸ h.childless
    rw [hk']
    exact hchildren.replug hold hchildless

/-- Another item of the same kind and number, with the same children. -/
theorem retouch {it it' : Item} {children : ItemList} (h : ctx.Registers extra)
    (hk : ctx.children = k.plug (.single it children))
    (hk' : ctx'.children = k.plug (.single it' children)) (hid : it'.id = it.id)
    (hbody : it'.body = it.body) (hnext : ctx'.nextId = ctx.nextId)
    (hregistered : Registered
      ((Forest.single it' children).nodes ++ (k.before ++ k.after ++ extra)) ctx'.labels) :
    ctx'.Registers extra := by
  have hin : ∀ a ∈ (Forest.single it children).nodes, a ∈ ctx.children.nodes := fun a ha => by
    rw [hk, mem_plug]
    exact .inr ha
  have hsub : ∀ x ∈ (Forest.single it children).subtrees, x ∈ ctx.children.subtrees := fun x hx => by
    rw [hk, Hole.mem_subtrees_plug]
    exact .inl hx
  refine h.refill hk hk' (fun hnil => nomatch hnil) hregistered (Nat.le_of_eq hnext.symm) ?_ ?_
  · intro a ha
    rw [hnext]
    rcases List.mem_append.mp ha with ha | ha
    · rcases List.mem_cons.mp ha with rfl | ha
      · exact hid ▸ (h.item_mem (hin it List.mem_cons_self)).2
      · exact (h.item_mem (hin a (List.mem_cons_of_mem _ ha))).2
    · exact h.numbered a (List.mem_append_right _ ha)
  · intro a cs hmem hnone
    rcases List.mem_cons.mp hmem with heq | hmem
    · cases heq
      exact h.childless it children (hsub _ List.mem_cons_self) (hbody ▸ hnone)
    · exact h.childless a cs (hsub _ (List.mem_cons_of_mem _ hmem)) hnone

/-- A label that was not set is set. -/
theorem insertNew (h : ctx.Registers extra) {name : LabelPtr} {ptr : ItemPointer}
    {x : Item × ItemList} (hunset : ∀ ptr, ctx.labels.lookup name ≠ some (some ptr))
    (hfind : ctx.find? ptr.item = some x) : (ctx.insertNew name ptr).Registers extra := by
  obtain ⟨it, children⟩ := x
  obtain ⟨hid, k, hk, hapart⟩ := h.exists_hole hfind
  obtain ⟨item, offset⟩ := ptr
  cases hid
  have hk₁ : Context.children
      { ctx with labels := ctx.labels.insert name (some ⟨it.id, offset⟩) } =
        k.plug (.single it children) := hk
  exact h.retouch hk (update_hole hk₁ hapart _) rfl rfl rfl ((h.around hk).attach hunset rfl)

theorem bump (h : ctx.Registers extra) :
    ({ ctx with nextId := ctx.nextId + 1 } : Context).Registers extra :=
  { h with numbered := fun it hit => Nat.lt_succ_of_lt (h.numbered it hit) }

/-- One more item, without labels. -/
theorem cons {n : Item} (h : ctx.Registers extra) (hnone : n.labels = [])
    (hlt : n.id < ctx.nextId) (hnew : ∀ it ∈ ctx.children.nodes ++ extra, it.id ≠ n.id) :
    ctx.Registers (n :: extra) := by
  refine ⟨(h.registered.cons hnone hnew).perm List.perm_middle.symm, fun it hit => ?_,
    h.childless⟩
  rw [List.mem_append, List.mem_cons, or_left_comm] at hit
  rcases hit with rfl | hit
  · exact hlt
  · exact h.numbered it (List.mem_append.mpr hit)

/-- The place of a raw item. -/
theorem raw_hole (h : ctx.Registers extra) {id : Nat} {r : Item} {children : ItemList}
    {src : Source} (hraw : ctx.getRaw id = .ok (r, children, src)) :
    children = .nil ∧ r.id = id ∧ r.body = .raw src ∧
      ∃ k : Hole Item, ctx.children = k.plug (.single r .nil) ∧ Apart id k := by
  obtain ⟨⟨it, cs⟩, hget, hraw⟩ := bind_eq_ok.mp hraw
  simp only [] at hraw
  split at hraw
  · rename_i src' hbody
    cases hraw
    have hnil := h.childless r children (find?_some (get_eq_ok hget)).1 (by rw [hbody]; rfl)
    subst hnil
    obtain ⟨hid, k, hk, hapart⟩ := h.exists_hole (get_eq_ok hget)
    exact ⟨rfl, hid, hbody, k, hk, hapart⟩
  · cases hraw

end Registers

/-! Either there is a label at the place, or one is made. -/

theorem getLabelToPtr_ok {ctx : Context} {ptr : ItemPointer} {y : Context × LabelPtr}
    (h : ctx.getLabelToPtr ptr = .ok y) :
    (y.1 = ctx ∧ ∃ it children, ctx.get ptr.item = .ok (it, children) ∧
        ctx.labelAt it ptr.offset = some y.2) ∨
      ∃ x name, ctx.get ptr.item = .ok x ∧ y = ctx.createLabelFallback name ptr := by
  obtain ⟨⟨it, children⟩, hget, h⟩ := bind_eq_ok.mp h
  simp only [] at h
  split at h
  · rename_i l hl
    cases h
    exact .inl ⟨rfl, it, children, hget, hl⟩
  · cases h
    exact .inr ⟨_, _, hget, rfl⟩

theorem getLabelToNamed_ok {ctx : Context} {pos : Nat} {name : LabelPtr}
    {y : Context × LabelPtr} (h : ctx.getLabelToNamed pos name = .ok y) :
    ∃ ptr, ctx.getPointer pos = .ok ptr ∧
      ((y.1 = ctx ∧ ∃ it children, ctx.get ptr.item = .ok (it, children) ∧
          ctx.labelAt it ptr.offset = some y.2) ∨
        ∃ x, ctx.get ptr.item = .ok x ∧ y = ctx.createLabelFallback name ptr) := by
  obtain ⟨ptr, hptr, h⟩ := bind_eq_ok.mp h
  obtain ⟨⟨it, children⟩, hget, h⟩ := bind_eq_ok.mp h
  simp only [] at h
  refine ⟨ptr, hptr, ?_⟩
  split at h
  · rename_i l hl
    cases h
    exact .inl ⟨rfl, it, children, hget, hl⟩
  · cases h
    exact .inr ⟨_, hget, rfl⟩

/-! Replaced and split items. -/

theorem nodes_single (it : Item) (children : ItemList) :
    (Forest.single it children).nodes = it :: children.nodes := by
  rw [Forest.single, Forest.nodes, Forest.nodes, List.append_nil]

theorem perm_gone {α : Type} (old around new extra : List α) :
    (old ++ (around ++ (new ++ extra))).Perm (new ++ old ++ (around ++ extra)) := by
  rw [List.append_assoc new]
  exact ((List.perm_append_comm_assoc around new extra).append_left old).trans
    (List.perm_append_comm_assoc old new (around ++ extra))

/-- What is in the place of an item that was split: the new item, what is below
it, and raw parts. -/
theorem Parts.mem_items {p : Parts} {nextId size pos : Nat} {r n : Item} {nchildren : ItemList}
    {it : Item} (hit : it ∈ (p.items nextId r size pos n nchildren).nodes) :
    it = p.newItem r pos n ∨ it ∈ nchildren.nodes ∨
      (it.id = r.id ∨
        it.id = nextId ∧ splitNextId nextId size (n.getSize nchildren) pos = nextId + 1) ∧
          ∃ src, it.body = .raw src := by
  rw [Parts.items, Forest.nodes_append, List.mem_append, Forest.nodes, List.mem_cons,
    List.mem_append, Parts.frontItems, Parts.backItems] at hit
  rcases hit with hit | rfl | hit | hit
  · split at hit
    · cases hit
    · rw [List.mem_singleton.mp hit]
      exact .inr (.inr ⟨.inl rfl, _, rfl⟩)
  · exact .inl rfl
  · exact .inr (.inl hit)
  · split at hit
    · cases hit
    · rename_i hrest
      rw [List.mem_singleton.mp hit]
      refine .inr (.inr ⟨?_, _, rfl⟩)
      by_cases hpos : pos = 0
      · exact .inl (if_pos hpos)
      · exact .inr ⟨if_neg hpos, if_neg fun h => h.elim hpos hrest⟩

theorem Parts.childless_items {p : Parts} {nextId size pos : Nat} {r n : Item}
    {nchildren : ItemList} (hkinds : Childless (.single n nchildren)) :
    Childless (p.items nextId r size pos n nchildren) := by
  intro it children hmem hnone
  rw [Parts.items, Forest.subtrees_append, List.mem_append, Forest.subtrees, List.mem_cons,
    List.mem_append, Parts.frontItems, Parts.backItems] at hmem
  rcases hmem with hmem | hmem | hmem | hmem
  · split at hmem
    · cases hmem
    · cases List.mem_singleton.mp hmem
      rfl
  · cases hmem
    exact hkinds n nchildren List.mem_cons_self hnone
  · exact hkinds it children (List.mem_cons_of_mem _ (List.mem_append_left _ hmem)) hnone
  · split at hmem
    · cases hmem
    · cases List.mem_singleton.mp hmem
      rfl

theorem Parts.nodup_items (p : Parts) {nextId size pos : Nat} {r n : Item} {nchildren : ItemList}
    (hids : ((Forest.single n nchildren).nodes.map Item.id).Nodup)
    (hnew : ∀ it ∈ (Forest.single n nchildren).nodes, it.id ≠ r.id ∧ it.id < nextId)
    (hr : r.id < nextId) : ((p.items nextId r size pos n nchildren).nodes.map Item.id).Nodup := by
  obtain ⟨rest, hrest⟩ : ∃ rest, size - n.getSize nchildren - pos = rest := ⟨_, rfl⟩
  simp only [Forest.single, Forest.nodes, List.append_nil, List.forall_mem_cons,
    List.map_cons] at hids hnew
  obtain ⟨⟨hne, hlt⟩, hchildren⟩ := hnew
  simp only [Parts.items, Parts.frontItems, Parts.newItem, Parts.backItems, hrest]
  by_cases hpos : pos = 0 <;> by_cases hzero : rest = 0 <;>
    simp [hpos, hzero, Forest.nodes, Forest.single, List.nodup_append] <;> grind

section

variable {ctx ctx' : Context} {extra : List Item} {n : Item} {nchildren : ItemList}
  (h : ctx.Registers ((Forest.single n nchildren).nodes ++ extra))
  (hkinds : Childless (.single n nchildren))

include h hkinds

/-- An item is replaced by one that was not among the items. -/
theorem Registers.replace {id : Nat} (hreplace : ctx.replace id n nchildren = .ok ctx') :
    ctx'.Registers extra := by
  obtain ⟨⟨r, children⟩, hget, -⟩ := bind_eq_ok.mp hreplace
  obtain ⟨rfl, k, hk, hapart⟩ := h.exists_hole (get_eq_ok hget)
  obtain ⟨hoffsets, hnone, hunlabelled, rfl⟩ := (replace_eq_ok hk hapart).mp hreplace
  have hold := h.around hk
  rw [nodes_single r, List.cons_append] at hold
  have hold := hold.perm ((perm_gone children.nodes _ _ _).cons r)
  have hr := hold.labelled r List.mem_cons_self
  obtain ⟨hmoved, hlabelled⟩ := replacement_labels hr hoffsets
  have hnew : Registered ((Forest.single (replacement r n) nchildren).nodes ++
      (k.before ++ k.after ++ extra)) (moveLabels ctx.labels n.id 0 r.labels) := by
    refine hold.moved hmoved.other (fun l hl => ?_) (fun it hit l hl => ?_) ?_ fun it hit => ?_
    · obtain ⟨it, hit, hlabel, offset, hlookup, -⟩ := hmoved.moved l hl
      exact ⟨it, hit, hlabel, offset, hlookup⟩
    · rw [nodes_single, List.cons_append, List.mem_cons, List.mem_append] at hit
      rcases hit with rfl | hit | hit
      · rw [hnone] at hl
        cases hl
      · exact ⟨it, by rw [nodes_single]; exact List.mem_cons_of_mem _ hit, rfl, hl⟩
      · rw [hunlabelled it hit] at hl
        cases hl
    · have hsub := ((List.sublist_append_left (Forest.single n nchildren).nodes
        children.nodes).append_right (k.before ++ k.after ++ extra)).cons r
      exact hold.distinct.sublist (hsub.map Item.id)
    · rw [nodes_single, List.mem_cons] at hit
      rcases hit with rfl | hit
      · exact hlabelled
      · refine hold.keep hmoved.other (List.mem_append_left _ (List.mem_append_left _ ?_))
        rw [nodes_single]
        exact List.mem_cons_of_mem _ hit
  refine h.refill hk rfl (fun hnil => nomatch hnil) hnew (Nat.le_refl _) ?_ ?_
  · intro it hit
    rcases List.mem_append.mp hit with hit | hit
    · rw [nodes_single, List.mem_cons] at hit
      rcases hit with rfl | hit
      · exact h.numbered n (List.mem_append_right _ List.mem_cons_self)
      · refine h.numbered it (List.mem_append_right _ (List.mem_append_left _ ?_))
        rw [nodes_single]
        exact List.mem_cons_of_mem _ hit
    · exact h.numbered it (List.mem_append_right _ (List.mem_append_right _ hit))
  · intro it cs hmem hnone
    rcases List.mem_cons.mp hmem with heq | hmem
    · cases heq
      exact hkinds n nchildren List.mem_cons_self hnone
    · exact hkinds it cs (List.mem_cons_of_mem _ hmem) hnone

/-- An item is split out of a raw one. -/
theorem Registers.split2 {id pos : Nat} (hsplit : ctx.split2 id pos n nchildren = .ok ctx') :
    ctx'.Registers extra := by
  obtain ⟨⟨r, children, src⟩, hraw, -⟩ := bind_eq_ok.mp hsplit
  obtain ⟨rfl, rfl, hbody, k, hk, hapart⟩ := h.raw_hole hraw
  have hnone := split2_unlabelled hk hapart hbody hsplit
  have hold := h.around hk
  rw [nodes_single r, List.cons_append] at hold
  have hold := hold.perm ((perm_gone [] _ _ _).cons r)
  rw [List.append_nil] at hold
  have hr := hold.labelled r List.mem_cons_self
  have hrmem : r ∈ ctx.children.nodes := by
    rw [hk, mem_plug]
    exact .inr List.mem_cons_self
  have hlt := (h.item_mem hrmem).2
  have hids := hold.distinct
  rw [List.map_cons, List.nodup_cons, List.map_append, List.nodup_append, List.mem_append,
    not_or] at hids
  obtain ⟨⟨hrnew, hraround⟩, hidsNew, hidsAround, hcross⟩ := hids
  have hfresh : ∀ it ∈ (Forest.single n nchildren).nodes, it.id ≠ r.id ∧ it.id < ctx.nextId :=
    fun it hit => ⟨fun heq => hrnew (heq ▸ List.mem_map_of_mem hit),
      h.numbered it (List.mem_append_right _ (List.mem_append_left _ hit))⟩
  obtain ⟨p, hp⟩ := split2_ok hk hapart hbody hr
    (fun it hit => decide_eq_false (hfresh it hit).1) hlt hsplit
  have hle : ctx.nextId ≤ splitNextId ctx.nextId src.size (n.getSize nchildren) pos := by
    rw [splitNextId]
    split <;> omega
  have hin : ∀ it ∈ nchildren.nodes, it ∈ (Forest.single n nchildren).nodes := fun it hit => by
    rw [nodes_single]
    exact List.mem_cons_of_mem _ hit
  have hitems : ∀ it ∈ (p.items ctx.nextId r src.size pos n nchildren).nodes, it.id = r.id ∨
      (∃ it' ∈ (Forest.single n nchildren).nodes, it.id = it'.id) ∨ it.id = ctx.nextId ∧
        splitNextId ctx.nextId src.size (n.getSize nchildren) pos = ctx.nextId + 1 := by
    intro it hit
    rcases Parts.mem_items hit with rfl | hit | ⟨hid | hid, -⟩
    · exact .inr (.inl ⟨n, List.mem_cons_self, rfl⟩)
    · exact .inr (.inl ⟨it, hin it hit, rfl⟩)
    · exact .inl hid
    · exact .inr (.inr hid)
  have hnew : Registered ((p.items ctx.nextId r src.size pos n nchildren).nodes ++
      (k.before ++ k.after ++ extra)) ctx'.labels := by
    refine hold.moved hp.moved.other (fun l hl => ?_) (fun it hit l hl => ?_) ?_ fun it hit => ?_
    · obtain ⟨it, hit, hlabel, offset, hlookup, -⟩ := hp.moved.moved l hl
      exact ⟨it, hit, hlabel, offset, hlookup⟩
    · rw [nodes_single, List.mem_cons] at hit
      rcases hit with rfl | hit
      · rw [hnone] at hl
        cases hl
      · refine ⟨it, ?_, rfl, hl⟩
        rw [Parts.items, Forest.nodes_append, Forest.nodes]
        exact List.mem_append_right _ (List.mem_cons_of_mem _ (List.mem_append_left _ hit))
    · rw [List.map_append, List.nodup_append]
      refine ⟨p.nodup_items hidsNew hfresh hlt, hidsAround, ?_⟩
      intro a ha b hb heq
      subst heq
      obtain ⟨it, hit, rfl⟩ := List.mem_map.mp ha
      rcases hitems it hit with hid | ⟨it', hit', hid⟩ | ⟨hid, -⟩
      · exact hraround (hid ▸ hb)
      · exact hcross _ (List.mem_map_of_mem hit') _ hb hid.symm
      · obtain ⟨it', hit', hid'⟩ := List.mem_map.mp hb
        have hmem : it' ∈ ctx.children.nodes ++ ((Forest.single n nchildren).nodes ++ extra) := by
          rw [hk, List.mem_append, mem_plug]
          rcases List.mem_append.mp hit' with hit' | hit'
          · exact .inl (.inl (List.mem_append.mp hit'))
          · exact .inr (List.mem_append_right _ hit')
        have := h.numbered it' hmem
        omega
    · rcases hp.labelled it hit with hlabelled | ⟨it', hit', hid, hlabels⟩
      · exact hlabelled
      · have hkept := hold.keep hp.moved.other (List.mem_append_left _ (hin it' hit'))
        refine ⟨hlabels ▸ hkept.nodup, hlabels ▸ hkept.sorted, ?_⟩
        rw [← hid, ← hlabels]
        exact hkept.attached
  refine h.refill hk hp.children (by simp [Forest.single]) hnew (hp.nextId ▸ hle) ?_
    (Parts.childless_items hkinds)
  intro it hit
  rw [hp.nextId]
  rcases List.mem_append.mp hit with hit | hit
  · rcases hitems it hit with hid | ⟨it', hit', hid⟩ | ⟨hid, hnext⟩
    · omega
    · have := (hfresh it' hit').2
      omega
    · omega
  · have := h.numbered it (List.mem_append_right _ (List.mem_append_right _ hit))
    omega

end

theorem childless_single (n : Item) : Childless (.single n .nil) := fun it children hmem _ => by
  cases List.mem_singleton.mp hmem
  rfl

theorem Registers.splitRaw_ok {ctx ctx' : Context} {extra : List Item}
    (h : ctx.Registers extra) {id offset size i : Nat}
    (hsplit : ctx.splitRaw id offset size = .ok (ctx', i)) :
    ∃ r src sub, ctx.getRaw id = .ok (r, .nil, src) ∧ offset + size ≤ src.size ∧
      src.sub offset size = .ok sub ∧ sub.bytes = Lib.slice src.bytes offset size ∧
      i = ctx.nextId ∧
      ({ ctx with nextId := ctx.nextId + 1 } : Context).split2 id offset
        { id := ctx.nextId, position := r.position + offset, labels := [], body := .raw sub }
        .nil = .ok ctx' := by
  obtain ⟨⟨r, children, src⟩, hraw, hsplit⟩ := bind_eq_ok.mp hsplit
  obtain ⟨rfl, -⟩ := h.raw_hole hraw
  obtain ⟨⟨nitem, ctx₁⟩, hslice, hsplit⟩ := bind_eq_ok.mp hsplit
  obtain ⟨_, hle, hslice⟩ := bind_eq_ok.mp hslice
  obtain ⟨sub, hsub, hslice⟩ := bind_eq_ok.mp hslice
  cases hslice
  obtain ⟨ctx₂, hsplit', heq⟩ := bind_eq_ok.mp hsplit
  cases heq
  have hle := require_eq_ok.mp hle
  obtain ⟨sub', hsub', hbytes⟩ := Source.sub_of_le hle
  cases hsub.symm.trans hsub'
  exact ⟨r, src, sub, hraw, hle, hsub, hbytes, rfl, hsplit'⟩

theorem Registers.splitRaw {ctx ctx' : Context} (h : ctx.Registers []) {id offset size i : Nat}
    (hsplit : ctx.splitRaw id offset size = .ok (ctx', i)) : ctx'.Registers [] := by
  obtain ⟨r, src, sub, -, -, -, -, -, hsplit⟩ := h.splitRaw_ok hsplit
  refine (h.bump.cons rfl (Nat.lt_succ_self _) fun it hit => ?_).split2 (childless_single _) hsplit
  exact Nat.ne_of_lt (h.numbered it hit)

end Context

end Neptools
