import Mathlib.Logic.Relation
import Neptools.Format.Nest

/-!
What stays as it is while a file is read: positions and counts that a label
answers with, and the header of the file. Reading edits a context in four ways: it
makes labels, splits items out of raw ones, nests data in what it has made, and
replaces an item.
-/

namespace Neptools

open Lib

namespace Body

def isRaw : Body → Bool
  | raw _ => true
  | _ => false

theorem isRaw_eq_true {b : Body} : b.isRaw = true ↔ ∃ src, b = raw src := by
  cases b with
  | raw src => exact iff_of_true rfl ⟨src, rfl⟩
  | _ => exact iff_of_false Bool.false_ne_true fun ⟨src, heq⟩ => nomatch heq

theorem ne_raw {b : Body} (h : b.isRaw = false) (src : Source) : b ≠ raw src := fun heq => by
  rw [heq] at h
  cases h

/-- Nothing is ever put into it. -/
def Leaf (b : Body) : Prop := b.hasChildren = false

/-- If it is split off from an empty item, nothing is put into it. -/
def Lasting (b : Body) : Prop := b.Leaf ∨ 0 < b.ownSize

end Body

namespace Context

theorem Consistent.freshList_create {ctx : Context} (h : ctx.Consistent) (body : Body) :
    (ctx.create body).2.FreshList (.single (ctx.create body).1 .nil) where
  distinct := List.nodup_singleton _
  fresh := fun _ hn => List.mem_singleton.mp hn ▸ h.fresh_create body

/-- The item of a label is in its list of labels. -/
theorem Consistent.mem_labels {ctx : Context} (h : ctx.Consistent) {l : LabelPtr} {it : Item}
    {children : ItemList} {offset : Nat} (htarget : ctx.target l = .ok (it, children, offset)) :
    it ∈ ctx.children.nodes ∧ l ∈ it.labels ∧ ctx.labels.offset l = offset := by
  obtain ⟨ptr, hptr, hfind, rfl⟩ := target_eq_ok htarget
  obtain ⟨hmem, hid⟩ := find?_some hfind
  have hit : it ∈ ctx.children.nodes := Forest.mem_nodes.mpr ⟨_, hmem⟩
  obtain ⟨it', hit', hid', hl⟩ := h.attached l ptr hptr
  refine ⟨hit, ?_, by rw [LabelsMap.offset, hptr]⟩
  rwa [h.eq_of_id hit' hit (hid'.trans hid.symm)] at hl

theorem Consistent.eq_of_label {ctx : Context} (h : ctx.Consistent) {l : LabelPtr} {a b : Item}
    (ha : a ∈ ctx.children.nodes) (hb : b ∈ ctx.children.nodes) (hla : l ∈ a.labels)
    (hlb : l ∈ b.labels) : a = b :=
  h.registers.registered.eq_of_label (by rwa [List.append_nil]) (by rwa [List.append_nil]) hla hlb

/-- The new item is there, without children. -/
theorem Consistent.splitCreate_find? {ctx ctx' : Context} (h : ctx.Consistent) {id pos : Nat}
    {body : Body} (hheader : body.isHeader = false)
    (hsplit : ctx.splitCreate id pos body = .ok ctx') :
    ∃ n, ctx'.find? ctx.nextId = some (n, .nil) ∧ n.body = body := by
  have hctx' := h.splitCreate (fun htrue => absurd (hheader.symm.trans htrue) Bool.false_ne_true)
    hsplit
  obtain ⟨k, r, src, p, -, -, -, -, -, -, hp⟩ := h.splitCreate_ok hsplit
  have hfind := hctx'.find?_of_mem hp.mem_new
  exact ⟨_, hfind, rfl⟩

/-- Some item has the body. -/
def HasBody (ctx : Context) (b : Body) : Prop := ∃ it ∈ ctx.children.nodes, it.body = b

/-- What is read later leaves what is there already. -/
structure Keeps (ctx ctx' : Context) : Prop where
  consistent : ctx'.Consistent
  answers : ctx.view.Extends False ctx'.view
  header : ∀ b, b.isHeader = true → (ctx'.HasBody b ↔ ctx.HasBody b)

theorem Keeps.refl {ctx : Context} (h : ctx.Consistent) : ctx.Keeps ctx where
  consistent := h
  answers := ⟨fun _ _ hl => hl, fun _ _ hl => hl, fun _ _ hl => hl, fun hfalse => hfalse.elim⟩
  header _ _ := Iff.rfl

theorem Keeps.trans {ctx ctx₁ ctx' : Context} (h : ctx.Keeps ctx₁) (h' : ctx₁.Keeps ctx') :
    ctx.Keeps ctx' where
  consistent := h'.consistent
  answers := h.answers.trans h'.answers
  header b hb := (h'.header b hb).trans (h.header b hb)

theorem Relabels.keeps {ctx ctx' : Context} (h : ctx.Relabels ctx') (hctx : ctx.Consistent) :
    ctx.Keeps ctx' where
  consistent := h.consistent hctx
  answers := h.extends False
  header b _ := by
    have hnodes := congrArg (fun f => f.nodes.map Item.body) h.plain
    simp only [Forest.nodes_map, List.map_map] at hnodes
    have hmem (f : ItemList) : b ∈ f.nodes.map (Item.body ∘ Item.plain) ↔
        ∃ it ∈ f.nodes, it.body = b := List.mem_map
    rw [HasBody, HasBody, ← hmem, ← hmem, hnodes]

section

variable {ctx ctx' : Context}

theorem Consistent.splitCreate_keeps (h : ctx.Consistent) {id pos : Nat} {body : Body}
    (hheader : body.isHeader = false) (hsplit : ctx.splitCreate id pos body = .ok ctx') :
    ctx.Keeps ctx' := by
  have hctx' := h.splitCreate (fun htrue => absurd (hheader.symm.trans htrue) Bool.false_ne_true)
    hsplit
  obtain ⟨k, r, src, p, -, hbody, hk, -, -, -, hp⟩ := h.splitCreate_ok hsplit
  refine ⟨hctx', (hp.extends h.create hk hbody (h.freshList_create body)).weaken,
    fun b hb => ⟨?_, ?_⟩⟩
  · rintro ⟨it, hit, rfl⟩
    rw [hp.children, mem_plug] at hit
    rcases hit with hit | hit
    · exact ⟨it, by rw [hk, mem_plug]; exact .inl hit, rfl⟩
    · rcases Parts.mem_items hit with rfl | hit | ⟨-, src', hraw⟩
      · exact absurd (hheader.symm.trans hb) Bool.false_ne_true
      · cases hit
      · rw [hraw] at hb
        cases hb
  · rintro ⟨it, hit, rfl⟩
    rw [hk, mem_plug] at hit
    rcases hit with hit | hit
    · exact ⟨it, by rw [hp.children, mem_plug]; exact .inl hit, rfl⟩
    · rw [List.mem_singleton.mp hit, hbody] at hb
      cases hb

theorem Consistent.moveNextToChild_keeps (h : ctx.Consistent) {id size : Nat} {it : Item}
    {children : ItemList} (hfind : ctx.find? id = some (it, children))
    (hkind : it.body.hasChildren = true) (hmove : ctx.moveNextToChild id size = .ok ctx') :
    ctx.Keeps ctx' := by
  obtain ⟨-, -, -, -, -, -, -, -, -, hctx', -, hview⟩ := h.moveNextToChild_spec hfind hkind hmove
  refine ⟨hctx', hview, fun b hb => ?_⟩
  obtain ⟨ctx₁, k, x, cs, next, src, sub, p, -, -, hbody, -, -, -, hat⟩ := h.moveNextToChild_ok hmove
  -- the items are those of the split, in another order
  have hnest : ∀ a, a ∈ ctx'.children.nodes ↔ a ∈ ctx₁.children.nodes := by
    intro a
    rw [hat.nested, hat.split_children, mem_plug, mem_plug, nodes_single, Forest.nodes_append,
      Forest.nodes]
  have hbehind : ctx.children = (k.behind x cs).plug (.single next .nil) := by
    rw [Hole.plug_behind]
    exact hat.children
  constructor
  · rintro ⟨a, ha, rfl⟩
    rw [hnest, hat.split.children, mem_plug] at ha
    rcases ha with ha | ha
    · exact ⟨a, by rw [hbehind, mem_plug]; exact .inl ha, rfl⟩
    · rcases Parts.mem_items ha with rfl | ha | ⟨-, src', hraw⟩
      · cases hb
      · cases ha
      · rw [hraw] at hb
        cases hb
  · rintro ⟨a, ha, rfl⟩
    rw [hbehind, mem_plug] at ha
    rcases ha with ha | ha
    · exact ⟨a, by rw [hnest, hat.split.children, mem_plug]; exact .inl ha, rfl⟩
    · rw [List.mem_singleton.mp ha, hbody] at hb
      cases hb

/-- Replacing an item moves its labels to the new one, at the same places; what
was inside had none. -/
theorem Consistent.replace_target (h : ctx.Consistent) {id : Nat} {n r : Item} {its : ItemList}
    (hnew : ctx.Fresh n) (halone : ctx.HeaderAlone id n.body) (hget : ctx.get id = .ok (r, its))
    (hreplace : ctx.replace id n .nil = .ok ctx') {l : LabelPtr} {it : Item} {children : ItemList}
    {offset : Nat} (htarget : ctx.target l = .ok (it, children, offset)) :
    ∃ it' children', ctx'.target l = .ok (it', children', offset) ∧ it'.position = it.position ∧
      (it' = it ∨ it = r) := by
  have hctx' := h.replace hnew halone hreplace
  obtain ⟨rfl, k, hk, hapart⟩ := h.registers.exists_hole (get_eq_ok hget)
  obtain ⟨-, -, hnone, heq⟩ := (replace_eq_ok hk hapart).mp hreplace
  have hlabels : ctx'.labels = moveLabels ctx.labels n.id 0 r.labels := by rw [heq]
  obtain ⟨hit, hl, hoffset⟩ := h.mem_labels htarget
  by_cases hr : l ∈ r.labels
  · -- the label moves with the item
    have hrMem : r ∈ ctx.children.nodes := by
      rw [hk, mem_plug]
      exact .inr List.mem_cons_self
    obtain rfl := h.eq_of_label hit hrMem hl hr
    have hlookup : ctx'.labels.lookup l = some (some { item := n.id, offset }) := by
      rw [hlabels, lookup_moveLabels, if_pos hl, hoffset, Nat.sub_zero]
    have hnewMem : (replacement it n, .nil) ∈ ctx'.children.subtrees := by
      rw [heq, Hole.mem_subtrees_plug]
      exact .inl List.mem_cons_self
    have hfind : ctx'.find? n.id = some (replacement it n, .nil) := hctx'.find?_of_mem hnewMem
    exact ⟨_, _, target_of_find? hlookup hfind, rfl, .inr rfl⟩
  · obtain ⟨ptr, hptr, hfind, rfl⟩ := target_eq_ok htarget
    have hlookup : ctx'.labels.lookup l = some (some ptr) := by
      rw [hlabels, lookup_moveLabels, if_neg hr, hptr]
    have hit' : it ∈ ctx'.children.nodes := by
      rw [hk, mem_plug] at hit
      rw [heq, mem_plug]
      rcases hit with hit | hit
      · exact .inl hit
      · rcases List.mem_cons.mp hit with rfl | hit
        · exact absurd hl hr
        · rw [Forest.nodes, List.append_nil] at hit
          rw [hnone it hit] at hl
          cases hl
    obtain ⟨its', hmem'⟩ := Forest.mem_nodes.mp hit'
    have hfind' := hctx'.find?_of_mem hmem'
    rw [(find?_some hfind).2] at hfind'
    exact ⟨it, its', target_of_find? hlookup hfind', rfl, .inl rfl⟩

theorem Consistent.replace_keeps (h : ctx.Consistent) {id : Nat} {n r : Item} {its : ItemList}
    (hnew : ctx.Fresh n) (hheader : n.body.isHeader = false) (hget : ctx.get id = .ok (r, its))
    (hrheader : r.body.isHeader = false) (hcounted : isCounted r.body = false)
    (hreplace : ctx.replace id n .nil = .ok ctx') : ctx.Keeps ctx' := by
  have halone : ctx.HeaderAlone id n.body := fun htrue =>
    absurd (hheader.symm.trans htrue) Bool.false_ne_true
  refine ⟨h.replace hnew halone hreplace, extends_of_targets (fun l pos hpos => ?_)
    fun l it children htarget hkind => ?_, fun b hb => ?_⟩
  · obtain ⟨⟨it, children, offset⟩, htarget, hpos⟩ := bind_eq_ok.mp hpos
    cases hpos
    obtain ⟨it', children', htarget', hposition, -⟩ :=
      h.replace_target hnew halone hget hreplace htarget
    rw [toFilePos, htarget', ok_bind]
    exact congrArg (fun n => Except.ok (n + offset)) hposition
  · obtain ⟨it', children', htarget', -, rfl | rfl⟩ :=
      h.replace_target hnew halone hget hreplace htarget
    · exact ⟨it', children', htarget', rfl, False.elim⟩
    · exact absurd (hcounted.symm.trans hkind) Bool.false_ne_true
  · obtain ⟨rfl, k, hk, hapart⟩ := h.registers.exists_hole (get_eq_ok hget)
    obtain ⟨-, -, -, rfl⟩ := (replace_eq_ok hk hapart).mp hreplace
    constructor
    · rintro ⟨it, hit, rfl⟩
      rw [mem_plug] at hit
      rcases hit with hit | hit
      · exact ⟨it, by rw [hk, mem_plug]; exact .inl hit, rfl⟩
      · rw [List.mem_singleton.mp hit] at hb
        exact absurd (hheader.symm.trans hb) Bool.false_ne_true
    · rintro ⟨it, hit, rfl⟩
      have hmem := hit
      rw [hk, mem_plug] at hit
      rcases hit with hit | hit
      · exact ⟨it, mem_plug.mpr (.inl hit), rfl⟩
      · rcases List.mem_cons.mp hit with rfl | hit
        · exact absurd (hrheader.symm.trans hb) Bool.false_ne_true
        · -- the children of an item are no headers
          have hinner : it ∈ ctx.children.inner := by
            rw [hk, Hole.mem_inner_plug]
            rw [Forest.nodes, List.append_nil] at hit
            refine .inr ?_
            split
            · rw [Forest.single, Forest.inner]
              exact List.mem_append_left _ hit
            · exact List.mem_cons_of_mem _ (List.mem_append_left _ hit)
          exact absurd ((h.headers it hinner).symm.trans hb) Bool.false_ne_true

end

/-- What reading does to a context. Only `own` items get data, or are replaced; what
is split off is of a kind in `new`. -/
inductive Edit (own : Nat → Prop) (new : Body → Prop) (ctx ctx' : Context) : Prop
  | relabel (h : ctx.Relabels ctx')
  | split {id pos : Nat} {body : Body} (h : ctx.splitCreate id pos body = .ok ctx')
      (hnew : new body) (hheader : body.isHeader = false) (hraw : body.isRaw = false)
  | nest {id size : Nat} {it : Item} (hown : own id) (hfind : ctx.find? id = some (it, .nil))
      (hkind : it.body.hasChildren = true) (h : ctx.moveNextToChild id size = .ok ctx')
  | replace {id : Nat} {body : Body} {it : Item} {children : ItemList}
      (h : (ctx.create body).2.replace id (ctx.create body).1 .nil = .ok ctx') (hown : own id)
      (hheader : body.isHeader = false) (hkind : body.hasChildren = false)
      (hraw : body.isRaw = false) (hget : ctx.get id = .ok (it, children))
      (hold : it.body.isHeader = false) (hcounted : isCounted it.body = false)
      (hinner : ∀ c ∈ children.nodes, c.body.isRaw = true)

def Edits (own : Nat → Prop) (new : Body → Prop) : Context → Context → Prop :=
  Relation.ReflTransGen (Edit own new)

theorem Edit.keeps {own : Nat → Prop} {new : Body → Prop} {ctx ctx' : Context}
    (h : Edit own new ctx ctx') (hctx : ctx.Consistent) : ctx.Keeps ctx' := by
  cases h with
  | relabel h => exact h.keeps hctx
  | split h _ hheader _ => exact hctx.splitCreate_keeps hheader h
  | nest _ hfind hkind h => exact hctx.moveNextToChild_keeps hfind hkind h
  | replace h _ hheader _ _ hget hold hcounted _ =>
      have hkeeps := hctx.create.replace_keeps (hctx.fresh_create _) hheader hget hold hcounted h
      exact ⟨hkeeps.consistent, hkeeps.answers, hkeeps.header⟩

/-- What every edit preserves is preserved by reading. -/
theorem Edits.preserves {own : Nat → Prop} {new : Body → Prop} {I : Context → Prop}
    {ctx ctx' : Context}
    (hedit : ∀ ctx ctx', ctx.Consistent → I ctx → Edit own new ctx ctx' → I ctx')
    (h : Edits own new ctx ctx') (hctx : ctx.Consistent) (hI : I ctx) :
    ctx.Keeps ctx' ∧ I ctx' := by
  induction h with
  | refl => exact ⟨.refl hctx, hI⟩
  | tail _ hlast ih =>
      exact ⟨ih.1.trans (hlast.keeps ih.1.consistent), hedit _ _ ih.1.consistent ih.2 hlast⟩

theorem Edits.keeps {own : Nat → Prop} {new : Body → Prop} {ctx ctx' : Context}
    (h : Edits own new ctx ctx') (hctx : ctx.Consistent) : ctx.Keeps ctx' :=
  (h.preserves (I := fun _ => True) (fun _ _ _ _ _ => trivial) hctx trivial).1

theorem Edit.mono {own own' : Nat → Prop} {new new' : Body → Prop}
    (hown : ∀ id, own id → own' id) (hnew : ∀ b, new b → new' b) {ctx ctx' : Context}
    (h : Edit own new ctx ctx') : Edit own' new' ctx ctx' := by
  cases h with
  | relabel h => exact .relabel h
  | split h hbody hheader hraw => exact .split h (hnew _ hbody) hheader hraw
  | nest hid hfind hkind h => exact .nest (hown _ hid) hfind hkind h
  | replace h hid hheader hkind hraw hget hold hcounted hinner =>
      exact .replace h (hown _ hid) hheader hkind hraw hget hold hcounted hinner

namespace Edits

variable {own : Nat → Prop} {new : Body → Prop} {ctx ctx₁ ctx' : Context}

theorem refl (ctx : Context) : Edits own new ctx ctx := Relation.ReflTransGen.refl

theorem trans (h : Edits own new ctx ctx₁) (h' : Edits own new ctx₁ ctx') :
    Edits own new ctx ctx' :=
  Relation.ReflTransGen.trans h h'

theorem single (h : Edit own new ctx ctx') : Edits own new ctx ctx' := Relation.ReflTransGen.single h

theorem leaf {id pos : Nat} {body : Body} (h : ctx.splitCreate id pos body = .ok ctx')
    (hkind : body.hasChildren = false) (hheader : body.isHeader = false)
    (hraw : body.isRaw = false) : Edits own Body.Leaf ctx ctx' :=
  single (.split h hkind hheader hraw)

theorem mono {own' : Nat → Prop} {new' : Body → Prop} (hown : ∀ id, own id → own' id)
    (hnew : ∀ b, new b → new' b) (h : Edits own new ctx ctx') : Edits own' new' ctx ctx' := by
  induction h with
  | refl => exact refl ctx
  | tail _ hlast ih => exact ih.trans (single (hlast.mono hown hnew))

end Edits

end Context

end Neptools
