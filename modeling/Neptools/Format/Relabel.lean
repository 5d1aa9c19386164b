import Neptools.Format.Asks
import Neptools.Format.Consistent

/-!
What a parser does to a context before it has an item to put there: it only asks
for labels. The items stay what they are, and a label that is set stays where it
is.
-/

namespace Neptools

open Lib

/-- The item without its labels. -/
def Item.plain (it : Item) : Item := { it with labels := [] }

namespace Context

/-- What the item is, without its labels. -/
def plain? (ctx : Context) (id : Nat) : Option Item := (ctx.find? id).map fun x => x.1.plain

def bodyOf (ctx : Context) (id : Nat) : Option Body := (ctx.plain? id).map Item.body

structure Relabels (ctx ctx' : Context) : Prop where
  plain : ctx'.children.map Item.plain = ctx.children.map Item.plain
  kept : ∀ l ptr, ctx.labels.lookup l = some (some ptr) → ctx'.labels.lookup l = some (some ptr)
  pmap : ctx'.pmap = ctx.pmap
  nextId : ctx'.nextId = ctx.nextId
  consistent : ctx.Consistent → ctx'.Consistent

theorem Relabels.refl (ctx : Context) : ctx.Relabels ctx := ⟨rfl, fun _ _ h => h, rfl, rfl, id⟩

theorem Relabels.trans {ctx ctx₁ ctx₂ : Context} (h : ctx.Relabels ctx₁) (h' : ctx₁.Relabels ctx₂) :
    ctx.Relabels ctx₂ where
  plain := h'.plain.trans h.plain
  kept l ptr hl := h'.kept l ptr (h.kept l ptr hl)
  pmap := h'.pmap.trans h.pmap
  nextId := h'.nextId.trans h.nextId
  consistent hctx := h'.consistent (h.consistent hctx)

theorem isItem_plain (id : Nat) : isItem id ∘ Item.plain = isItem id := rfl

theorem plain?_eq (ctx : Context) (id : Nat) :
    ctx.plain? id = ((ctx.children.map Item.plain).find? (isItem id)).map Prod.fst := by
  rw [Forest.find?_map, isItem_plain, Option.map_map]
  rfl

theorem Relabels.plain? {ctx ctx' : Context} (h : ctx.Relabels ctx') (id : Nat) :
    ctx'.plain? id = ctx.plain? id := by
  rw [plain?_eq, plain?_eq, h.plain]

theorem Relabels.bodyOf {ctx ctx' : Context} (h : ctx.Relabels ctx') (id : Nat) :
    ctx'.bodyOf id = ctx.bodyOf id := by
  rw [Context.bodyOf, Context.bodyOf, h.plain?]

/-- New labels leave an item where it is. -/
theorem exists_of_plain {cs cs' : ItemList} (h : cs'.map Item.plain = cs.map Item.plain) {it : Item}
    (hit : it ∈ cs.nodes) : ∃ it' ∈ cs'.nodes, it'.plain = it.plain := by
  have hin : it.plain ∈ (cs'.map Item.plain).nodes := by
    rw [h, Forest.nodes_map]
    exact List.mem_map_of_mem hit
  rwa [Forest.nodes_map, List.mem_map] at hin

theorem getSize_map_plain (f : ItemList) :
    ItemList.getSize (f.map Item.plain) = ItemList.getSize f := by
  induction f with
  | nil => rfl
  | cons it children siblings ihc ihs =>
      exact congrArg₂ (fun m n => it.body.ownSize + m + n) ihc ihs

theorem Relabels.getSize {ctx ctx' : Context} (h : ctx.Relabels ctx') :
    ctx'.getSize = ctx.getSize := by
  have hplain := congrArg ItemList.getSize h.plain
  rwa [getSize_map_plain, getSize_map_plain] at hplain

theorem target0_eq_ok {ctx : Context} {l : LabelPtr} {x : Item × ItemList} :
    ctx.target0 l = .ok x ↔ ctx.target l = .ok (x.1, x.2, 0) := by
  constructor
  · intro h
    obtain ⟨⟨it, children, offset⟩, htarget, h⟩ := bind_eq_ok.mp h
    obtain ⟨_, hzero, h⟩ := bind_eq_ok.mp h
    cases h
    rw [htarget, require_eq_ok.mp hzero]
  · intro h
    rw [target0, h, ok_bind]
    exact bind_eq_ok.mpr ⟨(), require_eq_ok.mpr rfl, rfl⟩

/-- Items whose entries or children a label counts. -/
def isCounted : Body → Bool
  | .exports _ => true
  | .collectionLink _ => true
  | .expansions => true
  | _ => false

/-- A context answers as another one did, when labels keep their places and those
at counted items lead to such an item again. -/
theorem extends_of_targets {counts : Prop} {ctx ctx' : Context}
    (hpos : ∀ l pos, ctx.toFilePos l = .ok pos → ctx'.toFilePos l = .ok pos)
    (hcount : ∀ l it children, ctx.target l = .ok (it, children, 0) → isCounted it.body = true →
        ∃ it' children', ctx'.target l = .ok (it', children', 0) ∧ it'.body = it.body ∧
          (counts → children'.length = children.length)) :
    ctx.view.Extends counts ctx'.view := by
  have hcounted : ∀ l x, ctx.target0 l = .ok x → isCounted x.1.body = true →
      ∃ x', ctx'.target0 l = .ok x' ∧ x'.1.body = x.1.body ∧
        (counts → x'.2.length = x.2.length) := by
    intro l x hx hkind
    obtain ⟨it', children', htarget, hbody, hlength⟩ :=
      hcount l x.1 x.2 (target0_eq_ok.mp hx) hkind
    exact ⟨(it', children'), target0_eq_ok.mpr htarget, hbody, hlength⟩
  refine ⟨hpos, ?_, ?_, ?_⟩
  · intro l n h
    obtain ⟨x, hx, h⟩ := bind_eq_ok.mp h
    simp only [] at h
    split at h
    · rename_i entries hentries
      cases h
      obtain ⟨x', hx', hbody, -⟩ := hcounted l x hx (by rw [hentries]; rfl)
      change ctx'.exportCount l = _
      rw [exportCount, hx', ok_bind]
      simp only [hbody, hentries, pure_eq_ok]
    · cases h
  · intro l n h
    obtain ⟨x, hx, h⟩ := bind_eq_ok.mp h
    simp only [] at h
    split at h
    · rename_i entries hentries
      cases h
      obtain ⟨x', hx', hbody, -⟩ := hcounted l x hx (by rw [hentries]; rfl)
      change ctx'.linkCount l = _
      rw [linkCount, hx', ok_bind]
      simp only [hbody, hentries, pure_eq_ok]
    · cases h
  · intro hcounts l n h
    obtain ⟨x, hx, h⟩ := bind_eq_ok.mp h
    simp only [] at h
    split at h
    · rename_i hentries
      cases h
      obtain ⟨x', hx', hbody, hlength⟩ := hcounted l x hx (by rw [hentries]; rfl)
      change ctx'.expansionCount l = _
      rw [expansionCount, hx', ok_bind]
      simp only [hbody, hentries, hlength hcounts, pure_eq_ok]
    · cases h

theorem position_of_plain {it it' : Item} (h : it'.plain = it.plain) :
    it'.position = it.position :=
  (congrArg Item.position h :)

theorem body_of_plain {it it' : Item} (h : it'.plain = it.plain) : it'.body = it.body :=
  (congrArg Item.body h :)

theorem Relabels.find? {ctx ctx' : Context} (h : ctx.Relabels ctx') {id : Nat} {it : Item}
    {children : ItemList} (hfind : ctx.find? id = some (it, children)) :
    ∃ it' children', ctx'.find? id = some (it', children') ∧ it'.plain = it.plain ∧
      children'.map Item.plain = children.map Item.plain := by
  have hplain := congrArg (Forest.find? (isItem id)) h.plain
  rw [Forest.find?_map, Forest.find?_map, isItem_plain] at hplain
  change (ctx'.find? id).map _ = (ctx.find? id).map _ at hplain
  rw [hfind, Option.map_some, Option.map_eq_some_iff] at hplain
  obtain ⟨⟨it', children'⟩, hfind', heq⟩ := hplain
  exact ⟨it', children', hfind', congrArg Prod.fst heq, congrArg Prod.snd heq⟩

theorem Relabels.target {ctx ctx' : Context} (h : ctx.Relabels ctx') {l : LabelPtr} {it : Item}
    {children : ItemList} {offset : Nat} (htarget : ctx.target l = .ok (it, children, offset)) :
    ∃ it' children', ctx'.target l = .ok (it', children', offset) ∧ it'.plain = it.plain ∧
      children'.length = children.length := by
  obtain ⟨ptr, hl, hfind, hoffset⟩ := target_eq_ok htarget
  obtain ⟨it', children', hfind', hplain, hchildren⟩ := h.find? hfind
  refine ⟨it', children', ?_, hplain, ?_⟩
  · rw [target_of_find? (h.kept l ptr hl) hfind', hoffset]
  · rw [← Forest.length_map Item.plain children', hchildren, Forest.length_map]

/-- Every label answers what it answered. -/
theorem Relabels.extends {ctx ctx' : Context} (h : ctx.Relabels ctx') (counts : Prop) :
    ctx.view.Extends counts ctx'.view := by
  refine extends_of_targets (fun l pos hpos => ?_) fun l it children htarget _ => ?_
  · obtain ⟨⟨it, children, offset⟩, htarget, hpos⟩ := bind_eq_ok.mp hpos
    cases hpos
    obtain ⟨it', children', htarget', hplain, -⟩ := h.target htarget
    rw [toFilePos, htarget', ok_bind]
    exact congrArg (fun n => Except.ok (n + offset)) (position_of_plain hplain)
  · obtain ⟨it', children', htarget', hplain, hlength⟩ := h.target htarget
    exact ⟨it', children', htarget', body_of_plain hplain, fun _ => hlength⟩

theorem relabels_createLabelFallback {ctx : Context} (name : LabelPtr) {ptr : ItemPointer}
    {x : Item × ItemList} (hget : ctx.get ptr.item = .ok x) :
    ctx.Relabels (ctx.createLabelFallback name ptr).1 where
  plain := Forest.map_update (f := Item.plain)
    (g := Item.insertLabel (ctx.labels.insert (freshName ctx.labels name) (some ptr))
      (freshName ctx.labels name)) (fun _ => rfl) ctx.children
  kept l ptr' hl := by
    have hne : l ≠ freshName ctx.labels name := fun heq => by
      refine freshName_not_mem ctx.labels name ?_
      rw [← heq]
      exact AList.lookup_isSome.mp (Option.isSome_of_mem hl)
    exact (AList.lookup_insert_ne hne).trans hl
  pmap := rfl
  nextId := rfl
  consistent h := h.createLabelFallback name hget

theorem relabels_getLabelToPtr {ctx : Context} {ptr : ItemPointer} {y : Context × LabelPtr}
    (h : ctx.getLabelToPtr ptr = .ok y) : ctx.Relabels y.1 := by
  rcases getLabelToPtr_ok h with ⟨hsame, -⟩ | ⟨x, name, hget, rfl⟩
  · exact hsame ▸ .refl ctx
  · exact relabels_createLabelFallback name hget

theorem relabels_getLabelToNamed {ctx : Context} {pos : Nat} {name : LabelPtr}
    {y : Context × LabelPtr} (h : ctx.getLabelToNamed pos name = .ok y) : ctx.Relabels y.1 := by
  obtain ⟨ptr, -, ⟨hsame, -⟩ | ⟨x, hget, rfl⟩⟩ := getLabelToNamed_ok h
  · exact hsame ▸ .refl ctx
  · exact relabels_createLabelFallback name hget

end Context

/-- The computation only makes labels. -/
def Relabeling {α : Type} (ctx : Context) (x : Except Error (Context × α)) : Prop :=
  ∀ ctx' a, x = .ok (ctx', a) → ctx.Relabels ctx'

namespace Relabeling

variable {α β γ : Type} {ctx : Context}

theorem ok (a : α) : Relabeling ctx (.ok (ctx, a)) := fun _ _ heq => by
  cases heq
  exact .refl ctx

theorem error (e : Error) : Relabeling ctx (.error e : Except Error (Context × α)) :=
  fun _ _ heq => nomatch heq

theorem bind {x : Except Error (Context × α)} {f : Context × α → Except Error (Context × β)}
    (hx : Relabeling ctx x) (hf : ∀ ctx' a, Relabeling ctx' (f (ctx', a))) :
    Relabeling ctx (x >>= f) := fun ctx'' b h => by
  obtain ⟨⟨ctx', a⟩, hxa, hb⟩ := bind_eq_ok.mp h
  exact (hx ctx' a hxa).trans (hf ctx' a ctx'' b hb)

/-- Something is asked first that leaves the context as it is. -/
theorem after {x : Except Error γ} {f : γ → Except Error (Context × β)}
    (hf : ∀ c, Relabeling ctx (f c)) : Relabeling ctx (x >>= f) := fun ctx' b h => by
  obtain ⟨c, -, hb⟩ := bind_eq_ok.mp h
  exact hf c ctx' b hb

end Relabeling

namespace Context

/-- A label that was found or made is where it was asked for. -/
theorem Consistent.lookup_of_asked {ctx : Context} (h : ctx.Consistent) {ptr : ItemPointer}
    {y : Context × LabelPtr}
    (hasked : (y.1 = ctx ∧ ∃ it children, ctx.get ptr.item = .ok (it, children) ∧
        ctx.labelAt it ptr.offset = some y.2) ∨
      ∃ x name, ctx.get ptr.item = .ok x ∧ y = ctx.createLabelFallback name ptr) :
    y.1.labels.lookup y.2 = some (some ptr) := by
  rcases hasked with ⟨hsame, it, children, hget, hat⟩ | ⟨x, name, -, rfl⟩
  · obtain ⟨hmem, hid⟩ := find?_some (get_eq_ok hget)
    obtain ⟨offset, hl⟩ := (h.labelled it (Forest.mem_nodes.mpr ⟨_, hmem⟩)).attached y.2
      (List.mem_of_find?_eq_some hat)
    rw [labelAt] at hat
    have hoffset := List.find?_some hat
    have hoffset : ctx.labels.offset y.2 = ptr.offset := of_decide_eq_true hoffset
    rw [LabelsMap.offset, hl] at hoffset
    have hoffset : offset = ptr.offset := hoffset
    rw [hsame, hl, hid, hoffset]
  · exact AList.lookup_insert _

theorem Consistent.getLabelToPtr_lookup {ctx : Context} (h : ctx.Consistent) {ptr : ItemPointer}
    {y : Context × LabelPtr} (hlabel : ctx.getLabelToPtr ptr = .ok y) :
    y.1.labels.lookup y.2 = some (some ptr) :=
  h.lookup_of_asked (getLabelToPtr_ok hlabel)

theorem getPointer_ok {ctx : Context} {pos : Nat} {ptr : ItemPointer}
    (h : ctx.getPointer pos = .ok ptr) :
    ∃ it children, ctx.find? ptr.item = some (it, children) ∧ it.position + ptr.offset = pos := by
  rw [getPointer] at h
  split at h
  · cases h
  · rename_i key hkey
    split at h
    · cases h
    · obtain ⟨⟨it, children⟩, hget, h⟩ := bind_eq_ok.mp h
      obtain ⟨_, hposition, h⟩ := bind_eq_ok.mp h
      cases h
      have hle : key ≤ pos :=
        of_decide_eq_true (List.mem_filter.mp (List.max?_mem hkey)).2
      refine ⟨it, children, get_eq_ok hget, ?_⟩
      rw [← require_eq_ok.mp hposition]
      exact Nat.add_sub_cancel' hle

theorem Relabels.toFilePos {ctx ctx' : Context} (h : ctx.Relabels ctx') {pos : Nat}
    {ptr : ItemPointer} (hptr : ctx.getPointer pos = .ok ptr) {l : LabelPtr}
    (hl : ctx'.labels.lookup l = some (some ptr)) : ctx'.toFilePos l = .ok pos := by
  obtain ⟨it, children, hfind, hpos⟩ := getPointer_ok hptr
  obtain ⟨it', children', hfind', hplain, -⟩ := h.find? hfind
  rw [Context.toFilePos, target_of_find? hl hfind', ok_bind]
  exact congrArg Except.ok (position_of_plain hplain ▸ hpos)

/-- `GetLabelTo` gives a label to the position. -/
theorem Consistent.getLabelTo_toFilePos {ctx ctx' : Context} (h : ctx.Consistent) {pos : Nat}
    {l : LabelPtr} (hlabel : ctx.getLabelTo pos = .ok (ctx', l)) :
    ctx'.toFilePos l = .ok pos := by
  obtain ⟨ptr, hptr, hlabel⟩ := bind_eq_ok.mp hlabel
  exact (relabels_getLabelToPtr hlabel).toFilePos hptr (h.getLabelToPtr_lookup hlabel)

theorem Consistent.getLabelToNamed_toFilePos {ctx ctx' : Context} (h : ctx.Consistent) {pos : Nat}
    {name l : LabelPtr} (hlabel : ctx.getLabelToNamed pos name = .ok (ctx', l)) :
    ctx'.toFilePos l = .ok pos := by
  obtain ⟨ptr, hptr, hasked⟩ := getLabelToNamed_ok hlabel
  have hlookup := h.lookup_of_asked (hasked.imp_right fun ⟨x, hget, heq⟩ => ⟨x, name, hget, heq⟩)
  exact (relabels_getLabelToNamed hlabel).toFilePos hptr hlookup

theorem relabeling_getLabelTo (ctx : Context) (pos : Nat) : Relabeling ctx (ctx.getLabelTo pos) :=
  Relabeling.after fun _ _ _ h => relabels_getLabelToPtr h

theorem relabeling_getLabelToNamed (ctx : Context) (pos : Nat) (name : LabelPtr) :
    Relabeling ctx (ctx.getLabelToNamed pos name) := fun _ _ h => relabels_getLabelToNamed h

end Context

end Neptools
