import Mathlib.Data.List.AList
import Mathlib.Data.List.Sort
import Neptools.Format.Item
import Neptools.Lib.Text

/-!
The context of a file: its items, the labels, and the map from positions in the
file that is being parsed to items. Labels are attached to an item at an offset,
and both sides know: the label has a pointer to the item, and the item has the
label among its labels.
-/

namespace Neptools

open Lib

structure ItemPointer where
  item : Nat
  offset : Nat
  deriving Repr, DecidableEq

/-- All labels. A label that is not set yet is a dummy. -/
abbrev LabelsMap := AList fun _ : LabelPtr => Option ItemPointer

abbrev PointerMap := AList fun _ : Nat => Nat

structure Context where
  children : ItemList
  labels : LabelsMap
  pmap : PointerMap
  /-- The number of the next item object. -/
  nextId : Nat

/-- The offset of a label in its item. -/
def LabelsMap.offset (labels : LabelsMap) (l : LabelPtr) : Nat :=
  match labels.lookup l with
  | some (some ptr) => ptr.offset
  | _ => 0

/-- `labels.insert`: a multiset by offset, behind what is at the same offset. -/
def Item.insertLabel (labels : LabelsMap) (l : LabelPtr) (it : Item) : Item :=
  { it with labels :=
      it.labels.orderedInsert (fun a b => labels.offset a < labels.offset b) l }

namespace PointerMap

def emplace (pmap : PointerMap) (pos id : Nat) : PointerMap :=
  if pos ∈ pmap then pmap else pmap.insert pos id

/-- `Item::Removed` of one item. -/
def removed (pmap : PointerMap) (it : Item) : PointerMap :=
  if pmap.lookup it.position = some it.id then pmap.erase it.position else pmap

/-- `Removed` of items and all their children. -/
def removedAll (pmap : PointerMap) (f : ItemList) : PointerMap := f.nodes.foldl removed pmap

/-- The last position in the map that is not after `pos`. -/
def floor? (pmap : PointerMap) (pos : Nat) : Option Nat := (pmap.keys.filter (· ≤ pos)).max?

end PointerMap

namespace Context

def empty : Context := { children := .nil, labels := ∅, pmap := ∅, nextId := 0 }

def getSize (ctx : Context) : Nat := ctx.children.getSize

def isItem (id : Nat) (it : Item) : Bool := it.id = id

def find? (ctx : Context) (id : Nat) : Option (Item × ItemList) := ctx.children.find? (isItem id)

/-- An item that is there, as everything a pointer leads to has to be. -/
def get (ctx : Context) (id : Nat) : Except Error (Item × ItemList) :=
  match ctx.find? id with
  | some x => pure x
  | none => throw .undefinedBehaviour

/-- A new object, which is not among the items yet. -/
def create (ctx : Context) (body : Body) : Item × Context :=
  ({ id := ctx.nextId, position := 0, labels := [], body },
    { ctx with nextId := ctx.nextId + 1 })

def setupParseFrom (ctx : Context) (it : Item) : Context :=
  { ctx with children := ctx.children ++ .single it .nil, pmap := ctx.pmap.insert 0 it.id }

def fixup (ctx : Context) : Context :=
  { ctx with pmap := ∅, children := ctx.children.fixup 0 }

/-! Labels. -/

/-- The item a label is at, with the offset of the label. -/
def target (ctx : Context) (l : LabelPtr) : Except Error (Item × ItemList × Nat) := do
  match ctx.labels.lookup l with
  | some (some ptr) =>
      let (it, children) ← ctx.get ptr.item
      pure (it, children, ptr.offset)
  | _ => throw .undefinedBehaviour

def toFilePos (ctx : Context) (l : LabelPtr) : Except Error Nat := do
  let (it, _, offset) ← ctx.target l
  pure (it.position + offset)

/-- A label that has to be at the start of its item. -/
def target0 (ctx : Context) (l : LabelPtr) : Except Error (Item × ItemList) := do
  let (it, children, offset) ← ctx.target l
  require (offset = 0) (Error.assertionFailed "offset == 0")
  pure (it, children)

def exportCount (ctx : Context) (l : LabelPtr) : Except Error Nat := do
  let (it, _) ← ctx.target0 l
  match it.body with
  | .exports entries => pure entries.length
  | _ => throw (.assertionFailed "asserted_cast")

def linkCount (ctx : Context) (l : LabelPtr) : Except Error Nat := do
  let (it, _) ← ctx.target0 l
  match it.body with
  | .collectionLink entries => pure entries.length
  | _ => throw .badCast

def expansionCount (ctx : Context) (l : LabelPtr) : Except Error Nat := do
  let (it, children) ← ctx.target0 l
  match it.body with
  | .expansions => pure children.length
  | _ => throw (.assertionFailed "asserted_cast")

def view (ctx : Context) : LabelView :=
  { toFilePos := ctx.toFilePos, exportCount := ctx.exportCount, linkCount := ctx.linkCount
    expansionCount := ctx.expansionCount }

def dump (ctx : Context) : Except Error (List Event) := ctx.children.dump ctx.view

def updateItem (ctx : Context) (id : Nat) (f : Item → Item) : Context :=
  { ctx with children := ctx.children.update (isItem id) fun it children => .single (f it) children }

/-- A new label at `ptr`. -/
def insertNew (ctx : Context) (name : LabelPtr) (ptr : ItemPointer) : Context :=
  let labels := ctx.labels.insert name (some ptr)
  { ctx with labels }.updateItem ptr.item (Item.insertLabel labels name)

/-- The names `CreateLabelFallback` tries. -/
def fallbackName (name : LabelPtr) (i : Nat) : LabelPtr :=
  if i = 0 then name else name ++ [0x5f] ++ decimal i

/-- The first of them that is not taken; one of the first `n + 1` is not, when
there are `n` labels. -/
def freshName (labels : LabelsMap) (name : LabelPtr) : LabelPtr :=
  (((List.range (labels.keys.length + 1)).map (fallbackName name)).find? (· ∉ labels)).getD name

def createLabelFallback (ctx : Context) (name : LabelPtr) (ptr : ItemPointer) :
    Context × LabelPtr :=
  let name := freshName ctx.labels name
  (ctx.insertNew name ptr, name)

def hexDigit (d : Nat) : UInt8 := UInt8.ofNat (if d < 10 then 0x30 + d else 0x57 + d)

/-- "loc_", and the position with eight hexadecimal digits or more. -/
def locName (pos : Nat) : LabelPtr :=
  let digits := (Nat.digits 16 pos).reverse.map hexDigit
  [0x6c, 0x6f, 0x63, 0x5f] ++ List.replicate (8 - digits.length) 0x30 ++ digits

/-- The first label of an item at the given offset. -/
def labelAt (ctx : Context) (it : Item) (offset : Nat) : Option LabelPtr :=
  it.labels.find? fun l => ctx.labels.offset l = offset

def getLabelToPtr (ctx : Context) (ptr : ItemPointer) : Except Error (Context × LabelPtr) := do
  let (it, _) ← ctx.get ptr.item
  match ctx.labelAt it ptr.offset with
  | some l => pure (ctx, l)
  | none => pure (ctx.createLabelFallback (locName (it.position + ptr.offset)) ptr)

def getPointer (ctx : Context) (pos : Nat) : Except Error ItemPointer := do
  match ctx.pmap.floor? pos with
  | none => throw (.assertionFailed "it != pmap.begin()")
  | some key =>
      match ctx.pmap.lookup key with
      | none => throw .undefinedBehaviour
      | some id =>
          let (it, _) ← ctx.get id
          require (key = it.position) (Error.assertionFailed "it->first == it->second->GetPosition()")
          pure { item := id, offset := pos - key }

def getLabelTo (ctx : Context) (pos : Nat) : Except Error (Context × LabelPtr) := do
  let ptr ← ctx.getPointer pos
  ctx.getLabelToPtr ptr

/-- `GetLabelTo` with a name for a label that is not there yet. -/
def getLabelToNamed (ctx : Context) (pos : Nat) (name : LabelPtr) :
    Except Error (Context × LabelPtr) := do
  let ptr ← ctx.getPointer pos
  let (it, _) ← ctx.get ptr.item
  match ctx.labelAt it ptr.offset with
  | some l => pure (ctx, l)
  | none => pure (ctx.createLabelFallback name ptr)

/-! Replacing items. -/

/-- `item` and `offset` of labels, as they are moved to another item. -/
def moveLabels (labels : LabelsMap) (id delta : Nat) (ls : List LabelPtr) : LabelsMap :=
  ls.foldl (fun m l => m.insert l (some { item := id, offset := labels.offset l - delta })) labels

/-- `Replace`, with the checks. The replaced object is gone afterwards, and so
are its children, which must not have labels. -/
def replace (ctx : Context) (id : Nat) (nitem : Item) (nchildren : ItemList) :
    Except Error Context := do
  let (it, children) ← ctx.get id
  require (∀ l ∈ it.labels, ctx.labels.offset l ≤ nitem.getSize nchildren)
    (Error.assertionFailed "would invalidate labels")
  require (nitem.labels = []) (Error.assertionFailed "new item has labels")
  let nitem := { nitem with labels := it.labels, position := it.position }
  let labels := moveLabels ctx.labels nitem.id 0 it.labels
  let pmap :=
    if ctx.pmap.lookup it.position = some id then ctx.pmap.insert it.position nitem.id
    else ctx.pmap
  require (∀ child ∈ children.nodes, child.labels = [])
    (Error.assertionFailed "labels.empty() && !GetParent()")
  pure { ctx with
    children := ctx.children.update (isItem id) fun _ _ => .single nitem nchildren
    labels, pmap := PointerMap.removedAll pmap (.single it children) }

/-- A piece of a sliced item, with the offset of its end. -/
structure Piece where
  item : Item
  children : ItemList
  pieceEnd : Nat

/-- What `Slice` has done so far. -/
structure Sliced where
  items : ItemList
  labels : LabelsMap
  pmap : PointerMap
  rest : List LabelPtr

/-- The loop of `Slice` over the pieces. `rest` are the labels not moved yet, and
`offset` is the end of the last piece. -/
def slicePieces (emptyMap : Bool) (basePos : Nat) : (offset : Nat) → List Piece →
    (labels : LabelsMap) → (pmap : PointerMap) → (rest : List LabelPtr) → Except Error Sliced
  | _, [], labels, pmap, rest => pure { items := .nil, labels, pmap, rest }
  | offset, el :: seq, labels, pmap, rest => do
      require (el.item.labels = []) (Error.assertionFailed "el.first->labels.empty()")
      let mine (l : LabelPtr) : Bool :=
        labels.offset l < el.pieceEnd ∨ labels.offset l = el.pieceEnd ∧ labels.offset l = offset
      let labels' := moveLabels labels el.item.id offset (rest.takeWhile mine)
      let item := { el.item with position := basePos + offset }
      let item := (rest.takeWhile mine).foldl (fun it l => it.insertLabel labels' l) item
      let pmap := if emptyMap then pmap else pmap.emplace item.position item.id
      let s ← slicePieces emptyMap basePos el.pieceEnd seq labels' pmap (rest.dropWhile mine)
      pure { s with items := .cons item el.children s.items }

def slice (ctx : Context) (id : Nat) (seq : List Piece) : Except Error Context := do
  require ((seq.map Piece.pieceEnd).Pairwise (· ≤ ·)) (Error.assertionFailed "std::is_sorted")
  let (it, children) ← ctx.get id
  let emptyMap := ctx.pmap.keys.isEmpty
  let s ← slicePieces emptyMap it.position 0 seq ctx.labels
    (ctx.pmap.removedAll (.single it children)) it.labels
  require (s.rest = []) (Error.assertionFailed "label == nullptr")
  pure { ctx with
    children := ctx.children.update (isItem id) fun _ _ => s.items
    labels := s.labels, pmap := s.pmap }

/-! What a label leads to. -/

theorem get_eq_ok {c : Context} {id : Nat} {x : Item × ItemList} (h : c.get id = .ok x) :
    c.find? id = some x := by
  rw [get] at h
  split at h
  · rename_i y hy
    cases h
    exact hy
  · cases h

theorem get_of_find? {c : Context} {id : Nat} {x : Item × ItemList}
    (h : c.find? id = some x) : c.get id = .ok x := by
  rw [get, h]
  rfl

/-- A label is at an item of the context. -/
theorem target_eq_ok {c : Context} {l : LabelPtr} {x : Item × ItemList × Nat}
    (h : c.target l = .ok x) : ∃ ptr, c.labels.lookup l = some (some ptr) ∧
      c.find? ptr.item = some (x.1, x.2.1) ∧ ptr.offset = x.2.2 := by
  rw [target] at h
  split at h
  · rename_i ptr hptr
    obtain ⟨⟨it, children⟩, hget, h⟩ := bind_eq_ok.mp h
    cases h
    exact ⟨ptr, hptr, get_eq_ok hget, rfl⟩
  · cases h

theorem find?_some {c : Context} {id : Nat} {it : Item} {children : ItemList}
    (h : c.find? id = some (it, children)) :
    (it, children) ∈ c.children.subtrees ∧ it.id = id := by
  obtain ⟨hmem, hid⟩ := Forest.find?_some h
  exact ⟨hmem, of_decide_eq_true hid⟩

theorem target_of_find? {ctx : Context} {l : LabelPtr} {ptr : ItemPointer} {it : Item}
    {children : ItemList} (hl : ctx.labels.lookup l = some (some ptr))
    (hfind : ctx.find? ptr.item = some (it, children)) :
    ctx.target l = .ok (it, children, ptr.offset) := by
  rw [target, hl]
  simp only [get, hfind, pure_eq_ok, ok_bind]

end Context

end Neptools
