import Neptools.Format.RawItem
import Neptools.Lib.Run

/-!
What the parsers do to a context, once its bytes are one raw item: they ask for
labels, and split, replace and nest items.
-/

namespace Neptools

open Lib

/-- `ItemWithChildren`, apart from the context itself. -/
def Body.hasChildren : Body → Bool
  | expansions => true
  | instruction _ => true
  | data _ => true
  | _ => false

inductive ParseOp
  | getLabelTo (pos : Nat)
  | getLabelToNamed (pos : Nat) (name : LabelPtr)
  | createLabelFallback (name : LabelPtr) (ptr : ItemPointer)
  /-- An item that is not put anywhere yet. -/
  | create (body : Body)
  | split (id pos : Nat) (body : Body)
  | splitRaw (id offset size : Nat)
  | replace (id : Nat) (body : Body)
  | moveNextToChild (id size : Nat)
  /-- The start of `ExpansionsItem::CreateAndInsert`, which asks nothing between
  the two steps. -/
  | expansions (id pos size : Nat)

namespace Context

/-- A context with one raw item, before its end of file is split off. -/
def root (src : Source) : Context :=
  let (it, ctx) := empty.create (.raw src)
  ctx.setupParseFrom it

def splitCreate (ctx : Context) (id pos : Nat) (body : Body) : Except Error Context :=
  let (nitem, ctx) := ctx.create body
  ctx.splitItem id pos nitem

/-- `MoveNextToChild` is a function of these items only. -/
def nest (ctx : Context) (id size : Nat) : Except Error Context := do
  let (it, _) ← ctx.get id
  require (it.body.hasChildren = true) Error.badCast
  ctx.moveNextToChild id size

def parseStep (ctx : Context) : ParseOp → Except Error Context
  | .getLabelTo pos => do
      let (ctx, _) ← ctx.getLabelTo pos
      pure ctx
  | .getLabelToNamed pos name => do
      let (ctx, _) ← ctx.getLabelToNamed pos name
      pure ctx
  | .createLabelFallback name ptr => do
      let _ ← ctx.get ptr.item
      pure (ctx.createLabelFallback name ptr).1
  | .create body => pure (ctx.create body).2
  | .split id pos body => ctx.splitCreate id pos body
  | .splitRaw id offset size => do
      let (ctx, _) ← ctx.splitRaw id offset size
      pure ctx
  | .replace id body =>
      let (nitem, ctx) := ctx.create body
      ctx.replace id nitem .nil
  | .moveNextToChild id size => ctx.nest id size
  | .expansions id pos size => do
      let ctx' ← ctx.splitCreate id pos .expansions
      ctx'.nest ctx.nextId size

/-! What each step can be. -/

theorem fallbackName_injective (name : LabelPtr) : Function.Injective (fallbackName name) := by
  have hsuffix : ∀ i : Nat, i ≠ 0 → fallbackName name i ≠ name := by
    intro i hi heq
    rw [fallbackName, if_neg hi, List.append_assoc] at heq
    have := congrArg List.length heq
    rw [List.length_append, List.length_append] at this
    simp at this
  intro i j h
  by_cases hi : i = 0
  · by_cases hj : j = 0
    · rw [hi, hj]
    · refine absurd h.symm ?_
      rw [hi]
      exact hsuffix j hj
  · by_cases hj : j = 0
    · refine absurd h ?_
      rw [hj]
      exact hsuffix i hi
    · rw [fallbackName, fallbackName, if_neg hi, if_neg hj, List.append_right_inj] at h
      have hread := congrArg leadingNat h
      have hparse : ∀ n, leadingNat (decimal n) = n := fun n => by
        have hnil : ∀ b ∈ ([] : Bytes).head?, isDigit b = false := fun _ hb => nomatch hb
        have := leadingNat_decimal n hnil
        rwa [List.append_nil] at this
      rwa [hparse, hparse] at hread

/-- One of more names than there are labels is free. -/
theorem freshName_not_mem (labels : LabelsMap) (name : LabelPtr) :
    freshName labels name ∉ labels := by
  rw [freshName]
  generalize hfind : List.find? _ _ = found
  cases found with
  | some l => simpa using List.find?_some hfind
  | none =>
      have hall := List.find?_eq_none.mp hfind
      have hsub : (List.range (labels.keys.length + 1)).map (fallbackName name) ⊆ labels.keys := by
        intro l hl
        have hmem : l ∈ labels := by simpa using hall l hl
        exact AList.mem_keys.mp hmem
      have hnodup := (List.nodup_range (n := labels.keys.length + 1)).map
        (fallbackName_injective name)
      have := (List.subperm_of_subset hnodup hsub).length_le
      rw [List.length_map, List.length_range] at this
      omega

end Context

end Neptools
