import Mathlib.Data.Fintype.Card
import Mathlib.Data.Set.Finite.Basic
import Mathlib.Data.Tree.Basic
import Mathlib.Logic.Relation

/-!
Binary trees kept as nodes that name their children. Following the names from
a node gives its tree, or never ends when they lead back.
-/

namespace Lib

variable {ι : Type*} {α : Type*} (look : ι → Option (α × ι × ι))

/-- `t` is what stands at a name. -/
inductive Unfolds : ι → BinaryTree α → Prop
  | nil {i : ι} (h : look i = none) : Unfolds i .nil
  | node {i l r : ι} {a : α} {tl tr : BinaryTree α} (h : look i = some (a, l, r))
      (hl : Unfolds l tl) (hr : Unfolds r tr) : Unfolds i (.node a tl tr)

/-- `j` is a child of `i`. -/
inductive Child : ι → ι → Prop
  | left {i l r : ι} {a : α} (h : look i = some (a, l, r)) : Child l i
  | right {i l r : ι} {a : α} (h : look i = some (a, l, r)) : Child r i

/-- The names from `i` on lead from some node back to itself. -/
def HasCycle (i : ι) : Prop :=
  ∃ j, Relation.ReflTransGen (Child look) j i ∧ Relation.TransGen (Child look) j j

/-- The tree, as far as the fuel goes. -/
def unfold : Nat → ι → Option (BinaryTree α)
  | 0, _ => none
  | fuel + 1, i =>
      match look i with
      | none => some .nil
      | some (a, l, r) => do
          let tl ← unfold fuel l
          let tr ← unfold fuel r
          pure (.node a tl tr)

variable {look}

theorem unfolds_of_unfold {fuel : Nat} {i : ι} {t : BinaryTree α}
    (h : unfold look fuel i = some t) : Unfolds look i t := by
  induction fuel generalizing i t with
  | zero => simp [unfold] at h
  | succ fuel ih =>
      rw [unfold] at h
      cases hlook : look i with
      | none =>
          obtain rfl : BinaryTree.nil = t := by simpa [hlook] using h
          exact .nil hlook
      | some node =>
          obtain ⟨a, l, r⟩ := node
          simp only [hlook, Option.bind_eq_bind, Option.bind_eq_some_iff] at h
          obtain ⟨tl, htl, tr, htr, h⟩ := h
          obtain rfl : BinaryTree.node a tl tr = t := by simpa using h
          exact .node hlook (ih htl) (ih htr)

theorem Unfolds.unfold_of_height {i : ι} {t : BinaryTree α} (h : Unfolds look i t) {fuel : Nat}
    (hfuel : t.height < fuel) : unfold look fuel i = some t := by
  induction h generalizing fuel with
  | nil h =>
      cases fuel with
      | zero => simp at hfuel
      | succ fuel => simp [unfold, h]
  | @node i l r a tl tr h _ _ ihl ihr =>
      cases fuel with
      | zero => simp at hfuel
      | succ fuel =>
          rw [BinaryTree.height] at hfuel
          have hl : tl.height < fuel := by omega
          have hr : tr.height < fuel := by omega
          simp [unfold, h, ihl hl, ihr hr]

/-- Following the names ends with a tree exactly when the tree stands there. -/
theorem exists_unfold_iff {i : ι} {t : BinaryTree α} :
    (∃ fuel, unfold look fuel i = some t) ↔ Unfolds look i t :=
  ⟨fun ⟨_, h⟩ => unfolds_of_unfold h, fun h => ⟨_, h.unfold_of_height (Nat.lt_succ_self _)⟩⟩

/-- With other names for the same nodes the tree stays. -/
theorem unfold_rename {κ : Type*} {look' : κ → Option (α × κ × κ)} {name : ι → κ} {P : ι → Prop}
    (hlook : ∀ i, P i → look' (name i) = (look i).map fun (a, l, r) => (a, name l, name r))
    (hP : ∀ i a l r, P i → look i = some (a, l, r) → P l ∧ P r) (fuel : Nat) {i : ι} (hi : P i) :
    unfold look' fuel (name i) = unfold look fuel i := by
  induction fuel generalizing i with
  | zero => rfl
  | succ fuel ih =>
      rw [unfold, unfold, hlook i hi]
      cases h : look i with
      | none => rfl
      | some node =>
          obtain ⟨hl, hr⟩ := hP i _ _ _ hi h
          simp only [Option.map_some, ih hl, ih hr]

/-! A tree stands where the names end, and they end where they do not lead back. -/

theorem Unfolds.acc {i : ι} {t : BinaryTree α} (h : Unfolds look i t) : Acc (Child look) i := by
  induction h with
  | nil h => exact ⟨_, fun j hj => by cases hj with | left h' | right h' => simp [h] at h'⟩
  | node h _ _ ihl ihr =>
      refine ⟨_, fun j hj => ?_⟩
      cases hj with
      | left h' =>
          obtain ⟨-, rfl, -⟩ := by simpa [h] using h'
          exact ihl
      | right h' =>
          obtain ⟨-, -, rfl⟩ := by simpa [h] using h'
          exact ihr

theorem exists_unfolds_of_acc {i : ι} (h : Acc (Child look) i) : ∃ t, Unfolds look i t := by
  induction h with
  | intro i _ ih =>
      cases hlook : look i with
      | none => exact ⟨.nil, .nil hlook⟩
      | some node =>
          obtain ⟨tl, hl⟩ := ih _ (.left hlook)
          obtain ⟨tr, hr⟩ := ih _ (.right hlook)
          exact ⟨.node node.1 tl tr, .node hlook hl hr⟩

theorem not_hasCycle_of_acc {i : ι} (h : Acc (Child look) i) : ¬ HasCycle look i := by
  rintro ⟨j, hreach, hcycle⟩
  have hacc : Acc (Relation.TransGen (Child look)) j := by
    rcases Relation.reflTransGen_iff_eq_or_transGen.mp hreach with rfl | hbelow
    · exact h.transGen
    · exact (h.inv_of_transGen hbelow).transGen
  induction hacc with
  | intro j _ ih => exact ih j hcycle hreach hcycle

/-- With finitely many nodes the names end, or else they lead back. -/
theorem acc_of_not_hasCycle (hfinite : {i | (look i).isSome}.Finite) {i : ι}
    (h : ¬ HasCycle look i) : Acc (Child look) i := by
  let Below := {j // Relation.ReflTransGen (Child look) j i ∧ (look j).isSome}
  let child : Below → Below → Prop := fun j k => Child look j.1 k.1
  have : Finite Below := (hfinite.subset fun j hj => hj.2).to_subtype
  have : Std.Irrefl (Relation.TransGen child) := ⟨fun j hj =>
    h ⟨j.1, j.2.1, hj.lift Subtype.val fun _ _ hchild => hchild⟩⟩
  have hwf : WellFounded (Relation.TransGen child) := Finite.wellFounded_of_trans_of_irrefl _
  have hbelow (j : Below) : Acc (Child look) j.1 := by
    induction j using hwf.induction with
    | _ j ih =>
        refine ⟨_, fun k hk => ?_⟩
        cases hlook : look k with
        | none => exact (Unfolds.nil hlook).acc
        | some node => exact ih ⟨k, .head hk j.2.1, by simp [hlook]⟩ (.single hk)
  cases hlook : look i with
  | none => exact (Unfolds.nil hlook).acc
  | some node => exact hbelow ⟨i, .refl, by simp [hlook]⟩

theorem exists_unfolds_iff (hfinite : {i | (look i).isSome}.Finite) {i : ι} :
    (∃ t, Unfolds look i t) ↔ ¬ HasCycle look i :=
  ⟨fun ⟨_, h⟩ => not_hasCycle_of_acc h.acc,
    fun h => exists_unfolds_of_acc (acc_of_not_hasCycle hfinite h)⟩

end Lib
