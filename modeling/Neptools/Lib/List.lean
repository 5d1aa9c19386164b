import Mathlib.Algebra.Group.Int.Defs
import Mathlib.Algebra.GroupWithZero.Nat
import Mathlib.Data.List.Forall2
import Mathlib.Data.List.Perm.Basic

/-!
Lists changed in place: what a change does not touch, and lists related cell by
cell.
-/

namespace Lib

variable {α β : Type*}

/-- A change that `f` does not see. -/
theorem map_modify_of_eq {f : α → β} {h : α → α} (heq : ∀ a, f (h a) = f a) (l : List α)
    (i : Nat) : (l.modify i h).map f = l.map f := by
  induction l generalizing i with
  | nil => rw [List.modify_nil]
  | cons a l ih =>
      cases i with
      | zero => rw [List.modify_zero_cons, List.map_cons, heq, List.map_cons]
      | succ i => rw [List.modify_succ_cons, List.map_cons, ih, List.map_cons]

theorem modify_append_cons (xs : List α) (y : α) (ys : List α) (f : α → α) :
    (xs ++ y :: ys).modify xs.length f = xs ++ f y :: ys := by
  induction xs with
  | nil => rfl
  | cons x xs ih => simp [List.modify_succ_cons, ih]

/-- A change, with the place of what is changed, that `f` does not see. -/
theorem map_mapIdx_of_eq {f : α → β} {h : Nat → α → α} (heq : ∀ i a, f (h i a) = f a)
    (l : List α) : (l.mapIdx h).map f = l.map f := by
  refine List.ext_getElem? fun i => ?_
  rw [List.getElem?_map, List.getElem?_mapIdx, List.getElem?_map, Option.map_map]
  cases l[i]? with
  | none => rfl
  | some a => exact congrArg some (heq i a)

theorem getElem?_of_forall₂ {R : α → β → Prop} {l' : List α} {l : List β}
    (h : List.Forall₂ R l' l) {i : Nat} {b : β} (hb : l[i]? = some b) :
    ∃ a, l'[i]? = some a ∧ R a b := by
  induction h generalizing i with
  | nil => cases hb
  | cons hr _ ih =>
      cases i with
      | zero =>
          cases hb
          exact ⟨_, rfl, hr⟩
      | succ i => exact ih hb

theorem exists_mem_of_forall₂ {R : α → β → Prop} {l' : List α} {l : List β}
    (h : List.Forall₂ R l' l) {b : β} (hb : b ∈ l) : ∃ a ∈ l', R a b := by
  obtain ⟨i, hi⟩ := List.mem_iff_getElem?.mp hb
  obtain ⟨a, ha, hr⟩ := getElem?_of_forall₂ h hi
  exact ⟨a, List.mem_of_getElem? ha, hr⟩

/-- Lists with the same images are the same where `f` is injective. -/
theorem map_inj_on {f : α → β} {l l' : List α}
    (hf : ∀ a ∈ l, ∀ b ∈ l', f a = f b → a = b) (h : l.map f = l'.map f) : l = l' := by
  induction l generalizing l' with
  | nil => exact (List.map_eq_nil_iff.mp h.symm).symm
  | cons a l ih =>
      cases l' with
      | nil => cases h
      | cons b l' =>
          rw [List.map_cons, List.map_cons] at h
          injection h with hhead htail
          rw [hf a List.mem_cons_self b List.mem_cons_self hhead,
            ih (fun x hx y hy => hf x (List.mem_cons_of_mem _ hx) y (List.mem_cons_of_mem _ hy))
              htail]

theorem forall_getElem?_append {P : Nat → α → Prop} {l l' : List α} :
    (∀ i a, (l ++ l')[i]? = some a → P i a) ↔
      (∀ i a, l[i]? = some a → P i a) ∧ ∀ i a, l'[i]? = some a → P (l.length + i) a := by
  constructor
  · intro h
    refine ⟨fun i a ha => h i a ?_, fun i a ha => h (l.length + i) a ?_⟩
    · rw [List.getElem?_append_left (List.getElem?_eq_some_iff.mp ha).1, ha]
    · rw [List.getElem?_append_right (Nat.le_add_right _ _), Nat.add_sub_cancel_left, ha]
  · rintro ⟨hl, hl'⟩ i a ha
    by_cases hi : i < l.length
    · rw [List.getElem?_append_left hi] at ha
      exact hl i a ha
    · rw [List.getElem?_append_right (by omega)] at ha
      have h := hl' (i - l.length) a ha
      rwa [Nat.add_sub_cancel' (by omega)] at h

theorem sum_take_add_le {f : α → Nat} {l : List α} {i j : Nat} {a : α} (ha : l[i]? = some a)
    (hlt : i < j) : ((l.take i).map f).sum + f a ≤ ((l.take j).map f).sum := by
  induction l generalizing i j with
  | nil => cases ha
  | cons b l ih =>
      obtain ⟨j, rfl⟩ : ∃ k, j = k + 1 := ⟨j - 1, by omega⟩
      cases i with
      | zero =>
          obtain rfl := Option.some.inj ha
          simp
      | succ i =>
          have hle := @ih i j ha (by omega)
          simp only [List.take_succ_cons, List.map_cons, List.sum_cons]
          omega

theorem sum_take_add_le_sum {f : α → Nat} {l : List α} {i : Nat} {a : α} (ha : l[i]? = some a) :
    ((l.take i).map f).sum + f a ≤ (l.map f).sum := by
  simpa using sum_take_add_le (f := f) ha (List.getElem?_eq_some_iff.mp ha).1

/-- Every number below the sum falls into the part of an element. -/
theorem exists_of_lt_sum {f : α → Nat} {l : List α} {n : Nat} (h : n < (l.map f).sum) :
    ∃ i a, l[i]? = some a ∧ ((l.take i).map f).sum ≤ n ∧ n < ((l.take i).map f).sum + f a := by
  induction l generalizing n with
  | nil => cases h
  | cons b l ih =>
      rw [List.map_cons, List.sum_cons] at h
      by_cases hb : n < f b
      · exact ⟨0, b, rfl, by simp, by simpa using hb⟩
      · obtain ⟨i, a, ha, hle, hlt⟩ := ih (show n - f b < (l.map f).sum by omega)
        refine ⟨i + 1, a, ha, ?_, ?_⟩
        · simp only [List.take_succ_cons, List.map_cons, List.sum_cons]
          omega
        · simp only [List.take_succ_cons, List.map_cons, List.sum_cons]
          omega

/-- A loop that succeeds at every element. -/
theorem mapM_eq_some_map {f : α → Option β} {g : α → β} {l : List α}
    (h : ∀ a ∈ l, f a = some (g a)) : l.mapM f = some (l.map g) := by
  induction l with
  | nil => rfl
  | cons a l ih =>
      obtain ⟨ha, hl⟩ := List.forall_mem_cons.mp h
      simp [ha, ih hl]

end Lib
