import Mathlib.Data.List.Basic

/-!
Lists behind which a file or a tape goes on with blanks: what is left without
the trailing blanks, and lists from which blanks have been lost. A loss does not
show exactly when nothing but blanks comes behind it.
-/

namespace Lib

variable {α : Type*} [DecidableEq α] {z : α}

/-- The list without its trailing blanks. -/
def trim (z : α) : List α → List α
  | [] => []
  | a :: l => if trim z l = [] ∧ a = z then [] else a :: trim z l

theorem trim_eq_nil_iff {l : List α} : trim z l = [] ↔ ∀ a ∈ l, a = z := by
  induction l with
  | nil => exact iff_of_true rfl (List.forall_mem_nil _)
  | cons a l ih =>
      rw [trim, List.forall_mem_cons, ← ih]
      split
      · rename_i h
        exact iff_of_true rfl h.symm
      · rename_i h
        exact iff_of_false (List.cons_ne_nil _ _) fun h' => h h'.symm

theorem trim_append_of_blank (l : List α) {l' : List α} (h : ∀ a ∈ l', a = z) :
    trim z (l ++ l') = trim z l := by
  induction l with
  | nil => exact trim_eq_nil_iff.mpr h
  | cons a l ih => rw [List.cons_append, trim, ih, trim]

theorem trim_append_of_not_blank (l : List α) {l' : List α} (h : ¬ ∀ a ∈ l', a = z) :
    trim z (l ++ l') = l ++ trim z l' := by
  induction l with
  | nil => rfl
  | cons a l ih =>
      have hne : ¬ (trim z (l ++ l') = [] ∧ a = z) := by
        rintro ⟨hnil, -⟩
        exact h fun a ha => trim_eq_nil_iff.mp hnil a (List.mem_append_right _ ha)
      rw [List.cons_append, trim, if_neg hne, ih, List.cons_append]

/-- What is trimmed ends before `n` exactly when only blanks are from there on. -/
theorem length_trim_le_iff {l : List α} {n : Nat} :
    (trim z l).length ≤ n ↔ ∀ a ∈ l.drop n, a = z := by
  induction l generalizing n with
  | nil => exact iff_of_true (Nat.zero_le _) (by simp)
  | cons a l ih =>
      cases n with
      | zero => rw [Nat.le_zero, List.length_eq_zero_iff, List.drop_zero, trim_eq_nil_iff]
      | succ n =>
          rw [List.drop_succ_cons, ← ih, trim]
          split
          · rename_i h
            exact iff_of_true (Nat.zero_le _) (by simp [h.1])
          · exact Nat.succ_le_succ_iff

theorem length_trim_le (l : List α) : (trim z l).length ≤ l.length :=
  length_trim_le_iff.mpr (by simp)

theorem length_trim_take_le (l : List α) (n : Nat) :
    (trim z (l.take n)).length ≤ (trim z l).length := by
  refine length_trim_le_iff.mpr fun a ha => ?_
  rw [List.drop_take] at ha
  exact length_trim_le_iff.mp (Nat.le_refl _) a (List.mem_of_mem_take ha)

/-- A list can be cut where only blanks follow. -/
theorem trim_take_iff {l : List α} {n : Nat} :
    trim z (l.take n) = trim z l ↔ (trim z l).length ≤ n := by
  constructor
  · intro h
    rw [← h]
    exact Nat.le_trans (length_trim_le _) (List.length_take_le _ _)
  · intro h
    conv_rhs => rw [← List.take_append_drop n l]
    exact (trim_append_of_blank _ (length_trim_le_iff.mp h)).symm

theorem trim_append_replicate (l : List α) :
    trim z l ++ List.replicate (l.length - (trim z l).length) z = l := by
  induction l with
  | nil => rfl
  | cons a l ih =>
      rw [trim]
      split
      · rename_i h
        rw [h.1] at ih
        rw [h.2, List.nil_append, List.length_nil, Nat.sub_zero, List.length_cons,
          List.replicate_succ]
        exact congrArg (z :: ·) ih
      · rw [List.length_cons, List.length_cons, Nat.add_sub_add_right, List.cons_append, ih]

theorem eq_of_trim_eq {l l' : List α} (hlength : l.length = l'.length)
    (htrim : trim z l = trim z l') : l = l' := by
  rw [← trim_append_replicate (z := z) l, ← trim_append_replicate (z := z) l', htrim, hlength]

/-- In front of what makes up the length, a list is the same up to blanks. -/
theorem append_replicate_eq_iff {l l' : List α} {n : Nat} :
    l ++ List.replicate n z = l' ↔ l.length + n = l'.length ∧ trim z l = trim z l' := by
  have hblank : trim z (l ++ List.replicate n z) = trim z l :=
    trim_append_of_blank l fun a ha => (List.mem_replicate.mp ha).2
  constructor
  · rintro rfl
    exact ⟨by rw [List.length_append, List.length_replicate], hblank.symm⟩
  · rintro ⟨hlength, htrim⟩
    refine eq_of_trim_eq (z := z) ?_ (hblank.trans htrim)
    rw [List.length_append, List.length_replicate, hlength]

/-- `l'` is what is left of `l`. Wherever they stand, they are the same up to
blanks exactly when `p` holds; otherwise `l'` ends before `l` does. -/
structure Trails (z : α) (l l' : List α) (p : Prop) : Prop where
  same : p → ∀ pre, trim z (pre ++ l') = trim z (pre ++ l)
  less : ¬ p → ∀ pre, (trim z (pre ++ l')).length < (trim z (pre ++ l)).length

namespace Trails

variable {l l' : List α} {p : Prop}

theorem all (l : List α) (hp : p) : Trails z l l p :=
  ⟨fun _ _ => rfl, fun h => absurd hp h⟩

theorem append_left (h : Trails z l l' p) (l₀ : List α) : Trails z (l₀ ++ l) (l₀ ++ l') p := by
  refine ⟨fun hp pre => ?_, fun hp pre => ?_⟩
  · rw [← List.append_assoc, ← List.append_assoc]
    exact h.same hp _
  · rw [← List.append_assoc, ← List.append_assoc]
    exact h.less hp _

theorem length_le (h : Trails z l l' p) : (trim z l').length ≤ (trim z l).length := by
  by_cases hp : p
  · exact Nat.le_of_eq (congrArg List.length (h.same hp []))
  · exact Nat.le_of_lt (h.less hp [])

/-- Blanks of a block in front are lost, too. -/
theorem lose_blanks (h : Trails z l l' p) {m n : Nat} (hmn : m < n) :
    Trails z (List.replicate n z ++ l) (List.replicate m z ++ l') ((∀ a ∈ l, a = z) ∧ p) := by
  have hle := h.length_le
  have hblank' (hl : ∀ a ∈ l, a = z) : ∀ a ∈ l', a = z := by
    rw [trim_eq_nil_iff.mpr hl, List.length_nil, Nat.le_zero, List.length_eq_zero_iff] at hle
    exact trim_eq_nil_iff.mp hle
  have hreplicate (k : Nat) {l : List α} (hl : ∀ a ∈ l, a = z) :
      ∀ a ∈ List.replicate k z ++ l, a = z :=
    List.forall_mem_append.mpr ⟨fun a ha => (List.mem_replicate.mp ha).2, hl⟩
  refine ⟨?_, fun hnot pre => ?_⟩
  · rintro ⟨hl, -⟩ pre
    rw [trim_append_of_blank _ (hreplicate m (hblank' hl)),
      trim_append_of_blank _ (hreplicate n hl)]
  · have hl : ¬ ∀ a ∈ l, a = z := by
      intro hl
      refine hnot ⟨hl, by_contra fun hp => ?_⟩
      have hless := h.less hp []
      rw [List.nil_append, List.nil_append, trim_eq_nil_iff.mpr hl] at hless
      exact Nat.not_lt_zero _ hless
    rw [← List.append_assoc, ← List.append_assoc, trim_append_of_not_blank _ hl,
      List.length_append, List.length_append, List.length_replicate]
    by_cases hl' : ∀ a ∈ l', a = z
    · have htrim := length_trim_le (z := z) (pre ++ List.replicate m z)
      rw [List.length_append, List.length_replicate] at htrim
      rw [trim_append_of_blank _ hl']
      omega
    · rw [trim_append_of_not_blank _ hl', List.length_append, List.length_append,
        List.length_replicate]
      omega

/-- The same up to blanks, when what is left is cut at `n`. -/
theorem trim_take_iff (h : Trails z l l' p) {n : Nat} :
    trim z (l'.take n) = trim z l ↔ p ∧ ∀ a ∈ l.drop n, a = z := by
  by_cases hp : p
  · have hsame : trim z l' = trim z l := h.same hp []
    rw [← length_trim_le_iff, ← hsame, Lib.trim_take_iff]
    exact (and_iff_right hp).symm
  · refine iff_of_false (fun heq => ?_) fun h => hp h.1
    have hless : (trim z l').length < (trim z l).length := h.less hp []
    have hle := length_trim_take_le (z := z) l' n
    rw [heq] at hle
    omega

end Trails

end Lib
