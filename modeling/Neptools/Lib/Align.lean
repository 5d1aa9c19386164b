import Mathlib.Algebra.Order.Floor.Div
import Mathlib.Tactic.Ring

/-!
Rounding up to a multiple.
-/

namespace Lib

/-- The first multiple of `a` from `n` on. -/
def roundUp (a n : Nat) : Nat := (n + a - 1) / a * a

variable {a m n : Nat}

theorem dvd_roundUp (a n : Nat) : a ∣ roundUp a n := ⟨_, Nat.mul_comm _ _⟩

theorem le_roundUp (ha : 0 < a) (n : Nat) : n ≤ roundUp a n := by
  have hle : n ≤ a * (n ⌈/⌉ a) := le_smul_ceilDiv ha
  rwa [Nat.mul_comm] at hle

theorem roundUp_le (ha : 0 < a) (hdvd : a ∣ m) (h : n ≤ m) : roundUp a n ≤ m := by
  obtain ⟨k, rfl⟩ := hdvd
  have hle : n ⌈/⌉ a ≤ k := (ceilDiv_le_iff_le_mul ha).mpr h
  rw [Nat.mul_comm a]
  exact Nat.mul_le_mul_right a hle

theorem roundUp_add (ha : 0 < a) (hdvd : a ∣ m) : roundUp a (m + n) = m + roundUp a n := by
  obtain ⟨k, rfl⟩ := hdvd
  have hsum : a * k + n + a - 1 = a * k + (n + a - 1) := by omega
  rw [roundUp, roundUp, hsum, Nat.mul_add_div ha, Nat.add_mul, Nat.mul_comm k]

theorem roundUp_of_dvd (ha : 0 < a) (h : a ∣ n) : roundUp a n = n :=
  Nat.le_antisymm (roundUp_le ha h le_rfl) (le_roundUp ha n)

/-- Under a multiple of `a` there is room for rounding up when there is room for
the biggest step that it can make. -/
theorem roundUp_lt_iff (ha : 0 < a) (hdvd : a ∣ m) : roundUp a n < m ↔ n + a - 1 < m := by
  constructor
  · intro h
    have hgap : roundUp a n + a ≤ m := by
      obtain ⟨k, rfl⟩ := hdvd
      obtain ⟨j, hj⟩ := dvd_roundUp a n
      rw [hj] at h ⊢
      have hlt : j < k := Nat.lt_of_mul_lt_mul_left h
      calc a * j + a = a * (j + 1) := by ring
        _ ≤ a * k := Nat.mul_le_mul_left a hlt
    have hle := le_roundUp ha n
    omega
  · exact (Nat.div_mul_le_self _ _).trans_lt

end Lib
