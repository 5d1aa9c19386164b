import Mathlib.Algebra.Group.Int.Defs
import Mathlib.Algebra.GroupWithZero.Nat
import Mathlib.Data.List.Nodup
import Mathlib.Data.List.Range
import Mathlib.Logic.Function.Basic

/-!
A heap of blocks. An address is handed out once; it is live until it is
released, and releasing what is not live is refused. That nothing is released
twice and nothing live is forgotten is part of the type.
-/

namespace Lib

structure Heap (α : Type*) where
  block : Nat → Option (List α)
  released : List Nat
  next : Nat
  released_once : released.Nodup
  live_iff : ∀ a, (block a).isSome ↔ a < next ∧ a ∉ released
  released_lt : ∀ a ∈ released, a < next

namespace Heap

variable {α : Type*}

def empty : Heap α where
  block _ := none
  released := []
  next := 0
  released_once := List.nodup_nil
  live_iff a := iff_of_false (fun h => nomatch h) fun h => Nat.not_lt_zero a h.1
  released_lt _ h := nomatch h

/-- The address of the new block, and the heap with it. -/
def alloc (h : Heap α) (data : List α) : Nat × Heap α :=
  (h.next, {
    block := Function.update h.block h.next (some data)
    released := h.released
    next := h.next + 1
    released_once := h.released_once
    live_iff := by
      intro a
      by_cases ha : a = h.next
      · subst ha
        rw [Function.update_self]
        exact iff_of_true rfl ⟨Nat.lt_succ_self _, fun hr =>
          Nat.lt_irrefl _ (h.released_lt _ hr)⟩
      · rw [Function.update_of_ne ha, h.live_iff]
        have hlt : a < h.next ↔ a < h.next + 1 := by omega
        rw [hlt]
    released_lt := fun a ha => Nat.lt_succ_of_lt (h.released_lt a ha) })

def release (h : Heap α) (a : Nat) : Option (Heap α) :=
  if hlive : (h.block a).isSome then some {
    block := Function.update h.block a none
    released := a :: h.released
    next := h.next
    released_once := List.nodup_cons.mpr ⟨((h.live_iff a).mp hlive).2, h.released_once⟩
    live_iff := by
      intro b
      by_cases hb : b = a
      · subst hb
        rw [Function.update_self]
        exact iff_of_false (fun h => nomatch h) fun hnot => hnot.2 List.mem_cons_self
      · rw [Function.update_of_ne hb, h.live_iff, List.mem_cons, not_or]
        exact ⟨fun hl => ⟨hl.1, hb, hl.2⟩, fun hl => ⟨hl.1, hl.2.2⟩⟩
    released_lt := by
      intro b hb
      cases hb with
      | head => exact ((h.live_iff a).mp hlive).1
      | tail _ hb => exact h.released_lt b hb }
  else none

theorem block_next (h : Heap α) : h.block h.next = none := by
  have hdead : ¬ (h.block h.next).isSome = true := fun hs =>
    Nat.lt_irrefl _ ((h.live_iff _).mp hs).1
  simpa using hdead

@[simp] theorem block_alloc_self (h : Heap α) (data : List α) :
    (h.alloc data).2.block (h.alloc data).1 = some data := Function.update_self _ _ _

theorem block_alloc_of_ne {h : Heap α} {a : Nat} (ha : a ≠ h.next) (data : List α) :
    (h.alloc data).2.block a = h.block a := Function.update_of_ne ha _ _

/-- What is live stays where it is when a block is added. -/
theorem block_alloc_of_live {h : Heap α} {a : Nat} {data : List α} (ha : h.block a = some data)
    (new : List α) : (h.alloc new).2.block a = some data := by
  rw [block_alloc_of_ne ?_ new, ha]
  rintro rfl
  rw [h.block_next] at ha
  cases ha

theorem release_of_live {h : Heap α} {a : Nat} {data : List α} (ha : h.block a = some data) :
    ∃ h', h.release a = some h' ∧ h'.block a = none ∧ h'.released = a :: h.released ∧
      h'.next = h.next ∧ ∀ b, b ≠ a → h'.block b = h.block b := by
  rw [release, dif_pos (by rw [ha]; rfl)]
  exact ⟨_, rfl, Function.update_self _ _ _, rfl, rfl, fun b hb => Function.update_of_ne hb _ _⟩

/-- When nothing is live, every address handed out has been released, once. -/
theorem released_perm {h : Heap α} (hnone : ∀ a, h.block a = none) :
    h.released.Perm (List.range h.next) := by
  refine (List.perm_ext_iff_of_nodup h.released_once List.nodup_range).mpr fun a => ?_
  rw [List.mem_range]
  refine ⟨h.released_lt a, fun hlt => ?_⟩
  by_contra hnot
  have hlive := (h.live_iff a).mpr ⟨hlt, hnot⟩
  rw [hnone] at hlive
  cases hlive

end Heap

end Lib
