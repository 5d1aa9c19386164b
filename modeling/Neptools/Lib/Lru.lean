import Mathlib.Algebra.Group.Int.Defs
import Mathlib.Algebra.GroupWithZero.Nat
import Mathlib.Data.List.Perm.Basic

/-!
Lists of a fixed length in the order of their last use. Looking an entry up
moves it to the front, a new entry pushes the last one out; apart from that no
entry appears, disappears or is duplicated.
-/

namespace Lib

structure Lru (α : Type*) (n : Nat) where
  entries : List α
  length_eq : entries.length = n

namespace Lru

variable {α : Type*} {n : Nat}

instance : Membership α (Lru α n) := ⟨fun l a => a ∈ l.entries⟩

def replicate (n : Nat) (a : α) : Lru α n := ⟨List.replicate n a, List.length_replicate⟩

theorem mem_replicate {a b : α} (h : b ∈ replicate n a) : b = a := List.eq_of_mem_replicate h

theorem entries_ne_nil (l : Lru α (n + 1)) : l.entries ≠ [] := by
  intro h
  have hlen := l.length_eq
  rw [h] at hlen
  cases hlen

def head (l : Lru α (n + 1)) : α := l.entries.head l.entries_ne_nil

def last (l : Lru α (n + 1)) : α := l.entries.getLast l.entries_ne_nil

theorem head_mem (l : Lru α (n + 1)) : l.head ∈ l := List.head_mem _

theorem last_mem (l : Lru α (n + 1)) : l.last ∈ l := List.getLast_mem _

/-- `a` in front, the last entry dropped. -/
def push (a : α) (l : Lru α (n + 1)) : Lru α (n + 1) where
  entries := a :: l.entries.dropLast
  length_eq := by rw [List.length_cons, List.length_dropLast, l.length_eq, Nat.add_sub_cancel]

/-- What was in the list and `a` are now in the list, but for the entry pushed out. -/
theorem perm_push (a : α) (l : Lru α (n + 1)) :
    (l.last :: (l.push a).entries).Perm (a :: l.entries) := by
  have hsplit : l.entries.dropLast ++ [l.last] = l.entries :=
    List.dropLast_append_getLast l.entries_ne_nil
  calc (l.last :: a :: l.entries.dropLast).Perm (a :: l.last :: l.entries.dropLast) :=
        List.Perm.swap _ _ _
    (a :: l.last :: l.entries.dropLast).Perm (a :: (l.entries.dropLast ++ [l.last])) :=
        (List.perm_append_singleton _ _).symm.cons a
    (a :: (l.entries.dropLast ++ [l.last])).Perm (a :: l.entries) := by rw [hsplit]

theorem mem_of_mem_push {a b : α} {l : Lru α (n + 1)} (h : b ∈ l.push a) : b = a ∨ b ∈ l := by
  have hperm := (perm_push a l).mem_iff.mp (List.mem_cons_of_mem _ h)
  exact List.mem_cons.mp hperm

/-- When the keys are different, those behind a push are those before it and
that of the new entry, but for that of the entry pushed out. -/
theorem keys_push {β : Type*} {f : α → Option β} {a : α} {l : Lru α (n + 1)}
    (h : ((a :: l.entries).filterMap f).Nodup) :
    ((l.push a).entries.filterMap f).Nodup ∧ ∀ b, b ∈ (l.push a).entries.filterMap f ↔
      b ∈ (a :: l.entries).filterMap f ∧ f l.last ≠ some b := by
  have hperm := (perm_push a l).filterMap f
  have hnodup := hperm.nodup_iff.mpr h
  cases hlast : f l.last with
  | none =>
      rw [List.filterMap_cons_none hlast] at hperm hnodup
      refine ⟨hnodup, fun b => hperm.mem_iff.trans ?_⟩
      exact ⟨fun hb => ⟨hb, fun hn => nomatch hn⟩, And.left⟩
  | some c =>
      rw [List.filterMap_cons_some hlast] at hperm hnodup
      obtain ⟨hc, hrest⟩ := List.nodup_cons.mp hnodup
      refine ⟨hrest, fun b => ?_⟩
      rw [← hperm.mem_iff, List.mem_cons]
      constructor
      · intro hb
        refine ⟨Or.inr hb, fun hbc => hc ?_⟩
        cases hbc
        exact hb
      · rintro ⟨rfl | hb, hbc⟩
        · exact absurd rfl hbc
        · exact hb

theorem perm_find_eraseP {p : α → Bool} {l : List α} {a : α} (h : l.find? p = some a) :
    (a :: l.eraseP p).Perm l := by
  induction l with
  | nil => cases h
  | cons b l ih =>
      by_cases hb : p b = true
      · rw [List.find?_cons_of_pos hb] at h
        cases h
        rw [List.eraseP_cons_of_pos hb]
      · rw [List.find?_cons_of_neg hb] at h
        rw [List.eraseP_cons_of_neg hb]
        exact (List.Perm.swap b a _).trans ((ih h).cons b)

/-- The first entry that meets `p`, moved to the front. -/
def get? (p : α → Bool) (l : Lru α n) : Option (α × Lru α n) :=
  match h : l.entries.find? p with
  | none => none
  | some a => some (a, ⟨a :: l.entries.eraseP p,
      (perm_find_eraseP h).length_eq.trans l.length_eq⟩)

theorem get?_eq_none {p : α → Bool} {l : Lru α n} :
    l.get? p = none ↔ ∀ a ∈ l, p a ≠ true := by
  rw [get?]
  split
  · rename_i h
    exact iff_of_true rfl (List.find?_eq_none.mp h)
  · rename_i a h
    refine iff_of_false (fun hn => nomatch hn) fun hall => ?_
    exact hall a (List.mem_of_find?_eq_some h) (List.find?_some h)

theorem get?_eq_some {p : α → Bool} {l l' : Lru α (n + 1)} {a : α}
    (h : l.get? p = some (a, l')) : p a = true ∧ l'.head = a ∧ l'.entries.Perm l.entries := by
  rw [get?] at h
  split at h
  · cases h
  · rename_i b hb
    cases h
    exact ⟨List.find?_some hb, rfl, perm_find_eraseP hb⟩

end Lru

end Lib
