import Mathlib.Data.List.Sort
import Neptools.Lib.Forest
import Neptools.Lib.List

/-!
Things that stand one after the other. When their sizes change, but none gets empty that was
not, and none that was empty gets a size, they keep their order, and what follows another
one directly still does.
-/

namespace Lib

variable {α β : Type*}

/-- One after the other, from `n` on. -/
def Consecutive (start size : α → Nat) : Nat → List α → Prop
  | _, [] => True
  | n, a :: as => start a = n ∧ Consecutive start size (n + size a) as

namespace Consecutive

variable {start size : α → Nat} {n n' : Nat} {l l' : List α}

theorem le_start (h : Consecutive start size n l) {a : α} (ha : a ∈ l) : n ≤ start a := by
  induction l generalizing n with
  | nil => cases ha
  | cons b bs ih =>
      obtain ⟨hb, hbs⟩ := h
      rcases List.mem_cons.mp ha with rfl | ha
      · omega
      · have := ih hbs ha
        omega

theorem pairwise (h : Consecutive start size n l) :
    l.Pairwise fun a b => start a + size a ≤ start b := by
  induction l generalizing n with
  | nil => exact .nil
  | cons a as ih =>
      obtain ⟨rfl, has⟩ := h
      exact .cons (fun b hb => has.le_start hb) (ih has)

/-! Values of some of the things. -/

/-- The value, with the place. -/
def placed (start : α → Nat) (g : α → Option β) (a : α) : Option (Nat × β) :=
  (g a).map fun b => (start a, b)

theorem mem_filterMap_placed {g : α → Option β} {x : Nat × β} :
    x ∈ l.filterMap (placed start g) ↔ ∃ a ∈ l, start a = x.1 ∧ g a = some x.2 := by
  obtain ⟨pos, b⟩ := x
  simp only [placed, List.mem_filterMap, Option.map_eq_some_iff, Prod.mk.injEq]
  constructor
  · rintro ⟨a, ha, b', hb', rfl, rfl⟩
    exact ⟨a, ha, rfl, hb'⟩
  · rintro ⟨a, ha, rfl, hb⟩
    exact ⟨a, ha, b, hb, rfl, rfl⟩

theorem map_snd_filterMap_placed (start : α → Nat) (g : α → Option β) (l : List α) :
    (l.filterMap (placed start g)).map Prod.snd = l.filterMap g := by
  rw [List.map_filterMap]
  refine congrArg (fun g => l.filterMap g) (funext fun a => ?_)
  cases hg : g a <;> simp [placed, hg]

theorem pairwise_placed (h : Consecutive start size n l) {g : α → Option β}
    (hsized : ∀ a b, g a = some b → 0 < size a) :
    (l.filterMap (placed start g)).Pairwise fun x y => x.1 < y.1 := by
  refine h.pairwise.filterMap _ fun a a' hle x hx y hy => ?_
  obtain ⟨b, hb, rfl⟩ := Option.map_eq_some_iff.mp hx
  obtain ⟨b', -, rfl⟩ := Option.map_eq_some_iff.mp hy
  have := hsized a b hb
  change start a < start a'
  omega

/-- Values that stand at the same places are in the same order. -/
theorem filterMap_eq (h : Consecutive start size n l) (h' : Consecutive start size n' l')
    {g : α → Option β} (hsized : ∀ a b, g a = some b → 0 < size a)
    (hsame : ∀ pos b, (∃ a ∈ l, start a = pos ∧ g a = some b) ↔
      ∃ a ∈ l', start a = pos ∧ g a = some b) : l.filterMap g = l'.filterMap g := by
  have hirrefl : Std.Irrefl fun x y : Nat × β => x.1 < y.1 := ⟨fun x => Nat.lt_irrefl x.1⟩
  have hantisymm : Std.Antisymm fun x y : Nat × β => x.1 < y.1 :=
    ⟨fun x y hxy hyx => absurd hxy (Nat.lt_asymm hyx)⟩
  have heq : l.filterMap (placed start g) = l'.filterMap (placed start g) :=
    (h.pairwise_placed hsized).eq_of_mem_iff (h'.pairwise_placed hsized) fun x => by
      rw [mem_filterMap_placed, mem_filterMap_placed]
      exact hsame x.1 x.2
  rw [← map_snd_filterMap_placed start g l, ← map_snd_filterMap_placed start g l', heq]

/-! The same things with other sizes. -/

section

variable (h : Consecutive start size n l) (h' : Consecutive start size n' l')
  (hsized : l.Forall₂ (fun a a' => 0 < size a ↔ 0 < size a') l')

include h h'

/-- What is behind something with a size stays behind it. -/
theorem behind {a a' b b' : α} (ha : (a, a') ∈ l.zip l') (hb : (b, b') ∈ l.zip l')
    (hpos : 0 < size a) (hle : start a + size a ≤ start b) : start a' + size a' ≤ start b' := by
  induction l generalizing n n' l' with
  | nil => cases ha
  | cons c cs ih =>
      cases l' with
      | nil => cases ha
      | cons c' cs' =>
          obtain ⟨hc, hcs⟩ := h
          obtain ⟨hc', hcs'⟩ := h'
          rcases List.mem_cons.mp ha with heq | ha
          · cases heq
            rcases List.mem_cons.mp hb with heq | hb
            · cases heq
              omega
            · have := hcs'.le_start (List.of_mem_zip hb).2
              omega
          · rcases List.mem_cons.mp hb with heq | hb
            · have := hcs.le_start (List.of_mem_zip ha).1
              cases heq
              omega
            · exact ih hcs hcs' ha hb

include hsized

/-- What comes first is still first. -/
theorem first {b b' : α} (hb : (b, b') ∈ l.zip l') (hfirst : start b = n) : start b' = n' := by
  induction hsized generalizing n n' with
  | nil => cases hb
  | @cons c c' cs cs' hc₀ _ ih =>
      obtain ⟨hc, hcs⟩ := h
      obtain ⟨hc', hcs'⟩ := h'
      rcases List.mem_cons.mp hb with heq | hb
      · cases heq
        exact hc'
      · have hle := hcs.le_start (List.of_mem_zip hb).1
        have := ih hcs hcs' hb (by omega)
        omega

/-- What follows something with a size directly still does. -/
theorem adjacent {a a' b b' : α} (ha : (a, a') ∈ l.zip l') (hb : (b, b') ∈ l.zip l')
    (hpos : 0 < size a) (heq : start a + size a = start b) : start a' + size a' = start b' := by
  induction hsized generalizing n n' with
  | nil => cases ha
  | @cons c c' cs cs' _ hsized ih =>
      obtain ⟨hc, hcs⟩ := h
      obtain ⟨hc', hcs'⟩ := h'
      rcases List.mem_cons.mp ha with hfirst | ha
      · cases hfirst
        rcases List.mem_cons.mp hb with hfirst | hb
        · cases hfirst
          omega
        · rw [hc']
          exact (first hcs hcs' hsized hb (by omega)).symm
      · rcases List.mem_cons.mp hb with hfirst | hb
        · have := hcs.le_start (List.of_mem_zip ha).1
          cases hfirst
          omega
        · exact ih hcs hcs' ha hb

end

end Consecutive

namespace Forest

theorem consecutive {w pos : α → Nat} {p : Nat} {f : Forest α} (h : Laid w pos p f)
    (hflat : ∀ x ∈ f.subtrees, x.2 = nil) : Consecutive pos w p f.nodes := by
  induction f generalizing p with
  | nil => trivial
  | cons a cs ts _ ih =>
      simp only [subtrees, List.mem_cons, forall_eq_or_imp] at hflat
      obtain ⟨rfl, hflat⟩ := hflat
      exact ⟨h.1, ih h.2.2 (by simpa [subtrees] using hflat)⟩

theorem roots_eq_nodes {f : Forest α} (hflat : ∀ x ∈ f.subtrees, x.2 = nil) :
    f.roots = f.nodes := by
  induction f with
  | nil => rfl
  | cons a cs ts _ ih =>
      simp only [subtrees, List.mem_cons, forall_eq_or_imp] at hflat
      obtain ⟨rfl, hflat⟩ := hflat
      exact congrArg (a :: ·) (ih (by simpa [subtrees] using hflat))

end Forest

end Lib
