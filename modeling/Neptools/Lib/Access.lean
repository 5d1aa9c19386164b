import Neptools.Lib.Except

/-!
Computations that make a sequence of accesses. An access may be bad, which
ends the computation with an error that nobody throws on purpose, or refused,
which ends it with one that is thrown. Whether a computation comes to a bad
access is read off the list of its accesses.
-/

namespace Lib

universe u v w
variable {ε : Type u} {α : Type w} {β γ : Type v}

section

variable (bad refused : α → Prop)

/-- A bad access comes before any that is refused. -/
def Reaches : List α → Prop
  | [] => False
  | a :: as => bad a ∨ ¬ refused a ∧ Reaches as

/-- A refused access comes before any that is bad. -/
def Refuses : List α → Prop
  | [] => False
  | a :: as => ¬ bad a ∧ (refused a ∨ Refuses as)

variable {bad refused}

theorem reaches_iff {as : List α} :
    Reaches bad refused as ↔
      ∃ before a after, as = before ++ a :: after ∧ bad a ∧ ∀ b ∈ before, ¬ refused b := by
  induction as with
  | nil =>
      refine iff_of_false id ?_
      rintro ⟨before, a, after, h, -⟩
      cases before <;> cases h
  | cons a as ih =>
      rw [Reaches, ih]
      constructor
      · rintro (ha | ⟨ha, before, b, after, rfl, hb, hall⟩)
        · exact ⟨[], a, as, rfl, ha, fun _ h => nomatch h⟩
        · exact ⟨a :: before, b, after, rfl, hb, List.forall_mem_cons.mpr ⟨ha, hall⟩⟩
      · rintro ⟨before, b, after, h, hb, hall⟩
        cases before with
        | nil =>
            cases h
            exact Or.inl hb
        | cons c before =>
            cases h
            obtain ⟨hc, hall⟩ := List.forall_mem_cons.mp hall
            exact Or.inr ⟨hc, before, b, after, rfl, hb, hall⟩

theorem reaches_append {as bs : List α} :
    Reaches bad refused (as ++ bs) ↔
      Reaches bad refused as ∨ (∀ a ∈ as, ¬ refused a) ∧ Reaches bad refused bs := by
  induction as with
  | nil => simp [Reaches]
  | cons a as ih =>
      simp only [List.cons_append, Reaches, ih, List.forall_mem_cons]
      constructor
      · rintro (ha | ⟨ha, h | ⟨hall, h⟩⟩)
        · exact Or.inl (Or.inl ha)
        · exact Or.inl (Or.inr ⟨ha, h⟩)
        · exact Or.inr ⟨⟨ha, hall⟩, h⟩
      · rintro ((ha | ⟨ha, h⟩) | ⟨⟨ha, hall⟩, h⟩)
        · exact Or.inl ha
        · exact Or.inr ⟨ha, Or.inl h⟩
        · exact Or.inr ⟨ha, Or.inr ⟨hall, h⟩⟩

/-- Where no access is refused, a bad one is reached. -/
theorem reaches_of_bad {as : List α} (h : ∃ a ∈ as, bad a) (hall : ∀ a ∈ as, ¬ refused a) :
    Reaches bad refused as := by
  obtain ⟨a, ha, hbad⟩ := h
  obtain ⟨before, after, rfl⟩ := List.append_of_mem ha
  exact reaches_iff.mpr ⟨before, a, after, rfl, hbad,
    fun b hb => hall b (List.mem_append_left _ hb)⟩

theorem refuses_iff {as : List α} :
    Refuses bad refused as ↔
      ∃ before b after, as = before ++ b :: after ∧ refused b ∧ ¬ bad b ∧
        ∀ a ∈ before, ¬ bad a := by
  induction as with
  | nil =>
      refine iff_of_false id ?_
      rintro ⟨before, b, after, h, -⟩
      cases before <;> cases h
  | cons a as ih =>
      rw [Refuses, ih]
      constructor
      · rintro ⟨hbad, ha | ⟨before, b, after, rfl, hb, hgood, hall⟩⟩
        · exact ⟨[], a, as, rfl, ha, hbad, List.forall_mem_nil _⟩
        · exact ⟨a :: before, b, after, rfl, hb, hgood, List.forall_mem_cons.mpr ⟨hbad, hall⟩⟩
      · rintro ⟨before, b, after, h, hb, hgood, hall⟩
        cases before with
        | nil =>
            cases h
            exact ⟨hgood, Or.inl hb⟩
        | cons c before =>
            cases h
            obtain ⟨hc, hall⟩ := List.forall_mem_cons.mp hall
            exact ⟨hc, Or.inr ⟨before, b, after, rfl, hb, hgood, hall⟩⟩

/-- Either a bad access is reached, or a refused one, or all are in order. -/
theorem refuses_iff_not {as : List α} :
    Refuses bad refused as ↔
      ¬ Reaches bad refused as ∧ ¬ ∀ a ∈ as, ¬ bad a ∧ ¬ refused a := by
  induction as with
  | nil => exact iff_of_false id fun h => h.2 fun _ h => nomatch h
  | cons a as ih =>
      rw [Refuses, Reaches, List.forall_mem_cons, ih]
      by_cases hbad : bad a
      · exact iff_of_false (fun h => h.1 hbad) fun h => h.1 (Or.inl hbad)
      · by_cases href : refused a
        · refine iff_of_true ⟨hbad, Or.inl href⟩ ⟨?_, fun h => h.1.2 href⟩
          exact fun h => h.elim hbad fun h => h.1 href
        · simp only [hbad, href, not_false_eq_true, true_and, and_self, false_or]

end

/-- The computation ends with an error that is not thrown. -/
def Overran (thrown : ε → Prop) (x : Except ε β) : Prop := ∃ e, x = .error e ∧ ¬ thrown e

/-- The computation makes the given accesses. -/
structure Accesses (thrown : ε → Prop) (bad refused : α → Prop) (as : List α)
    (x : Except ε β) : Prop where
  overran_iff : Overran thrown x ↔ Reaches bad refused as
  ok_iff : (∃ b, x = .ok b) ↔ ∀ a ∈ as, ¬ bad a ∧ ¬ refused a

variable {thrown : ε → Prop} {bad refused : α → Prop}

theorem not_overran_ok (b : β) : ¬ Overran thrown (.ok b : Except ε β) := fun ⟨_, h, _⟩ =>
  nomatch h

theorem overran_error {e : ε} : Overran thrown (.error e : Except ε β) ↔ ¬ thrown e :=
  ⟨fun ⟨_, h, hnot⟩ => by cases h; exact hnot, fun h => ⟨e, rfl, h⟩⟩

theorem overran_bind {x : Except ε β} {f : β → Except ε γ} :
    Overran thrown (x >>= f) ↔ Overran thrown x ∨ ∃ b, x = .ok b ∧ Overran thrown (f b) := by
  cases x with
  | error e =>
      rw [error_bind, overran_error, overran_error]
      simp
  | ok b =>
      rw [ok_bind]
      refine ⟨fun h => Or.inr ⟨b, rfl, h⟩, ?_⟩
      rintro (h | ⟨_, h, hover⟩)
      · exact absurd h (not_overran_ok b)
      · cases h
        exact hover

theorem not_overran_bind {x : Except ε β} {f : β → Except ε γ} (hx : ¬ Overran thrown x)
    (hf : ∀ b, x = .ok b → ¬ Overran thrown (f b)) : ¬ Overran thrown (x >>= f) := by
  rw [overran_bind]
  rintro (hover | ⟨b, hb, hover⟩)
  · exact hx hover
  · exact hf b hb hover

namespace Accesses

theorem refuses_iff {as : List α} {x : Except ε β} (h : Accesses thrown bad refused as x) :
    (∃ e, x = .error e ∧ thrown e) ↔ Refuses bad refused as := by
  rw [refuses_iff_not, ← h.overran_iff, ← h.ok_iff]
  cases x with
  | ok b =>
      refine iff_of_false ?_ fun hnot => hnot.2 ⟨b, rfl⟩
      simp
  | error e =>
      rw [overran_error, not_not]
      constructor
      · rintro ⟨e', he, hthrown⟩
        cases he
        exact ⟨hthrown, not_exists_error_eq_ok⟩
      · exact fun hthrown => ⟨e, rfl, hthrown.1⟩

theorem nil (b : β) : Accesses thrown bad refused [] (.ok b : Except ε β) :=
  ⟨iff_of_false (not_overran_ok b) id, iff_of_true ⟨b, rfl⟩ fun _ h => nomatch h⟩

theorem single_ok {a : α} {b : β} (hbad : ¬ bad a) (href : ¬ refused a) :
    Accesses thrown bad refused [a] (.ok b : Except ε β) := by
  refine ⟨iff_of_false (not_overran_ok b) ?_, iff_of_true ⟨b, rfl⟩ ?_⟩
  · simpa [Reaches] using hbad
  · simpa using ⟨hbad, href⟩

theorem single_bad {a : α} {e : ε} (h : bad a) (he : ¬ thrown e) :
    Accesses thrown bad refused [a] (.error e : Except ε β) := by
  refine ⟨iff_of_true ⟨e, rfl, he⟩ (Or.inl h), iff_of_false not_exists_error_eq_ok ?_⟩
  exact fun hall => (hall a List.mem_cons_self).1 h

theorem single_refused {a : α} {e : ε} (hbad : ¬ bad a) (h : refused a) (he : thrown e) :
    Accesses thrown bad refused [a] (.error e : Except ε β) := by
  refine ⟨iff_of_false (fun hover => overran_error.mp hover he) ?_,
    iff_of_false not_exists_error_eq_ok fun hall => (hall a List.mem_cons_self).2 h⟩
  rintro (ha | ⟨hnot, -⟩)
  · exact hbad ha
  · exact hnot h

theorem bind {as bs : List α} {x : Except ε β} {f : β → Except ε γ}
    (h : Accesses thrown bad refused as x)
    (hf : ∀ b, x = .ok b → Accesses thrown bad refused bs (f b)) :
    Accesses thrown bad refused (as ++ bs) (x >>= f) := by
  cases hx : x with
  | ok b =>
      have hclean := h.ok_iff.mp ⟨b, hx⟩
      have hf := hf b hx
      have hnot : ¬ Reaches bad refused as := by
        rw [← h.overran_iff, hx]
        exact not_overran_ok b
      rw [ok_bind]
      refine ⟨hf.overran_iff.trans ?_, hf.ok_iff.trans ?_⟩
      · rw [reaches_append]
        exact ⟨fun hr => Or.inr ⟨fun a ha => (hclean a ha).2, hr⟩,
          fun hr => (hr.resolve_left hnot).2⟩
      · rw [List.forall_mem_append]
        exact (and_iff_right hclean).symm
  | error e =>
      have hdirty : ¬ ∀ a ∈ as, ¬ bad a ∧ ¬ refused a := by
        rw [← h.ok_iff, hx]
        exact not_exists_error_eq_ok
      rw [error_bind]
      refine ⟨?_, iff_of_false not_exists_error_eq_ok fun hall => hdirty fun a ha =>
        hall a (List.mem_append_left _ ha)⟩
      have hover : Overran thrown (.error e : Except ε γ) ↔ Reaches bad refused as := by
        rw [← h.overran_iff, hx, overran_error, overran_error]
      rw [hover, reaches_append]
      refine (or_iff_left_of_imp ?_).symm
      rintro ⟨hall, -⟩
      -- nothing is refused, so something is bad, and it is reached
      refine reaches_of_bad (Classical.byContradiction fun hno => hdirty fun a ha => ?_) hall
      exact ⟨fun hbad => hno ⟨a, ha, hbad⟩, hall a ha⟩

end Accesses

end Lib
