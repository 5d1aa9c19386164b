import Mathlib.Data.List.Forall2
import Neptools.Lib.Except

/-!
Runs of a partial step function over a list of inputs. An input may be
refused by the step function; a run ends at the first refusal. The last
theorem is the rule by which a relation between states and an abstract
value is shown to hold after every call of a run, and exactly when. A step
may also give an output; the outputs of a run are its transcript.
-/

namespace Lib

variable {σ ι ο ε α : Type*}

def run (step : σ → ι → Except ε σ) : σ → List ι → Except ε σ
  | s, [] => .ok s
  | s, c :: cs => step s c >>= fun s' => run step s' cs

/-- Every input of the run meets `P` in the state in which it is given. -/
def EveryStep (step : σ → ι → Except ε σ) (P : σ → ι → Prop) : σ → List ι → Prop
  | _, [] => True
  | s, c :: cs => P s c ∧ ∀ s', step s c = .ok s' → EveryStep step P s' cs

instance (step : σ → ι → Except ε σ) (P : σ → ι → Prop) [∀ s c, Decidable (P s c)] :
    (s : σ) → (cs : List ι) → Decidable (EveryStep step P s cs)
  | _, [] => inferInstanceAs (Decidable True)
  | s, c :: cs =>
      let _ (s' : σ) : Decidable (EveryStep step P s' cs) := instDecidableEveryStep step P s' cs
      inferInstanceAs (Decidable (P s c ∧ ∀ s', step s c = .ok s' → EveryStep step P s' cs))

variable (step : σ → ι → Except ε σ)

theorem run_cons_ok {s s' : σ} {c : ι} (h : step s c = .ok s') (cs : List ι) :
    run step s (c :: cs) = run step s' cs := by
  simp [run, h, bind, Except.bind]

theorem exists_of_run_cons {s t : σ} {c : ι} {cs : List ι}
    (h : run step s (c :: cs) = .ok t) :
    ∃ s', step s c = .ok s' ∧ run step s' cs = .ok t := by
  cases hs : step s c with
  | error e => simp [run, hs, bind, Except.bind] at h
  | ok s' => exact ⟨s', rfl, by rwa [run_cons_ok step hs] at h⟩

/-- What one step preserves, a run preserves. -/
theorem run_preserves {I : σ → Prop}
    (hstep : ∀ s c s', I s → step s c = .ok s' → I s') {s t : σ} {cs : List ι}
    (hs : I s) (h : run step s cs = .ok t) : I t := by
  induction cs generalizing s with
  | nil => cases h; exact hs
  | cons c cs ih =>
      obtain ⟨s', h1, h2⟩ := exists_of_run_cons step h
      exact ih (hstep s c s' hs h1) h2

/-- What every step that meets `P` preserves, a run of such steps preserves. -/
theorem run_preserves_of_everyStep {P : σ → ι → Prop} {I : σ → Prop}
    (hstep : ∀ s c s', I s → P s c → step s c = .ok s' → I s') {s t : σ} {cs : List ι}
    (hs : I s) (hP : EveryStep step P s cs) (h : run step s cs = .ok t) : I t := by
  induction cs generalizing s with
  | nil => cases h; exact hs
  | cons c cs ih =>
      obtain ⟨s', h1, h2⟩ := exists_of_run_cons step h
      exact ih (hstep s c s' hs hP.1 h1) (hP.2 s' h1) h2

/-- What an invariant and `P` imply of a step holds of all steps of such a run. -/
theorem EveryStep.imp_of_invariant {step : σ → ι → Except ε σ} {P Q : σ → ι → Prop} {I : σ → Prop}
    (hstep : ∀ s c s', I s → P s c → step s c = .ok s' → I s')
    (hQ : ∀ s c, I s → P s c → Q s c) {s : σ} (hs : I s) {cs : List ι}
    (hP : EveryStep step P s cs) : EveryStep step Q s cs := by
  induction cs generalizing s with
  | nil => trivial
  | cons c cs ih =>
      exact ⟨hQ s c hs hP.1, fun s' h => ih (hstep s c s' hs hP.1 h) (hP.2 s' h)⟩

theorem EveryStep.and {step : σ → ι → Except ε σ} {P Q : σ → ι → Prop} {s : σ} {cs : List ι}
    (hP : EveryStep step P s cs) (hQ : EveryStep step Q s cs) :
    EveryStep step (fun s c => P s c ∧ Q s c) s cs := by
  induction cs generalizing s with
  | nil => trivial
  | cons c cs ih => exact ⟨⟨hP.1, hQ.1⟩, fun s' h => ih (hP.2 s' h) (hQ.2 s' h)⟩

/-- Let `app` be what an input does to the abstract value, `Allowed` when it
may be given, `Q` what is to hold of a state and its value, and `R` an
invariant that implies it. If an allowed input that meets `P` keeps `R`, and
one that leaves `Q` true meets `P`, then `Q` holds after every prefix of a run
exactly when every input of the run meets `P`. -/
theorem every_prefix_iff (R Q : σ → α → Prop) (app : α → ι → α)
    (Allowed : α → List ι → Prop) {P : σ → ι → Prop}
    (hRQ : ∀ s a, R s a → Q s a)
    (htail : ∀ a c cs, Allowed a (c :: cs) → Allowed (app a c) cs)
    (hkeep : ∀ s a c cs, R s a → Allowed a (c :: cs) → P s c →
      ∃ s', step s c = .ok s' ∧ R s' (app a c))
    (hneed : ∀ s a c cs s', R s a → Allowed a (c :: cs) → step s c = .ok s' →
      Q s' (app a c) → P s c)
    (s : σ) (a : α) (cs : List ι) (hR : R s a) (hA : Allowed a cs) :
    (∀ p, p <+: cs → ∃ s', run step s p = .ok s' ∧ Q s' (p.foldl app a)) ↔
      EveryStep step P s cs := by
  induction cs generalizing s a with
  | nil =>
      refine ⟨fun _ => trivial, fun _ p hp => ?_⟩
      rw [List.prefix_nil.mp hp]
      exact ⟨s, rfl, hRQ s a hR⟩
  | cons c cs ih =>
      constructor
      · intro h
        obtain ⟨t, ht, hQ⟩ := h [c] ⟨cs, rfl⟩
        obtain ⟨s', hs', hnil⟩ := exists_of_run_cons step ht
        cases hnil
        have hP := hneed s a c cs t hR hA hs' hQ
        obtain ⟨u, hu, hRu⟩ := hkeep s a c cs hR hA hP
        cases hs'.symm.trans hu
        refine ⟨hP, fun s'' hs'' => ?_⟩
        cases hs'.symm.trans hs''
        refine (ih t (app a c) hRu (htail a c cs hA)).mp fun p hp => ?_
        obtain ⟨v, hv, hQv⟩ := h (c :: p) ((List.prefix_cons_inj c).mpr hp)
        exact ⟨v, by rwa [run_cons_ok step hs'] at hv, hQv⟩
      · rintro ⟨hP, hrest⟩ p hp
        obtain ⟨t, ht, hRt⟩ := hkeep s a c cs hR hA hP
        cases p with
        | nil => exact ⟨s, rfl, hRQ s a hR⟩
        | cons d p =>
            obtain ⟨rfl, hp'⟩ := List.cons_prefix_cons.mp hp
            have := (ih t (app a d) hRt (htail a d cs hA)).mpr (hrest t ht) p hp'
            rwa [run_cons_ok step ht]

def transcript (step : σ → ι → Except ε (ο × σ)) : σ → List ι → Except ε (List ο × σ)
  | s, [] => .ok ([], s)
  | s, c :: cs =>
      step s c >>= fun (o, s') => transcript step s' cs >>= fun (os, t) => .ok (o :: os, t)

/-- If every input that meets `P` is answered, and answering keeps the invariant,
then the inputs of a run of such steps are answered. -/
theorem transcript_answers_of_everyStep {step : σ → ι → Except ε (ο × σ)} {I : σ → Prop}
    {P : σ → ι → Prop} {Answers : ι → ο → Prop}
    (hstep : ∀ s c, I s → P s c → ∃ o s', step s c = .ok (o, s') ∧ Answers c o ∧ I s')
    {s : σ} (hs : I s) {cs : List ι}
    (hcs : EveryStep (fun s c => (step s c).map Prod.snd) P s cs) :
    ∃ os t, transcript step s cs = .ok (os, t) ∧ List.Forall₂ Answers cs os ∧ I t := by
  induction cs generalizing s with
  | nil => exact ⟨[], s, rfl, .nil, hs⟩
  | cons c cs ih =>
      obtain ⟨o, s', h, hans, hs'⟩ := hstep s c hs hcs.1
      obtain ⟨os, t, hrest, hall, ht⟩ := ih hs' (hcs.2 s' (congrArg (Except.map Prod.snd) h))
      refine ⟨o :: os, t, ?_, .cons hans hall, ht⟩
      simp only [transcript, h, hrest, bind, Except.bind]

theorem everyStep_of_forall {step : σ → ι → Except ε σ} {Allowed : ι → Prop} (s : σ)
    {cs : List ι} (hcs : ∀ c ∈ cs, Allowed c) : EveryStep step (fun _ => Allowed) s cs := by
  induction cs generalizing s with
  | nil => trivial
  | cons c cs ih =>
      exact ⟨hcs c List.mem_cons_self, fun s' _ => ih s' fun d hd => hcs d (List.mem_cons_of_mem _ hd)⟩

/-- If every allowed input is answered, and answering keeps the invariant, then
every input of a run is answered. -/
theorem transcript_answers {step : σ → ι → Except ε (ο × σ)} {I : σ → Prop} {Allowed : ι → Prop}
    {Answers : ι → ο → Prop}
    (hstep : ∀ s c, I s → Allowed c → ∃ o s', step s c = .ok (o, s') ∧ Answers c o ∧ I s')
    {s : σ} (hs : I s) {cs : List ι} (hcs : ∀ c ∈ cs, Allowed c) :
    ∃ os t, transcript step s cs = .ok (os, t) ∧ List.Forall₂ Answers cs os ∧ I t :=
  transcript_answers_of_everyStep hstep hs (everyStep_of_forall s hcs)

end Lib
