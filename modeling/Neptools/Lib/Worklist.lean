import Neptools.Lib.Except

/-!
Worklists: a task changes a state and leads to other tasks, which come before the ones
that are waiting, as the calls a function makes do before those of its caller. Each rule is
about one task, and gives what holds once no task is left.
-/

namespace Lib

variable {σ τ ε : Type*}

structure Worklist (σ τ : Type*) where
  state : σ
  todo : List τ

namespace Worklist

section

variable (perform : σ → τ → Except ε (σ × List τ))

def step (w : Worklist σ τ) : Except ε (Worklist σ τ) :=
  match w.todo with
  | [] => .ok w
  | t :: todo => perform w.state t >>= fun (state, tasks) => .ok { state, todo := tasks ++ todo }

def steps (w : Worklist σ τ) : Nat → Except ε (Worklist σ τ)
  | 0 => .ok w
  | n + 1 => w.step perform >>= fun w => w.steps n

end

variable {perform : σ → τ → Except ε (σ × List τ)}

theorem step_eq_ok {w w' : Worklist σ τ} (h : w.step perform = .ok w') :
    w' = w ∧ w.todo = [] ∨ ∃ t todo tasks, w.todo = t :: todo ∧
      perform w.state t = .ok (w'.state, tasks) ∧ w'.todo = tasks ++ todo := by
  rw [step] at h
  split at h
  · rename_i hnil
    cases h
    exact .inl ⟨rfl, hnil⟩
  · rename_i t todo hcons
    obtain ⟨⟨state, tasks⟩, hperform, h⟩ := bind_eq_ok.mp h
    cases h
    exact .inr ⟨t, todo, tasks, hcons, hperform, rfl⟩

theorem steps_of_nil {w : Worklist σ τ} (h : w.todo = []) (n : Nat) :
    w.steps perform n = .ok w := by
  induction n with
  | zero => rfl
  | succ n ih => simp [steps, step, h, ih]

/-- What is to hold of the tasks: `Ready` before a task is performed, `Settled` after it;
and `Owed` are the tasks that a state asks for. -/
structure Goals (σ τ : Type*) where
  Good : σ → Prop
  Ready : σ → τ → Prop
  Settled : σ → τ → Prop
  Owed : σ → τ → Prop
  /-- What is left for tasks to come. -/
  room : σ → Nat

namespace Goals

/-- A task was performed, and led to `tasks`. -/
structure Performed (g : Goals σ τ) (s : σ) (t : τ) (s' : σ) (tasks : List τ) : Prop where
  good : g.Good s'
  settled : g.Settled s' t
  ready : ∀ t' ∈ tasks, g.Ready s' t'
  keepsReady : ∀ t', g.Ready s t' → g.Ready s' t'
  keepsSettled : ∀ t', g.Settled s t' → g.Settled s' t'
  owed : ∀ t', g.Owed s' t' → g.Owed s t' ∨ t' ∈ tasks
  room : g.room s' + tasks.length ≤ g.room s

/-- The tasks can be performed, and nothing else is asked for. -/
structure OnTrack (g : Goals σ τ) (w : Worklist σ τ) : Prop where
  good : g.Good w.state
  ready : ∀ t ∈ w.todo, g.Ready w.state t
  owed : ∀ t, g.Owed w.state t → g.Settled w.state t ∨ t ∈ w.todo

/-- The same, with an invariant. -/
def keeping (g : Goals σ τ) (Kept : σ → Prop) : Goals σ τ :=
  { g with Good := fun s => g.Good s ∧ Kept s }

theorem Performed.keeping {g : Goals σ τ} {Kept : σ → Prop} {s s' : σ} {t : τ} {tasks : List τ}
    (h : g.Performed s t s' tasks) (hkept : Kept s') : (g.keeping Kept).Performed s t s' tasks :=
  { h with good := ⟨h.good, hkept⟩ }

theorem OnTrack.keeping {g : Goals σ τ} {Kept : σ → Prop} {w : Worklist σ τ} (h : g.OnTrack w)
    (hkept : Kept w.state) : (g.keeping Kept).OnTrack w :=
  { h with good := ⟨h.good, hkept⟩ }

/-- The same, with an invariant, and something that the tasks need too. -/
def requiring (g : Goals σ τ) (Kept : σ → Prop) (Needs : σ → τ → Prop) : Goals σ τ :=
  { g.keeping Kept with Ready := fun s t => g.Ready s t ∧ Needs s t }

theorem Performed.requiring {g : Goals σ τ} {Kept : σ → Prop} {Needs : σ → τ → Prop} {s s' : σ}
    {t : τ} {tasks : List τ} (h : g.Performed s t s' tasks) (hkept : Kept s')
    (hneeds : ∀ t' ∈ tasks, Needs s' t') (hkeeps : ∀ t', Needs s t' → Needs s' t') :
    (g.requiring Kept Needs).Performed s t s' tasks :=
  { h.keeping hkept with
    ready := fun t' ht' => ⟨h.ready t' ht', hneeds t' ht'⟩
    keepsReady := fun t' hready => ⟨h.keepsReady t' hready.1, hkeeps t' hready.2⟩ }

theorem OnTrack.requiring {g : Goals σ τ} {Kept : σ → Prop} {Needs : σ → τ → Prop}
    {w : Worklist σ τ} (h : g.OnTrack w) (hkept : Kept w.state)
    (hneeds : ∀ t ∈ w.todo, Needs w.state t) : (g.requiring Kept Needs).OnTrack w :=
  { h.keeping hkept with ready := fun t ht => ⟨h.ready t ht, hneeds t ht⟩ }

/-- The same, and more is to hold of a task after it. -/
def settling (g : Goals σ τ) (Done : σ → τ → Prop) : Goals σ τ :=
  { g with Settled := fun s t => g.Settled s t ∧ Done s t }

theorem Performed.settling {g : Goals σ τ} {Done : σ → τ → Prop} {s s' : σ} {t : τ}
    {tasks : List τ} (h : g.Performed s t s' tasks) (hdone : Done s' t)
    (hkeeps : ∀ t', Done s t' → Done s' t') : (g.settling Done).Performed s t s' tasks :=
  { h with
    settled := ⟨h.settled, hdone⟩
    keepsSettled := fun t' hsettled => ⟨h.keepsSettled t' hsettled.1, hkeeps t' hsettled.2⟩ }

theorem OnTrack.settling {g : Goals σ τ} {Done : σ → τ → Prop} {w : Worklist σ τ}
    (h : g.OnTrack w) (howed : ∀ t, g.Owed w.state t → t ∈ w.todo) :
    (g.settling Done).OnTrack w :=
  { h with owed := fun t ht => .inr (howed t ht) }

/-- Once no task is left, what the state asks for is settled. -/
theorem OnTrack.settled {g : Goals σ τ} {w : Worklist σ τ} (h : g.OnTrack w) (hnil : w.todo = []) :
    ∀ t, g.Owed w.state t → g.Settled w.state t :=
  fun t ht => (h.owed t ht).resolve_right (by simp [hnil])

variable {g : Goals σ τ}
  (hperform : ∀ s t s' tasks, g.Good s → g.Ready s t → perform s t = .ok (s', tasks) →
    g.Performed s t s' tasks)

include hperform

theorem OnTrack.step {w w' : Worklist σ τ} (h : g.OnTrack w) (hstep : w.step perform = .ok w') :
    g.OnTrack w' := by
  rcases step_eq_ok hstep with ⟨rfl, -⟩ | ⟨t, todo, tasks, htodo, hok, htodo'⟩
  · exact h
  · have hready := h.ready
    have howed := h.owed
    simp only [htodo, List.mem_cons, forall_eq_or_imp] at hready howed
    have hdone := hperform _ _ _ _ h.good hready.1 hok
    refine ⟨hdone.good, fun t' ht' => ?_, fun t' ht' => ?_⟩
    · rw [htodo', List.mem_append] at ht'
      exact ht'.elim (hdone.ready t') fun hold => hdone.keepsReady t' (hready.2 t' hold)
    · rw [htodo', List.mem_append]
      rcases hdone.owed t' ht' with hold | hnew
      · rcases howed t' hold with hsettled | rfl | hlater
        · exact .inl (hdone.keepsSettled t' hsettled)
        · exact .inl hdone.settled
        · exact .inr (.inr hlater)
      · exact .inr (.inl hnew)

theorem OnTrack.run {w w' : Worklist σ τ} (h : g.OnTrack w) {n : Nat}
    (hsteps : w.steps perform n = .ok w') : g.OnTrack w' := by
  induction n generalizing w with
  | zero =>
      cases hsteps
      exact h
  | succ n ih =>
      obtain ⟨w₁, hstep, hsteps⟩ := bind_eq_ok.mp hsteps
      exact ih (h.step hperform hstep) hsteps

/-- A task takes the room of those it leads to. -/
theorem OnTrack.room_lt {w w' : Worklist σ τ} (h : g.OnTrack w)
    (hstep : w.step perform = .ok w') (hne : w.todo ≠ []) :
    g.room w'.state + w'.todo.length < g.room w.state + w.todo.length := by
  rcases step_eq_ok hstep with ⟨-, hnil⟩ | ⟨t, todo, tasks, htodo, hok, htodo'⟩
  · exact absurd hnil hne
  · have hdone := hperform _ _ _ _ h.good (h.ready t (by simp [htodo])) hok
    have hroom := hdone.room
    simp only [htodo, htodo', List.length_append, List.length_cons]
    omega

/-- After enough steps nothing is left to do, and what the state asks for is settled. -/
theorem OnTrack.steps {w w' : Worklist σ τ} (h : g.OnTrack w) {n : Nat}
    (hn : g.room w.state + w.todo.length ≤ n) (hsteps : w.steps perform n = .ok w') :
    w'.todo = [] ∧ g.Good w'.state ∧ ∀ t, g.Owed w'.state t → g.Settled w'.state t := by
  have hdone {w : Worklist σ τ} (h : g.OnTrack w) (hnil : w.todo = []) :
      w.todo = [] ∧ g.Good w.state ∧ ∀ t, g.Owed w.state t → g.Settled w.state t :=
    ⟨hnil, h.good, h.settled hnil⟩
  induction n generalizing w with
  | zero =>
      cases hsteps
      exact hdone h (List.eq_nil_of_length_eq_zero (by omega))
  | succ n ih =>
      by_cases hnil : w.todo = []
      · rw [steps_of_nil hnil] at hsteps
        cases hsteps
        exact hdone h hnil
      · obtain ⟨w₁, hstep, hsteps⟩ := bind_eq_ok.mp hsteps
        have hlt := h.room_lt hperform hstep hnil
        exact ih (h.step hperform hstep) (by omega) hsteps

/-- A run fails the way one of its tasks does. -/
theorem OnTrack.steps_error {Fails : ε → Prop}
    (hfails : ∀ s t e, g.Good s → g.Ready s t → perform s t = .error e → Fails e)
    {w : Worklist σ τ} (h : g.OnTrack w) {n : Nat} {e : ε}
    (hsteps : w.steps perform n = .error e) : Fails e := by
  induction n generalizing w with
  | zero => cases hsteps
  | succ n ih =>
      rw [Worklist.steps] at hsteps
      cases hstep : w.step perform with
      | ok w₁ =>
          rw [hstep] at hsteps
          exact ih (h.step hperform hstep) hsteps
      | error e' =>
          rw [hstep] at hsteps
          cases hsteps
          rw [Worklist.step] at hstep
          split at hstep
          · cases hstep
          · rename_i t todo htodo
            cases hok : perform w.state t with
            | ok x => simp [hok] at hstep
            | error e =>
                rw [hok] at hstep
                cases hstep
                exact hfails _ _ _ h.good (h.ready t (by simp [htodo])) hok

end Goals

/-- A run that is over is over for good. -/
theorem steps_of_le {w : Worklist σ τ} {n m : Nat} (hle : n ≤ m)
    (hdone : ∀ w', w.steps perform n = .ok w' → w'.todo = []) :
    w.steps perform m = w.steps perform n := by
  induction n generalizing w m with
  | zero => exact steps_of_nil (hdone w rfl) m
  | succ n ih =>
      cases m with
      | zero => omega
      | succ m =>
          rw [steps] at hdone ⊢
          rw [steps]
          cases hstep : w.step perform with
          | error e => rfl
          | ok w₁ =>
              rw [hstep] at hdone
              exact ih (Nat.le_of_succ_le_succ hle) hdone

end Worklist

end Lib
