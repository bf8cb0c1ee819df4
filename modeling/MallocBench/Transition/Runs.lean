import Mathlib.Data.List.Basic
import Mathlib.Tactic.Common

/-! # Guarded runs of a partial transition function

A system is a partial function `step` from states and events to states; a `Run` is a finite sequence
of its steps in which every step meets a guard. Five rules are derived once:

* `Run.invariant`: what every guarded step preserves holds at the end of every run;
* `Run.history`: the same for what holds of a state and the events that led to it;
* `Run.strengthen`: a guard may be replaced by one that follows from it and an invariant;
* `Run.exec_of_enabled`: a simulation by a deterministic system whose steps are enabled whenever the
  concrete guard holds turns a run into an execution of that system;
* `Run.tracks`: conversely, a run whose visible labels the deterministic system can execute ends in
  a state related to the end of that execution.

The deterministic system sees an event through `label`, which is `none` for an invisible one. -/

namespace MallocBench.Runs

variable {σ ε α ℓ : Type*}

/-- A finite run: the events it takes and the state it ends in. -/
inductive Run (step : σ → ε → Option σ) (guard : σ → ε → Prop) : σ → List ε → σ → Prop
  | nil (s : σ) : Run step guard s [] s
  | cons {s t u : σ} {e : ε} {es : List ε} (hg : guard s e) (hs : step s e = some t)
      (hr : Run step guard t es u) : Run step guard s (e :: es) u

variable {step : σ → ε → Option σ} {guard : σ → ε → Prop}

/-- One more step. -/
theorem Run.concat {s t u : σ} {es : List ε} (h : Run step guard s es t) {e : ε} (hg : guard t e)
    (hs : step t e = some u) : Run step guard s (es ++ [e]) u := by
  induction h with
  | nil s => exact Run.cons hg hs (Run.nil u)
  | cons hg' hs' _ ih => exact Run.cons hg' hs' (ih hg hs)

/-- **Invariant rule.** -/
theorem Run.invariant {I : σ → Prop}
    (hstep : ∀ s e t, I s → guard s e → step s e = some t → I t) {s t : σ} {es : List ε}
    (h : Run step guard s es t) (hs : I s) : I t := by
  induction h with
  | nil s => exact hs
  | cons hg he _ ih => exact ih (hstep _ _ _ hs hg he)

/-- **History rule.** An invariant of the state and the events so far. -/
theorem Run.history {I : List ε → σ → Prop} {s t : σ} {es : List ε} (h : Run step guard s es t)
    (hs : I [] s)
    (hstep : ∀ done e u v, done ++ [e] <+: es → I done u → guard u e → step u e = some v →
      I (done ++ [e]) v) : I es t := by
  suffices hall : ∀ {s t : σ} {es : List ε}, Run step guard s es t → ∀ done, I done s →
      (∀ pre e u v, pre ++ [e] <+: done ++ es → I pre u → guard u e → step u e = some v →
        I (pre ++ [e]) v) → I (done ++ es) t from hall h [] hs hstep
  intro s t es h
  induction h with
  | nil s =>
      intro done hs _
      rwa [List.append_nil]
  | @cons s t u e es hg he _ ih =>
      intro done hs hstep
      have happ : done ++ [e] ++ es = done ++ e :: es := by simp
      have hnext := ih (done ++ [e])
      rw [happ] at hnext
      exact hnext (hstep done e s t ⟨es, happ⟩ hs hg he) hstep

/-- **Strengthening rule.** What an invariant and the guard imply may be added to the guard. -/
theorem Run.strengthen {I : σ → Prop} {P : ε → Prop} {guard' : σ → ε → Prop}
    (hstep : ∀ s e t, I s → P e → guard s e → step s e = some t → guard' s e ∧ I t)
    {s t : σ} {es : List ε} (h : Run step guard s es t) (hP : ∀ e ∈ es, P e) (hs : I s) :
    Run step guard' s es t := by
  induction h with
  | nil s => exact Run.nil s
  | cons hg he _ ih =>
      obtain ⟨hP, hrest⟩ := List.forall_mem_cons.mp hP
      obtain ⟨hg', hI⟩ := hstep _ _ _ hs hP hg he
      exact Run.cons hg' he (ih hrest hI)

/-- Take the events one after the other, checking the guard before each. -/
def attempt (step : σ → ε → Option σ) (guard : σ → ε → Prop) [∀ s e, Decidable (guard s e)] :
    σ → List ε → Option σ
  | s, [] => some s
  | s, e :: es => if guard s e then (step s e).bind fun t => attempt step guard t es else none

/-- An attempt that succeeds is a run. -/
theorem run_of_attempt [∀ s e, Decidable (guard s e)] {s t : σ} {es : List ε}
    (h : attempt step guard s es = some t) : Run step guard s es t := by
  induction es generalizing s with
  | nil =>
      obtain rfl := Option.some.inj h
      exact Run.nil s
  | cons e es ih =>
      rw [attempt] at h
      split at h
      · next hg =>
        obtain ⟨u, hu, h⟩ := Option.bind_eq_some_iff.mp h
        exact Run.cons hg hu (ih h)
      · simp at h

/-- An attempt that succeeds with a state that passes a test is a run to such a state. -/
theorem exists_run_of_any (step : σ → ε → Option σ) (guard : σ → ε → Prop)
    [∀ s e, Decidable (guard s e)] (s : σ) (es : List ε) (p : σ → Bool)
    (h : (attempt step guard s es).any p = true) : ∃ t, Run step guard s es t ∧ p t = true := by
  obtain ⟨t, ht, hp⟩ := (Option.any_eq_true _ _).mp h
  exact ⟨t, run_of_attempt ht, hp⟩

/-- One step of a deterministic system on a label, where no label is no step. -/
def advance (move : α → ℓ → Option α) (a : α) : Option ℓ → Option α
  | none => some a
  | some l => move a l

/-- Without a label nothing moves. -/
@[simp] theorem advance_none (move : α → ℓ → Option α) (a : α) : advance move a none = some a := rfl

/-- A label is a move. -/
@[simp] theorem advance_some (move : α → ℓ → Option α) (a : α) (l : ℓ) :
    advance move a (some l) = move a l := rfl

/-- The execution of a deterministic system on a list of labels. -/
def exec (move : α → ℓ → Option α) : α → List ℓ → Option α
  | a, [] => some a
  | a, l :: ls => (move a l).bind fun b => exec move b ls

/-- Without labels nothing moves. -/
@[simp] theorem exec_nil (move : α → ℓ → Option α) (a : α) : exec move a [] = some a := rfl

/-- Labels are executed in two parts. -/
theorem exec_append (move : α → ℓ → Option α) (a : α) (ks ls : List ℓ) :
    exec move a (ks ++ ls) = (exec move a ks).bind fun b => exec move b ls := by
  induction ks generalizing a with
  | nil => rfl
  | cons k ks ih =>
      rw [List.cons_append, exec, exec, Option.bind_assoc]
      simp only [ih]

/-- What every move preserves holds at the end of an execution. -/
theorem exec_invariant {I : α → Prop} {move : α → ℓ → Option α}
    (hmove : ∀ a l b, I a → move a l = some b → I b) {a b : α} {ls : List ℓ}
    (h : exec move a ls = some b) (ha : I a) : I b := by
  induction ls generalizing a with
  | nil =>
      obtain rfl := Option.some.inj h
      exact ha
  | cons l ls ih =>
      obtain ⟨c, hc, h⟩ := Option.bind_eq_some_iff.mp h
      exact ih h (hmove a l c ha hc)

/-- Executing the visible labels of `e :: es` is advancing by `e` and executing those of `es`. -/
theorem exec_filterMap_cons (move : α → ℓ → Option α) (label : ε → Option ℓ) (a : α) (e : ε)
    (es : List ε) : exec move a ((e :: es).filterMap label)
      = (advance move a (label e)).bind fun b => exec move b (es.filterMap label) := by
  cases h : label e with
  | none => rw [List.filterMap_cons_none h, advance_none, Option.bind_some]
  | some l => rw [List.filterMap_cons_some h, exec, advance_some]

variable {move : α → ℓ → Option α} {label : ε → Option ℓ} {R : σ → α → Prop}

/-- **Simulation rule.** If the deterministic system can follow every guarded step and stays
related, it executes the visible labels of every run and ends related to the run's end. -/
theorem Run.exec_of_enabled
    (hsim : ∀ s a e t, R s a → guard s e → step s e = some t →
      ∃ b, advance move a (label e) = some b ∧ R t b)
    {s t : σ} {es : List ε} (h : Run step guard s es t) {a : α} (hR : R s a) :
    ∃ b, exec move a (es.filterMap label) = some b ∧ R t b := by
  induction h generalizing a with
  | nil s => exact ⟨a, rfl, hR⟩
  | cons hg hs _ ih =>
      obtain ⟨b, hb, hRb⟩ := hsim _ _ _ _ hR hg hs
      obtain ⟨c, hc, hRc⟩ := ih hRb
      exact ⟨c, by rw [exec_filterMap_cons, hb, Option.bind_some, hc], hRc⟩

/-- **Tracking rule.** If related states stay related whenever both systems step, a run whose visible
labels the deterministic system executes ends related to the end of that execution. -/
theorem Run.tracks
    (htrack : ∀ s a e t b, R s a → guard s e → step s e = some t →
      advance move a (label e) = some b → R t b)
    {s t : σ} {es : List ε} (h : Run step guard s es t) {a b : α} (hR : R s a)
    (hex : exec move a (es.filterMap label) = some b) : R t b := by
  induction h generalizing a with
  | nil s =>
      obtain rfl : a = b := by simpa using hex
      exact hR
  | cons hg hs _ ih =>
      rw [exec_filterMap_cons, Option.bind_eq_some_iff] at hex
      obtain ⟨c, hc, hex⟩ := hex
      exact ih (htrack _ _ _ _ _ hR hg hs hc) hex

end MallocBench.Runs
