/-
# `Runs` — deterministic machines driven by events

A machine is a function `step : σ → ε → σ`; a run is a list of events.  `Along P`
says that every step of a run meets a condition on the state before it and the
event.  What every such step keeps holds in every state the run reaches
(`Along.invariant`), and is then a condition of its own that the steps meet
(`Along.and_invariant`).
-/
import Mathlib.Data.List.Basic

namespace Runs

variable {σ ε : Type*} (step : σ → ε → σ)

/-- The state after a run. -/
def run (s : σ) (events : List ε) : σ := events.foldl step s

/-- Every step of the run meets the condition. -/
def Along (P : σ → ε → Prop) : σ → List ε → Prop
  | _, [] => True
  | s, e :: events => P s e ∧ Along P (step s e) events

instance decidableAlong (P : σ → ε → Prop) [∀ s e, Decidable (P s e)] :
    ∀ (s : σ) (events : List ε), Decidable (Along step P s events)
  | _, [] => isTrue trivial
  | s, e :: events =>
      have := decidableAlong P (step s e) events
      inferInstanceAs (Decidable (P s e ∧ Along step P (step s e) events))

variable {step} {P Q : σ → ε → Prop} {I : σ → Prop}

@[simp] theorem run_nil (s : σ) : run step s [] = s := rfl

@[simp] theorem run_cons (s : σ) (e : ε) (events : List ε) :
    run step s (e :: events) = run step (step s e) events := rfl

/-- The invariant rule. -/
theorem Along.invariant (hstep : ∀ s e, P s e → I s → I (step s e)) {events : List ε} :
    ∀ {s : σ}, Along step P s events → I s → I (run step s events) := by
  induction events with
  | nil => intro s _ hs; exact hs
  | cons e events ih =>
      intro s h hs
      exact ih h.2 (hstep s e h.1 hs)

/-- An invariant holds before every step. -/
theorem Along.and_invariant (hstep : ∀ s e, P s e → I s → I (step s e)) {events : List ε} :
    ∀ {s : σ}, Along step P s events → I s → Along step (fun s e => P s e ∧ I s) s events := by
  induction events with
  | nil => intro s _ _; exact trivial
  | cons e events ih =>
      intro s h hs
      exact ⟨⟨h.1, hs⟩, ih h.2 (hstep s e h.1 hs)⟩

theorem Along.imp (himp : ∀ s e, P s e → Q s e) {events : List ε} :
    ∀ {s : σ}, Along step P s events → Along step Q s events := by
  induction events with
  | nil => intro s _; exact trivial
  | cons e events ih =>
      intro s h
      exact ⟨himp s e h.1, ih h.2⟩

theorem along_true {events : List ε} : ∀ {s : σ}, Along step (fun _ _ => True) s events := by
  induction events with
  | nil => intro s; exact trivial
  | cons e events ih => intro s; exact ⟨trivial, ih⟩

end Runs
