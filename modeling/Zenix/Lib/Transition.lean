import Mathlib.Tactic.Common

/-!
# Labelled transition systems

A component is a set of initial states and a labelled step relation. The file
has the rules the developments on top of it use:

1. `Reachable.invariant`: what holds initially and is kept by every step holds
   in every reachable state;
2. `guarded`: the runs all of whose steps meet a condition on the state before
   the step;
3. `Run`: runs from a given state with the list of their labels.
-/

universe u v

/-- A labelled transition system over states `σ` and labels `α`. -/
structure TransitionSystem (σ : Type u) (α : Type v) where
  init : σ → Prop
  step : σ → α → σ → Prop

namespace TransitionSystem

variable {σ : Type u} {α : Type v}

/-- The states of the runs of `S`. -/
inductive Reachable (S : TransitionSystem σ α) : σ → Prop
  | init {s : σ} : S.init s → Reachable S s
  | step {s t : σ} {a : α} : Reachable S s → S.step s a t → Reachable S t

/-- `S` with only the steps that meet `G` in the state they start from. -/
def guarded (S : TransitionSystem σ α) (G : σ → α → Prop) : TransitionSystem σ α where
  init := S.init
  step := fun s a t => S.step s a t ∧ G s a

/-- What holds initially and is kept by every step holds in every run. The step
may use that the state it starts from is reachable. -/
theorem Reachable.invariant {S : TransitionSystem σ α} {P : σ → Prop} {s : σ}
    (h : S.Reachable s) (hinit : ∀ s, S.init s → P s)
    (hstep : ∀ s a t, S.Reachable s → P s → S.step s a t → P t) : P s := by
  induction h with
  | init h => exact hinit _ h
  | step hr hs ih => exact hstep _ _ _ hr ih hs

/-- The run with the labels `l` leads from one state to the other. -/
inductive Run (S : TransitionSystem σ α) : σ → List α → σ → Prop
  | nil {s : σ} : Run S s [] s
  | cons {s t u : σ} {a : α} {l : List α} : S.step s a t → Run S t l u → Run S s (a :: l) u

theorem Run.trans {S : TransitionSystem σ α} {s t u : σ} {l l' : List α} (h : S.Run s l t)
    (h' : S.Run t l' u) : S.Run s (l ++ l') u := by
  induction h with
  | nil => exact h'
  | cons hst _ ih => exact .cons hst (ih h')

/-- A run from a reachable state ends in one. -/
theorem Reachable.run {S : TransitionSystem σ α} {s t : σ} {l : List α} (h : S.Reachable s)
    (hrun : S.Run s l t) : S.Reachable t := by
  induction hrun with
  | nil => exact h
  | cons hs _ ih => exact ih (h.step hs)

/-- What every step of a run keeps. -/
theorem Run.invariant {S : TransitionSystem σ α} {P : σ → Prop} {s t : σ} {l : List α}
    (hrun : S.Run s l t) (hs : P s) (hstep : ∀ s a t, P s → S.step s a t → P t) : P t := by
  induction hrun with
  | nil => exact hs
  | cons hst _ ih => exact ih (hstep _ _ _ hs hst)

end TransitionSystem
