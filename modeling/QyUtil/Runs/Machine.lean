import Mathlib

/-! # Machines

A machine starts in one state and takes enabled actions, in any order. An
action may also fault, and a faulting action leads nowhere. What holds at the
start and is kept by every step holds of every reachable state.
-/

namespace Runs

universe u v w

/-- An action is not enabled (`none`), faults, or leads to a next state. -/
structure Machine (σ : Type u) (α : Type v) (ε : Type w) where
  start : σ
  step : σ → α → Option (Except ε σ)

variable {σ : Type u} {α : Type v} {ε : Type w} {M : Machine σ α ε}

/-- One enabled action leads from `s` to `s'`. -/
def Machine.Moves (M : Machine σ α ε) (s s' : σ) : Prop :=
  ∃ a, M.step s a = some (.ok s')

/-- The states of all runs. -/
def Machine.Reachable (M : Machine σ α ε) (s : σ) : Prop :=
  Relation.ReflTransGen M.Moves M.start s

theorem Machine.reachable_start : M.Reachable M.start := .refl

theorem Machine.Reachable.step {s s' : σ} {a : α} (h : M.Reachable s)
    (hs : M.step s a = some (.ok s')) : M.Reachable s' := h.tail ⟨a, hs⟩

/-- The rule for invariants. -/
theorem Machine.Reachable.invariant {P : σ → Prop} (hstart : P M.start)
    (hstep : ∀ s s', M.Moves s s' → P s → P s') {s : σ} (h : M.Reachable s) : P s := by
  induction h with
  | refl => exact hstart
  | tail _ hm ih => exact hstep _ _ hm ih

/-- The states of the runs in which every action is allowed where it is taken. -/
def Machine.ReachableBy (M : Machine σ α ε) (allowed : σ → α → Prop) (s : σ) : Prop :=
  Relation.ReflTransGen (fun s s' => ∃ a, allowed s a ∧ M.step s a = some (.ok s')) M.start s

/-- The rule for what only the allowed actions keep. -/
theorem Machine.ReachableBy.invariant {allowed : σ → α → Prop} {P : σ → Prop}
    (hstart : P M.start)
    (hstep : ∀ s s' a, allowed s a → M.step s a = some (.ok s') → P s → P s') {s : σ}
    (h : M.ReachableBy allowed s) : P s := by
  induction h with
  | refl => exact hstart
  | tail _ hm ih =>
    obtain ⟨a, ha, hs⟩ := hm
    exact hstep _ _ a ha hs ih

/-- The state after a list of actions, if all of them are enabled and none faults. -/
def Machine.replay (M : Machine σ α ε) : σ → List α → Option σ
  | s, [] => some s
  | s, a :: as => match M.step s a with
    | some (.ok s') => M.replay s' as
    | _ => none

theorem Machine.Reachable.replay {s t : σ} (as : List α) (h : M.Reachable s)
    (hr : M.replay s as = some t) : M.Reachable t := by
  induction as generalizing s with
  | nil =>
    cases hr
    exact h
  | cons a as ih =>
    simp only [Machine.replay] at hr
    split at hr
    · exact ih (h.step ‹_›) hr
    · cases hr

end Runs
