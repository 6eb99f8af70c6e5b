import QyUtil.Runs.Machine

/-! # Simulations

A relation between the states of two machines is a simulation when the starts are
related and every move of the first machine is answered by moves of the second.
Every reachable state of the first machine is then related to a reachable state
of the second.
-/

namespace Runs

universe u u' v v' w w'

variable {σ : Type u} {σ' : Type u'} {α : Type v} {α' : Type v'} {ε : Type w} {ε' : Type w'}

/-- Every move between reachable states is answered by some number of moves. -/
structure Simulation (M : Machine σ α ε) (N : Machine σ' α' ε') (R : σ → σ' → Prop) : Prop where
  start : R M.start N.start
  moves : ∀ s s' t, M.Reachable s → M.Moves s s' → R s t →
    ∃ t', Relation.ReflTransGen N.Moves t t' ∧ R s' t'

variable {M : Machine σ α ε} {N : Machine σ' α' ε'} {R : σ → σ' → Prop}

theorem Simulation.reachable (h : Simulation M N R) {s : σ} (hs : M.Reachable s) :
    ∃ t, N.Reachable t ∧ R s t := by
  induction hs with
  | refl => exact ⟨N.start, N.reachable_start, h.start⟩
  | tail hs hm ih =>
    obtain ⟨t, ht, hr⟩ := ih
    obtain ⟨t', hmoves, hr'⟩ := h.moves _ _ t hs hm hr
    exact ⟨t', ht.trans hmoves, hr'⟩

end Runs
