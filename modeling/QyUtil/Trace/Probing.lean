import QyUtil.Runs.Log

/-! # Stopping at the destination

A traceroute sends rounds of probes with growing numbers of hops and logs what
comes back. It stops at the destination when nothing is sent after a round of which
the last answer is the destination's. For a log written round by round this is a
property of the rounds.
-/

namespace Probing

open Runs

universe u

variable {ρ : Type u} {answered destination : ρ → Prop} {rounds : ℕ → List ρ} {ks : List ℕ}

/-- The last of the responses that is an answer. -/
def LastAnswer (answered : ρ → Prop) (l : List ρ) (r : ρ) : Prop :=
  ∃ before after, l = before ++ r :: after ∧ answered r ∧ ∀ x ∈ after, ¬ answered x

/-- After a round whose last answer is the destination's, no later round sends. -/
def Stops (answered destination : ρ → Prop) (log : List (ℕ × ρ)) : Prop :=
  ∀ k r, LastAnswer answered (own k log) r → destination r → ∀ e ∈ log, e.1 ≤ k

theorem LastAnswer.ne_nil {l : List ρ} {r : ρ} (h : LastAnswer answered l r) : l ≠ [] := by
  obtain ⟨before, after, rfl, -⟩ := h
  simp

theorem stops_roundLog (hn : ks.Nodup) :
    Stops answered destination (roundLog rounds ks) ↔
      ∀ k ∈ ks, ∀ r, LastAnswer answered (rounds k) r → destination r →
        ∀ k' ∈ ks, k < k' → rounds k' = [] := by
  constructor
  · intro h k hk r hlast hr k' hk' hlt
    apply List.eq_nil_iff_forall_not_mem.mpr
    intro x hx
    have hle := h k r (by rwa [own_roundLog hn hk]) hr (k', x) (mem_roundLog.mpr ⟨hk', hx⟩)
    exact absurd hlt (not_lt.mpr hle)
  · rintro h k r hlast hr ⟨k', x⟩ he
    obtain ⟨hk', hx⟩ := mem_roundLog.mp he
    by_contra hlt
    have hk : k ∈ ks := by
      by_contra hk
      exact hlast.ne_nil (own_roundLog_of_not_mem hk)
    rw [own_roundLog hn hk] at hlast
    rw [h k hk r hlast hr k' hk' (not_le.mp hlt)] at hx
    cases hx

end Probing
