import QyUtil.Loops.Outcome

/-! # Bounded loops

The body of a loop either leaves the loop with a result or goes on with a new
state. `loop` runs a body for a bounded number of turns. Its answers are
described by the states the body reaches: the run returns exactly when a reached
state leaves the loop, and goes on for ever exactly when every reached state has
a successor.
-/

namespace Loops

universe u v

variable {ε : Type u} {σ ρ : Type v}

/-- How one evaluation of a loop test and its body ends. -/
inductive Turn (σ ρ : Type v) where
  | again (s : σ)
  | exit (r : ρ)
  deriving DecidableEq, Repr

open Outcome Turn

/-- Run a loop body for at most the given number of turns. -/
def loop (body : σ → Outcome ε (Turn σ ρ)) : ℕ → σ → Outcome ε ρ
  | 0, _ => running
  | n + 1, s => body s >>= fun
    | .again s' => loop body n s'
    | .exit r => done r

variable {body : σ → Outcome ε (Turn σ ρ)}

@[simp] theorem loop_zero (s : σ) : loop body 0 s = running := rfl

theorem loop_succ_again {s s' : σ} (h : body s = done (again s')) (n : ℕ) :
    loop body (n + 1) s = loop body n s' := by simp [loop, h]

theorem loop_succ_exit {s : σ} {r : ρ} (h : body s = done (exit r)) (n : ℕ) :
    loop body (n + 1) s = done r := by simp [loop, h]

theorem loop_succ_fault {s : σ} {e : ε} (h : body s = fault e) (n : ℕ) :
    loop body (n + 1) s = fault e := by simp [loop, h]

theorem loop_progressive (body : σ → Outcome ε (Turn σ ρ)) (s : σ) :
    Progressive fun n => loop body n s := by
  intro m n h
  induction m generalizing n s with
  | zero => exact .inl rfl
  | succ m ih =>
    obtain ⟨n, rfl⟩ : ∃ k, n = k + 1 := ⟨n - 1, by omega⟩
    apply (Extends.refl (body s)).bind
    intro t
    cases t with
    | again s' => exact ih s' (by omega)
    | exit r => exact .refl _

def Next (body : σ → Outcome ε (Turn σ ρ)) (s s' : σ) : Prop := body s = done (again s')

abbrev Reach (body : σ → Outcome ε (Turn σ ρ)) : σ → σ → Prop :=
  Relation.ReflTransGen (Next body)

theorem Next.functional {s t t' : σ} (h : Next body s t) (h' : Next body s t') : t = t' := by
  have he : (done (again t) : Outcome ε (Turn σ ρ)) = done (again t') := h.symm.trans h'
  exact again.inj (done.inj he)

theorem Next.returns {s s' : σ} {r : ρ} (h : Next body s s')
    (hr : Returns (fun n => loop body n s') r) : Returns (fun n => loop body n s) r := by
  obtain ⟨n, hn⟩ := hr
  exact ⟨n + 1, by simpa only [loop_succ_again h] using hn⟩

theorem returns_of_exit_iff {s : σ} {r r' : ρ} (h : body s = done (exit r)) :
    Returns (fun n => loop body n s) r' ↔ r' = r := by
  constructor
  · rintro ⟨n, hn⟩
    cases n with
    | zero => cases hn
    | succ n =>
      exact (done.inj ((loop_succ_exit h n).symm.trans hn)).symm
  · rintro rfl
    exact ⟨1, loop_succ_exit h 0⟩

theorem returns_of_exit {s : σ} {r : ρ} (h : body s = done (exit r)) :
    Returns (fun n => loop body n s) r := ⟨1, loop_succ_exit h 0⟩

theorem Reach.invariant {I : σ → Prop} {s t : σ} (hs : I s)
    (hi : ∀ u u', I u → Next body u u' → I u') (h : Reach body s t) : I t := by
  induction h with
  | refl => exact hs
  | tail _ hn ih => exact hi _ _ ih hn

theorem forall_reach_iff {P : σ → Prop} {s : σ} : (∀ t, Reach body s t → P t) ↔
    P s ∧ ∀ s', Next body s s' → ∀ t, Reach body s' t → P t := by
  constructor
  · intro h
    exact ⟨h s .refl, fun s' hn t ht => h t (.head hn ht)⟩
  · rintro ⟨hs, hnext⟩ t ht
    rcases Relation.ReflTransGen.cases_head ht with rfl | ⟨s', hn, ht⟩
    · exact hs
    · exact hnext s' hn t ht

theorem loop_returns_iff {s : σ} {r : ρ} :
    Returns (fun n => loop body n s) r ↔ ∃ t, Reach body s t ∧ body t = done (exit r) := by
  constructor
  · rintro ⟨n, hn⟩
    induction n generalizing s with
    | zero => cases hn
    | succ n ih =>
      obtain ⟨t, ht, hr⟩ := bind_eq_done.mp hn
      cases t with
      | again s' =>
        obtain ⟨u, hu, he⟩ := ih hr
        exact ⟨u, .head ht hu, he⟩
      | exit r' =>
        obtain rfl := Outcome.done.inj hr
        exact ⟨s, .refl, ht⟩
  · rintro ⟨t, ht, he⟩
    induction ht using Relation.ReflTransGen.head_induction_on with
    | refl => exact returns_of_exit he
    | head hn _ ih => exact hn.returns ih

theorem loop_faults_iff {s : σ} {e : ε} :
    Faults (fun n => loop body n s) e ↔ ∃ t, Reach body s t ∧ body t = fault e := by
  constructor
  · rintro ⟨n, hn⟩
    induction n generalizing s with
    | zero => cases hn
    | succ n ih =>
      rcases bind_eq_fault.mp hn with h | ⟨t, ht, he⟩
      · exact ⟨s, .refl, h⟩
      · cases t with
        | again s' =>
          obtain ⟨u, hu, he⟩ := ih he
          exact ⟨u, .head ht hu, he⟩
        | exit r => cases he
  · rintro ⟨t, ht, he⟩
    induction ht using Relation.ReflTransGen.head_induction_on with
    | refl => exact ⟨1, loop_succ_fault he 0⟩
    | head hn _ ih =>
      obtain ⟨n, ih⟩ := ih
      exact ⟨n + 1, by simpa only [loop_succ_again hn] using ih⟩

theorem loop_diverges {s : σ} (h : ∀ t, Reach body s t → ∃ t', Next body t t') :
    Diverges fun n => loop body n s := by
  intro n
  induction n generalizing s with
  | zero => rfl
  | succ n ih =>
    obtain ⟨s', hs⟩ := h s .refl
    simp only [loop_succ_again hs]
    exact ih fun t ht => h t (.head hs ht)

/-- A measure that every turn decreases makes the run stop: it returns a value
that satisfies the postcondition. -/
theorem loop_returns_of_measure {I : σ → Prop} {Q : ρ → Prop} (μ : σ → ℕ)
    (hb : ∀ s, I s → (∃ s', Next body s s' ∧ I s' ∧ μ s' < μ s) ∨
      ∃ r, body s = done (exit r) ∧ Q r) {s : σ} (hs : I s) :
    ∃ r, Returns (fun n => loop body n s) r ∧ Q r := by
  induction h : μ s using Nat.strong_induction_on generalizing s with
  | _ m ih =>
    rcases hb s hs with ⟨s', hn, hi, hlt⟩ | ⟨r, hr, hq⟩
    · obtain ⟨r, hr, hq⟩ := ih _ (h ▸ hlt) hi rfl
      exact ⟨r, hn.returns hr, hq⟩
    · exact ⟨r, returns_of_exit hr, hq⟩

section Lockstep

universe u'

variable {ε' : Type u'} {σ' : Type v} {body' : σ' → Outcome ε' (Turn σ' ρ)} {I : σ → Prop}

/-- A loop that takes the same turns on the images of the states returns the same value. -/
theorem loop_returns_lockstep (f : σ → σ')
    (hagain : ∀ s t, I s → Next body s t → Next body' (f s) (f t) ∧ I t)
    (hexit : ∀ s r, I s → body s = done (exit r) → body' (f s) = done (exit r))
    {s : σ} (hs : I s) {r : ρ} (h : Returns (fun n => loop body n s) r) :
    Returns (fun n => loop body' n (f s)) r := by
  obtain ⟨t, hreach, hr⟩ := loop_returns_iff.mp h
  induction hreach using Relation.ReflTransGen.head_induction_on with
  | refl => exact returns_of_exit (hexit t r hs hr)
  | head hn hrest ih =>
    obtain ⟨hn', hi⟩ := hagain _ _ hs hn
    exact hn'.returns (ih hi (loop_returns_iff.mpr ⟨t, hrest, hr⟩))

end Lockstep

end Loops
