import QyUtil.Runs.Machine

/-! # Fairness

A behavior of a machine is an infinite run, in which nothing may happen at some times. It is
weakly fair to a set of actions when it takes one of them whenever they stay enabled for ever,
and strongly fair when it takes one whenever they are enabled again and again. `P` leads to
`Q` when `Q` holds some time after every state with `P`. The rules bring this down to what a
single step does, and to a measure.
-/

namespace Runs

universe u v w

variable {σ : Type u} {α : Type v} {ε : Type w} {M : Machine σ α ε}

/-- The states of an infinite run, and the actions between them. -/
structure Behavior (M : Machine σ α ε) where
  state : ℕ → σ
  action : ℕ → Option α
  start : state 0 = M.start
  moves : ∀ n a, action n = some a → M.step (state n) a = some (.ok (state (n + 1)))
  rests : ∀ n, action n = none → state (n + 1) = state n

def Machine.Enabled (M : Machine σ α ε) (A : Set α) (s : σ) : Prop :=
  ∃ a ∈ A, ∃ s', M.step s a = some (.ok s')

/-- A step from `P` leads to `Q`, unless it keeps `P`. -/
def Machine.Unless (M : Machine σ α ε) (P Q : σ → Prop) : Prop :=
  ∀ s s', M.Reachable s → P s → M.Moves s s' → P s' ∨ Q s'

namespace Behavior

variable {b : Behavior M} {A : Set α} {P P' Q Q' R : σ → Prop} {n : ℕ}

def Takes (b : Behavior M) (A : Set α) (n : ℕ) : Prop := ∃ a ∈ A, b.action n = some a

def WeakFair (b : Behavior M) (A : Set α) : Prop :=
  ∀ n, (∀ m ≥ n, M.Enabled A (b.state m)) → ∃ m ≥ n, b.Takes A m

def StrongFair (b : Behavior M) (A : Set α) : Prop :=
  ∀ n, (∀ m ≥ n, ∃ k ≥ m, M.Enabled A (b.state k)) → ∃ m ≥ n, b.Takes A m

def LeadsTo (b : Behavior M) (P Q : σ → Prop) : Prop :=
  ∀ n, P (b.state n) → ∃ m ≥ n, Q (b.state m)

theorem reachable (b : Behavior M) (n : ℕ) : M.Reachable (b.state n) := by
  induction n with
  | zero =>
    rw [b.start]
    exact M.reachable_start
  | succ n ih =>
    cases ha : b.action n with
    | none => rwa [b.rests n ha]
    | some a => exact ih.step (b.moves n a ha)

theorem StrongFair.weakFair (h : b.StrongFair A) : b.WeakFair A :=
  fun n hn => h n fun m hm => ⟨m, le_rfl, hn m hm⟩

theorem LeadsTo.of_imp (h : ∀ s, M.Reachable s → P s → Q s) : b.LeadsTo P Q :=
  fun n hn => ⟨n, le_rfl, h _ (b.reachable n) hn⟩

theorem LeadsTo.trans (h : b.LeadsTo P Q) (h' : b.LeadsTo Q R) : b.LeadsTo P R := by
  intro n hn
  obtain ⟨m, hm, hq⟩ := h n hn
  obtain ⟨k, hk, hr⟩ := h' m hq
  exact ⟨k, hm.trans hk, hr⟩

theorem LeadsTo.mono (h : b.LeadsTo P Q) (hP : ∀ s, M.Reachable s → P' s → P s)
    (hQ : ∀ s, M.Reachable s → Q s → Q' s) : b.LeadsTo P' Q' :=
  ((LeadsTo.of_imp hP).trans h).trans (.of_imp hQ)

/-- What a measure comes down to, as long as it goes on. -/
theorem LeadsTo.of_measure {β : Type*} [Preorder β] [WellFoundedLT β] (f : σ → β)
    (h : ∀ k, b.LeadsTo (fun s => P s ∧ f s = k) fun s => Q s ∨ (P s ∧ f s < k)) :
    b.LeadsTo P Q := by
  intro n hn
  induction hk : f (b.state n) using WellFoundedLT.induction generalizing n with
  | ind k ih =>
    obtain ⟨m, hm, hq | ⟨hp, hlt⟩⟩ := h k n ⟨hn, hk⟩
    · exact ⟨m, hm, hq⟩
    · obtain ⟨m', hm', hq⟩ := ih _ hlt m hp rfl
      exact ⟨m', hm.trans hm', hq⟩

theorem stays (hu : M.Unless P Q) (hn : P (b.state n)) (hq : ∀ m ≥ n, ¬ Q (b.state m)) :
    ∀ m ≥ n, P (b.state m) := by
  intro m hm
  induction m, hm using Nat.le_induction with
  | base => exact hn
  | succ m hm ih =>
    cases ha : b.action m with
    | none => rwa [b.rests m ha]
    | some a =>
      rcases hu _ _ (b.reachable m) ih ⟨a, b.moves m a ha⟩ with hp | hq'
      · exact hp
      · exact absurd hq' (hq (m + 1) (hm.trans m.le_succ))

theorem Takes.leads (h : b.Takes A n) (hn : P (b.state n))
    (hstep : ∀ s s', ∀ a ∈ A, M.Reachable s → P s → M.step s a = some (.ok s') → Q s') :
    Q (b.state (n + 1)) := by
  obtain ⟨a, ha, hact⟩ := h
  exact hstep _ _ a ha (b.reachable n) hn (b.moves n a hact)

/-- The rule for weak fairness: `P` enables a fair action, which leads to `Q`. -/
theorem LeadsTo.of_weakFair (hf : b.WeakFair A) (hu : M.Unless P Q)
    (hen : ∀ s, M.Reachable s → P s → M.Enabled A s)
    (hstep : ∀ s s', ∀ a ∈ A, M.Reachable s → P s → M.step s a = some (.ok s') → Q s') :
    b.LeadsTo P Q := by
  intro n hn
  by_contra! hq
  have hp := stays hu hn hq
  obtain ⟨m, hm, ht⟩ := hf n fun m hm => hen _ (b.reachable m) (hp m hm)
  exact hq (m + 1) (hm.trans m.le_succ) (ht.leads (hp m hm) hstep)

/-- The rule for strong fairness: it is enough that the fair action is enabled some time. -/
theorem LeadsTo.of_strongFair (hf : b.StrongFair A) (hu : M.Unless P Q)
    (hen : b.LeadsTo P fun s => M.Enabled A s ∨ Q s)
    (hstep : ∀ s s', ∀ a ∈ A, M.Reachable s → P s → M.step s a = some (.ok s') → Q s') :
    b.LeadsTo P Q := by
  intro n hn
  by_contra! hq
  have hp := stays hu hn hq
  obtain ⟨m, hm, ht⟩ := hf n fun m hm => by
    obtain ⟨k, hk, h | h⟩ := hen m (hp m hm)
    · exact ⟨k, hk, h⟩
    · exact absurd h (hq k (hm.trans hk))
  exact hq (m + 1) (hm.trans m.le_succ) (ht.leads (hp m hm) hstep)

/-- Progress from `P`, while `P` stays unless `Q`. -/
theorem LeadsTo.and_unless (h : b.LeadsTo P R) (hu : M.Unless P Q) :
    b.LeadsTo P fun s => (P s ∧ R s) ∨ Q s := by
  intro n hn
  by_contra! hno
  have hp := stays hu hn fun m hm => (hno m hm).2
  obtain ⟨m, hm, hr⟩ := h n hn
  exact (hno m hm).1 (hp m hm) hr

/-- What a behavior looks like in a part of its machine: each action is an action of the part,
or is not seen. -/
def project {σ' : Type*} {α' : Type*} {ε' : Type*} {N : Machine σ' α' ε'} (b : Behavior M)
    (f : σ → σ') (g : σ → α → Option α') (hstart : f M.start = N.start)
    (hseen : ∀ s s' a a', M.step s a = some (.ok s') → g s a = some a' →
      N.step (f s) a' = some (.ok (f s')))
    (hunseen : ∀ s s' a, M.step s a = some (.ok s') → g s a = none → f s' = f s) :
    Behavior N where
  state n := f (b.state n)
  action n := (b.action n).bind (g (b.state n))
  start := by rw [b.start, hstart]
  moves n a' h := by
    obtain ⟨a, ha, hg⟩ := Option.bind_eq_some_iff.mp h
    exact hseen _ _ a a' (b.moves n a ha) hg
  rests n h := by
    cases ha : b.action n with
    | none => rw [b.rests n ha]
    | some a => exact hunseen _ _ a (b.moves n a ha) (by simpa [ha] using h)

end Behavior

theorem Machine.replay_append {s t : σ} {as as' : List α} (h : M.replay s as = some t) :
    M.replay s (as ++ as') = M.replay t as' := by
  induction as generalizing s with
  | nil =>
    cases h
    rfl
  | cons a as ih =>
    simp only [Machine.replay] at h
    split at h
    · rename_i s' hs
      simp only [List.cons_append, Machine.replay, hs]
      exact ih h
    · cases h

theorem Machine.replay_take {s t : σ} {as : List α} (h : M.replay s as = some t) (n : ℕ) :
    ∃ r, M.replay s (as.take n) = some r := by
  induction as generalizing s n with
  | nil => exact ⟨s, by rw [List.take_nil, Machine.replay]⟩
  | cons a as ih =>
    cases n with
    | zero => exact ⟨s, rfl⟩
    | succ n =>
      simp only [Machine.replay] at h
      split at h
      · rename_i s' hs
        obtain ⟨r, hr⟩ := ih h n
        exact ⟨r, by simp only [List.take_succ_cons, Machine.replay, hs, hr]⟩
      · cases h

/-- A list of actions that can be taken is a behavior in which nothing happens afterwards. -/
theorem Machine.exists_behavior {t : σ} {as : List α} (h : M.replay M.start as = some t) :
    ∃ b : Behavior M, (∀ n, M.replay M.start (as.take n) = some (b.state n)) ∧
      ∀ n, b.action n = as[n]? := by
  choose state hstate using Machine.replay_take h
  refine ⟨⟨state, fun n => as[n]?, ?_, fun n a ha => ?_, fun n ha => ?_⟩, hstate, fun _ => rfl⟩
  · exact (Option.some.inj (hstate 0)).symm
  · have hnext := hstate (n + 1)
    rw [List.take_add_one, ha, Option.toList_some, Machine.replay_append (hstate n)] at hnext
    simp only [Machine.replay] at hnext
    split at hnext
    · rename_i s' hs
      rw [hs, Option.some.inj hnext]
    · cases hnext
  · have hnext := hstate (n + 1)
    rw [List.take_add_one, ha, Option.toList_none, List.append_nil, hstate n] at hnext
    exact (Option.some.inj hnext).symm

theorem Behavior.strongFair_of_not_enabled {b : Behavior M} {A : Set α} {m : ℕ}
    (h : ∀ n ≥ m, ¬ M.Enabled A (b.state n)) : b.StrongFair A := by
  intro n hn
  obtain ⟨k, hk, hen⟩ := hn (max n m) (le_max_left _ _)
  exact absurd hen (h k ((le_max_right _ _).trans hk))

theorem Behavior.state_of_replay {b : Behavior M} {t : σ} {as : List α}
    (hb : ∀ n, M.replay M.start (as.take n) = some (b.state n))
    (h : M.replay M.start as = some t) {n : ℕ} (hn : as.length ≤ n) : b.state n = t := by
  have hend := hb n
  rw [List.take_of_length_le hn, h] at hend
  exact (Option.some.inj hend).symm

end Runs
