import Mathlib

/-! # Outcomes of bounded runs

A computation that is given a bound on its loop turns is still running, has
reached undefined behaviour, or has finished with a value. Outcomes form a
monad. A computation indexed by its bound is progressive when a larger bound
never changes an answer it has already given.
-/

namespace Loops

universe u v

variable {ε : Type u} {α β : Type v}

/-- What is known about a computation after a bounded number of loop turns. -/
inductive Outcome (ε : Type u) (α : Type v) where
  | running
  | fault (e : ε)
  | done (a : α)
  deriving DecidableEq, Repr

namespace Outcome

def bind : Outcome ε α → (α → Outcome ε β) → Outcome ε β
  | running, _ => running
  | fault e, _ => fault e
  | done a, f => f a

instance : Monad (Outcome ε) where
  pure := done
  bind := bind

@[simp] theorem pure_eq (a : α) : (pure a : Outcome ε α) = done a := rfl
@[simp] theorem running_bind (f : α → Outcome ε β) : (running >>= f) = running := rfl
@[simp] theorem fault_bind (e : ε) (f : α → Outcome ε β) : (fault e >>= f) = fault e := rfl
@[simp] theorem done_bind (a : α) (f : α → Outcome ε β) : (done a >>= f) = f a := rfl

theorem bind_eq_done {x : Outcome ε α} {f : α → Outcome ε β} {b : β} :
    x >>= f = done b ↔ ∃ a, x = done a ∧ f a = done b := by
  cases x <;> simp

theorem bind_eq_fault {x : Outcome ε α} {f : α → Outcome ε β} {e : ε} :
    x >>= f = fault e ↔ x = fault e ∨ ∃ a, x = done a ∧ f a = fault e := by
  cases x <;> simp

/-- Check a side condition of the C standard before an access. -/
def guard (e : ε) (p : Prop) [Decidable p] : Outcome ε Unit :=
  if p then done () else fault e

theorem guard_true {e : ε} {p : Prop} [Decidable p] (h : p) :
    guard e p = done () := if_pos h

theorem guard_false {e : ε} {p : Prop} [Decidable p] (h : ¬ p) :
    guard e p = fault e := if_neg h

/-- Give the faults of a part their place among those of the whole. -/
def liftFault {ε' : Type*} (f : ε → ε') : Outcome ε α → Outcome ε' α
  | running => running
  | fault e => fault (f e)
  | done a => done a

theorem liftFault_eq_done {ε' : Type*} {f : ε → ε'} {x : Outcome ε α} {a : α} :
    x.liftFault f = done a ↔ x = done a := by
  cases x <;> simp [liftFault]

theorem liftFault_eq_fault {ε' : Type*} {f : ε → ε'} {x : Outcome ε α} {e : ε'} :
    x.liftFault f = fault e ↔ ∃ e', x = fault e' ∧ f e' = e := by
  cases x <;> simp [liftFault]

def Extends (x y : Outcome ε α) : Prop := x = running ∨ x = y

theorem Extends.refl (x : Outcome ε α) : Extends x x := .inr rfl

theorem Extends.trans {x y z : Outcome ε α} (h : Extends x y) (h' : Extends y z) :
    Extends x z := by
  rcases h with rfl | rfl
  · exact .inl rfl
  · exact h'

theorem Extends.done {y : Outcome ε α} {a : α} (h : Extends (done a) y) : y = done a := by
  rcases h with h | h
  · cases h
  · exact h.symm

theorem Extends.fault {y : Outcome ε α} {e : ε} (h : Extends (fault e) y) : y = fault e := by
  rcases h with h | h
  · cases h
  · exact h.symm

theorem Extends.bind {x y : Outcome ε α} {f g : α → Outcome ε β} (h : Extends x y)
    (hf : ∀ a, Extends (f a) (g a)) : Extends (x >>= f) (y >>= g) := by
  rcases h with rfl | rfl
  · exact .inl rfl
  · cases x with
    | running => exact .inl rfl
    | fault e => exact .inr rfl
    | done a => exact hf a

end Outcome

open Outcome

/-- A larger bound keeps every answer given under a smaller one. -/
def Progressive (f : ℕ → Outcome ε α) : Prop :=
  ∀ ⦃m n : ℕ⦄, m ≤ n → Extends (f m) (f n)

/-- Some bound is enough for the computation to finish with this value. -/
def Returns (f : ℕ → Outcome ε α) (a : α) : Prop := ∃ n, f n = done a

def Faults (f : ℕ → Outcome ε α) (e : ε) : Prop := ∃ n, f n = fault e

def Diverges (f : ℕ → Outcome ε α) : Prop := ∀ n, f n = running

theorem progressive_const (x : Outcome ε α) : Progressive fun _ => x :=
  fun _ _ _ => .refl x

theorem Progressive.bind {f : ℕ → Outcome ε α} {g : ℕ → α → Outcome ε β}
    (hf : Progressive f) (hg : ∀ a, Progressive fun n => g n a) :
    Progressive fun n => f n >>= g n :=
  fun _ _ h => (hf h).bind fun a => hg a h

variable {f : ℕ → Outcome ε α}

theorem Returns.at_least (hf : Progressive f) {a : α} (h : Returns f a) :
    ∃ n, ∀ m, n ≤ m → f m = done a := by
  obtain ⟨n, hn⟩ := h
  exact ⟨n, fun m hm => (hn ▸ hf hm : Extends (done a) (f m)).done⟩

theorem Faults.at_least (hf : Progressive f) {e : ε} (h : Faults f e) :
    ∃ n, ∀ m, n ≤ m → f m = fault e := by
  obtain ⟨n, hn⟩ := h
  exact ⟨n, fun m hm => (hn ▸ hf hm : Extends (fault e) (f m)).fault⟩

theorem Returns.unique (hf : Progressive f) {a b : α} (ha : Returns f a)
    (hb : Returns f b) : a = b := by
  obtain ⟨n, hn⟩ := ha.at_least hf
  obtain ⟨m, hm⟩ := hb.at_least hf
  have h : (done a : Outcome ε α) = done b :=
    (hn _ (le_max_left n m)).symm.trans (hm _ (le_max_right n m))
  exact Outcome.done.inj h

theorem Returns.not_faults (hf : Progressive f) {a : α} {e : ε} (ha : Returns f a) :
    ¬ Faults f e := by
  intro he
  obtain ⟨n, hn⟩ := ha.at_least hf
  obtain ⟨m, hm⟩ := he.at_least hf
  have h := (hn _ (le_max_left n m)).symm.trans (hm _ (le_max_right n m))
  cases h

theorem Returns.not_diverges {a : α} (ha : Returns f a) : ¬ Diverges f := by
  obtain ⟨n, hn⟩ := ha
  intro h
  have := h n
  simp [hn] at this

theorem returns_or_faults_or_diverges (f : ℕ → Outcome ε α) :
    (∃ a, Returns f a) ∨ (∃ e, Faults f e) ∨ Diverges f := by
  by_cases h : Diverges f
  · exact .inr (.inr h)
  · obtain ⟨n, hn⟩ := not_forall.mp h
    cases hx : f n with
    | running => exact absurd hx hn
    | fault e => exact .inr (.inl ⟨e, n, hx⟩)
    | done a => exact .inl ⟨a, n, hx⟩

section Bind

variable {g : ℕ → α → Outcome ε β} {a : α} {b : β} {e : ε}

theorem Returns.bind (hf : Progressive f) (hg : Progressive fun n => g n a)
    (ha : Returns f a) (hb : Returns (fun n => g n a) b) : Returns (fun n => f n >>= g n) b := by
  obtain ⟨n, hn⟩ := ha.at_least hf
  obtain ⟨m, hm⟩ := hb.at_least hg
  refine ⟨max n m, ?_⟩
  simp only [hn _ (le_max_left n m), done_bind, hm _ (le_max_right n m)]

theorem Returns.bind_faults (hf : Progressive f) (hg : Progressive fun n => g n a)
    (ha : Returns f a) (he : Faults (fun n => g n a) e) : Faults (fun n => f n >>= g n) e := by
  obtain ⟨n, hn⟩ := ha.at_least hf
  obtain ⟨m, hm⟩ := he.at_least hg
  refine ⟨max n m, ?_⟩
  simp only [hn _ (le_max_left n m), done_bind, hm _ (le_max_right n m)]

theorem Returns.bind_diverges (hf : Progressive f) (ha : Returns f a)
    (hd : Diverges fun n => g n a) : Diverges fun n => f n >>= g n := by
  intro n
  cases hn : f n with
  | running => simp only [hn, running_bind]
  | fault e => exact (ha.not_faults hf ⟨n, hn⟩).elim
  | done a' =>
    obtain rfl := ha.unique hf ⟨n, hn⟩
    simp only [hn, done_bind]
    exact hd n

theorem Returns.of_bind (h : Returns (fun n => f n >>= g n) b) :
    ∃ a, Returns f a ∧ Returns (fun n => g n a) b := by
  obtain ⟨n, hn⟩ := h
  obtain ⟨a, ha, hb⟩ := bind_eq_done.mp hn
  exact ⟨a, ⟨n, ha⟩, n, hb⟩

theorem Returns.bind_iff (hf : Progressive f) (hg : Progressive fun n => g n a)
    (ha : Returns f a) : Returns (fun n => f n >>= g n) b ↔ Returns (fun n => g n a) b := by
  refine ⟨fun h => ?_, ha.bind hf hg⟩
  obtain ⟨a', ha', hb⟩ := h.of_bind
  rwa [ha.unique hf ha']

theorem Faults.bind (he : Faults f e) : Faults (fun n => f n >>= g n) e := by
  obtain ⟨n, hn⟩ := he
  exact ⟨n, by simp only [hn, fault_bind]⟩

theorem Diverges.bind (hd : Diverges f) : Diverges fun n => f n >>= g n := by
  intro n
  simp only [hd n, running_bind]

end Bind

theorem Faults.not_diverges {e : ε} (he : Faults f e) : ¬ Diverges f := by
  obtain ⟨n, hn⟩ := he
  intro h
  have := h n
  simp [hn] at this

end Loops
