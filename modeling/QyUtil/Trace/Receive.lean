import QyUtil.Loops.Basic
import QyUtil.Trace.TraceRouter

/-! # Waiting for a datagram

The loop of `RecvWithinTime`, of which lookups and traceroutes have the same copy: as long
as `select` is interrupted by a signal, it is called again with what it has left in `tv`.
What comes back is what the callers' models take it to be, and how long it takes depends
on what `select` leaves.
-/

namespace QyUtil.Trace

open Loops Outcome Turn Bytes

/-- How a call of `select` ends: with `EINTR`, with another error, which leaves both sets
as they were, or with the descriptor in some of the sets. -/
inductive Selected where
  | interrupted
  | failed
  | ready (exceptional readable : Bool)
  deriving DecidableEq, Repr

/-- A call of `select` that takes a while and leaves a value in `tv`, in microseconds. -/
structure Select where
  selected : Selected
  waited : ℕ
  left : ℕ

/-- What the `k`-th call of `select` does with the time it is given, and what `recvfrom`
returns; `none` is a negative result. -/
structure Kernel where
  select : ℕ → ℕ → Select
  recvfrom : Option Bytes

/-- The calls made and the time that has gone by, besides `tv`. -/
structure Waiting where
  calls : ℕ
  tv : ℕ
  waited : ℕ
  deriving DecidableEq, Repr

structure Received where
  datagram : Option Bytes
  calls : ℕ
  waited : ℕ
  deriving DecidableEq, Repr

/-- What is done with the sets that `select` leaves. -/
def received (kernel : Kernel) (bufN : ℕ) (exceptional readable : Bool) : Option Bytes :=
  if exceptional then none
  else if readable then kernel.recvfrom.map (List.take bufN) else none

/-- From `label` to the next `goto`, or to a `return`. -/
def selectTurn (kernel : Kernel) (bufN : ℕ) (s : Waiting) :
    Outcome Empty (Turn Waiting Received) :=
  let ret := kernel.select s.calls s.tv
  let calls := s.calls + 1
  let waited := s.waited + ret.waited
  match ret.selected with
  | .interrupted => pure (.again ⟨calls, ret.left, waited⟩)
  | .failed => pure (.exit ⟨received kernel bufN true true, calls, waited⟩)
  | .ready exceptional readable =>
    pure (.exit ⟨received kernel bufN exceptional readable, calls, waited⟩)

def limit (sec usec : ℕ) : ℕ := sec * 10 ^ 6 + usec

def recvWithinTime (fuel : ℕ) (kernel : Kernel) (bufN sec usec : ℕ) : Outcome Empty Received :=
  loop (selectTurn kernel bufN) fuel ⟨0, limit sec usec, 0⟩

/-- `select` does not wait longer than it is told to. -/
def Kernel.Punctual (kernel : Kernel) : Prop := ∀ k tv, (kernel.select k tv).waited ≤ tv

/-- When interrupted, it leaves the time that has not gone by. -/
def Kernel.CountsDown (kernel : Kernel) : Prop :=
  ∀ k tv, (kernel.select k tv).selected = .interrupted →
    (kernel.select k tv).left = tv - (kernel.select k tv).waited

/-- When interrupted, it leaves the whole time. -/
def Kernel.StartsOver (kernel : Kernel) : Prop :=
  ∀ k tv, (kernel.select k tv).selected = .interrupted → (kernel.select k tv).left = tv

variable {kernel : Kernel} {bufN sec usec : ℕ} {s t : Waiting} {r : Received}

theorem selectTurn_next (h : Next (selectTurn kernel bufN) s t) :
    (kernel.select s.calls s.tv).selected = .interrupted ∧
      t = ⟨s.calls + 1, (kernel.select s.calls s.tv).left,
        s.waited + (kernel.select s.calls s.tv).waited⟩ := by
  unfold Next selectTurn at h
  dsimp only at h
  split at h
  · next hi => exact ⟨hi, (again.inj (done.inj h)).symm⟩
  · cases h
  · cases h

theorem selectTurn_exit (h : selectTurn kernel bufN s = done (exit r)) :
    (kernel.select s.calls s.tv).selected ≠ .interrupted ∧ r.calls = s.calls + 1 ∧
      r.waited = s.waited + (kernel.select s.calls s.tv).waited ∧
      ∃ ready : Native.Ready, ready.recvfrom = kernel.recvfrom ∧
        (bufN = bufLen → r.datagram = Native.recvWithinTime ready) := by
  unfold selectTurn at h
  dsimp only at h
  split at h
  · cases h
  · next hf =>
    obtain rfl := exit.inj (done.inj h)
    exact ⟨by rw [hf]; decide, rfl, rfl, ⟨true, true, kernel.recvfrom⟩, rfl, fun _ => rfl⟩
  · next exceptional readable hready =>
    obtain rfl := exit.inj (done.inj h)
    refine ⟨by rw [hready]; simp, rfl, rfl, ⟨exceptional, readable, kernel.recvfrom⟩, rfl, ?_⟩
    rintro rfl
    rfl

def begin (sec usec : ℕ) : Waiting := ⟨0, limit sec usec, 0⟩

theorem exit_of_returns (h : Returns (fun n => recvWithinTime n kernel bufN sec usec) r) :
    ∃ s, Reach (selectTurn kernel bufN) (begin sec usec) s ∧
      selectTurn kernel bufN s = done (exit r) :=
  loop_returns_iff.mp h

theorem reach_countsDown (hp : kernel.Punctual) (hc : kernel.CountsDown)
    (h : Reach (selectTurn kernel bufN) (begin sec usec) s) :
    s.waited + s.tv ≤ limit sec usec := by
  refine h.invariant (I := fun s => s.waited + s.tv ≤ limit sec usec) (Nat.zero_add _).le
    fun s t hs hn => ?_
  obtain ⟨hi, rfl⟩ := selectTurn_next hn
  have hw := hp s.calls s.tv
  have hleft := hc s.calls s.tv hi
  dsimp only
  omega

theorem reach_startsOver (hp : kernel.Punctual) (hc : kernel.StartsOver)
    (h : Reach (selectTurn kernel bufN) (begin sec usec) s) :
    s.tv = limit sec usec ∧ s.waited ≤ s.calls * limit sec usec := by
  refine h.invariant (I := fun s => s.tv = limit sec usec ∧ s.waited ≤ s.calls * limit sec usec)
    ⟨rfl, Nat.zero_le _⟩ fun s t hs hn => ?_
  obtain ⟨htv, hwaited⟩ := hs
  obtain ⟨hi, rfl⟩ := selectTurn_next hn
  have hw := hp s.calls s.tv
  have hleft := hc s.calls s.tv hi
  rw [htv] at hw hleft
  rw [htv]
  exact ⟨hleft, by rw [Nat.succ_mul]; exact Nat.add_le_add hwaited hw⟩

/-- While some time has to go by in each interrupted call, the time left grows less. -/
theorem returns_of_countsDown (hp : kernel.Punctual) (hc : kernel.CountsDown)
    (hw : ∀ k tv, (kernel.select k tv).selected = .interrupted →
      0 < (kernel.select k tv).waited) :
    ∃ r, Returns (fun n => recvWithinTime n kernel bufN sec usec) r ∧
      r.calls ≤ limit sec usec + 1 := by
  refine loop_returns_of_measure (I := fun s => s.calls + s.tv ≤ limit sec usec) Waiting.tv
    (fun s hs => ?_) (Nat.zero_add _).le
  have hpunctual := hp s.calls s.tv
  cases hsel : (kernel.select s.calls s.tv).selected with
  | interrupted =>
    have hpos := hw s.calls s.tv hsel
    have hleft := hc s.calls s.tv hsel
    refine .inl ⟨⟨s.calls + 1, (kernel.select s.calls s.tv).left,
      s.waited + (kernel.select s.calls s.tv).waited⟩, ?_, ?_, ?_⟩
    · simp only [Next, selectTurn, hsel, pure_eq]
    · dsimp only
      omega
    · dsimp only
      omega
  | failed =>
    refine .inr ⟨_, by simp only [selectTurn, hsel, pure_eq]; rfl, ?_⟩
    dsimp only
    omega
  | ready exceptional readable =>
    refine .inr ⟨_, by simp only [selectTurn, hsel, pure_eq]; rfl, ?_⟩
    dsimp only
    omega

/-- Whatever signals come, what is received is what the model of the callers takes from the
sets of one call of `select`. If `select` leaves the time that has not gone by, all calls
together wait no longer than the timeout, and come to an end if a signal takes time; if it
leaves the whole time, each call may wait for the timeout again. -/
theorem recvWithinTime_within (kernel : Kernel) (hp : kernel.Punctual) (sec usec : ℕ) :
    (∀ r, Returns (fun n => recvWithinTime n kernel bufLen sec usec) r →
      ∃ ready : Native.Ready, ready.recvfrom = kernel.recvfrom ∧
        r.datagram = Native.recvWithinTime ready) ∧
    (kernel.CountsDown →
      (∀ r, Returns (fun n => recvWithinTime n kernel bufLen sec usec) r →
        r.waited ≤ limit sec usec) ∧
      ((∀ k tv, (kernel.select k tv).selected = .interrupted → 0 < (kernel.select k tv).waited) →
        ∃ r, Returns (fun n => recvWithinTime n kernel bufLen sec usec) r ∧
          r.calls ≤ limit sec usec + 1)) ∧
    (kernel.StartsOver → ∀ r, Returns (fun n => recvWithinTime n kernel bufLen sec usec) r →
      r.waited ≤ r.calls * limit sec usec) := by
  refine ⟨fun r hr => ?_, fun hc => ⟨fun r hr => ?_, returns_of_countsDown hp hc⟩,
    fun hc r hr => ?_⟩
  · obtain ⟨s, -, hexit⟩ := exit_of_returns hr
    obtain ⟨-, -, -, ready, hrecv, hdatagram⟩ := selectTurn_exit hexit
    exact ⟨ready, hrecv, hdatagram rfl⟩
  · obtain ⟨s, hreach, hexit⟩ := exit_of_returns hr
    obtain ⟨-, -, hwaited, -⟩ := selectTurn_exit hexit
    have hle := reach_countsDown hp hc hreach
    have hlast := hp s.calls s.tv
    omega
  · obtain ⟨s, hreach, hexit⟩ := exit_of_returns hr
    obtain ⟨-, hcalls, hwaited, -⟩ := selectTurn_exit hexit
    obtain ⟨htv, hle⟩ := reach_startsOver hp hc hreach
    have hlast := hp s.calls s.tv
    rw [hcalls, hwaited, Nat.succ_mul]
    rw [htv] at hlast ⊢
    exact Nat.add_le_add hle hlast

def signalled : Kernel where
  select k tv :=
    if k < 2 ∧ 0 < tv then ⟨.interrupted, 1, tv - 1⟩ else ⟨.ready false true, 0, tv⟩
  recvfrom := some [69]

theorem signalled_cases (k tv : ℕ) :
    ((signalled.select k tv).selected = .interrupted ∧ (signalled.select k tv).waited = 1 ∧
      (signalled.select k tv).left = tv - 1 ∧ 0 < tv) ∨
    ((signalled.select k tv).selected ≠ .interrupted ∧ (signalled.select k tv).waited = 0) := by
  unfold signalled
  dsimp only
  split_ifs with h
  · exact .inl ⟨rfl, rfl, rfl, h.2⟩
  · exact .inr ⟨by simp, rfl⟩

theorem signalled_countsDown : signalled.Punctual ∧ signalled.CountsDown ∧
    ∀ k tv, (signalled.select k tv).selected = .interrupted →
      0 < (signalled.select k tv).waited := by
  refine ⟨fun k tv => ?_, fun k tv hi => ?_, fun k tv hi => ?_⟩ <;>
    rcases signalled_cases k tv with ⟨_, hw, hl, ht⟩ | ⟨hn, hw⟩
  · omega
  · omega
  · rw [hl, hw]
  · exact absurd hi hn
  · omega
  · exact absurd hi hn

theorem recvWithinTime_within_signalled : ∃ r ready,
    Returns (fun n => recvWithinTime n signalled bufLen 5 0) r ∧ r.calls ≤ 5000001 ∧
      r.waited ≤ 5000000 ∧ r.datagram = Native.recvWithinTime ready := by
  obtain ⟨hp, hc, hw⟩ := signalled_countsDown
  obtain ⟨hready, hcounts, -⟩ := recvWithinTime_within signalled hp 5 0
  obtain ⟨hwaited, hreturns⟩ := hcounts hc
  obtain ⟨r, hr, hcalls⟩ := hreturns hw
  obtain ⟨ready, -, hdatagram⟩ := hready r hr
  exact ⟨r, ready, hr, hcalls, hwaited r hr, hdatagram⟩

end QyUtil.Trace
