import QyUtil.Runs.Machine

/-! # The task queue

`qyutil<nThread>` keeps tasks in a list. Any thread may append one by
`put_task`. Each worker repeats the body of `run`: under the mutex it waits for
the queue to be non-empty and takes the front, then it runs the task. The calls
of `put_task` and the locked sections of `run` are atomic steps, and between
them the threads interleave freely.
-/

namespace QyUtil.TaskQueue

open Runs

universe u v

/-- Two callables, of which an empty `std::function` is `none`. -/
structure QYUtilTask (φ : Type u) where
  first : Option φ
  second : Option φ
  deriving DecidableEq, Repr

/-- A task in the queue. The number counts the calls of `put_task` before it. -/
structure Job (φ : Type u) where
  number : ℕ
  task : QYUtilTask φ
  deriving DecidableEq, Repr

inductive Half where
  | first
  | second
  deriving DecidableEq, Repr

inductive Edge where
  | starts
  | returns
  deriving DecidableEq, Repr

structure Mark where
  number : ℕ
  half : Half
  edge : Edge
  deriving DecidableEq, Repr

inductive Phase (φ : Type u) where
  /-- at the head of the loop -/
  | idle
  /-- in `wait`, with or without a notification -/
  | waiting (notified : Bool)
  /-- after `unlock`, with the task taken -/
  | holding (job : Job φ)
  | inFirst (job : Job φ)
  | afterFirst (job : Job φ)
  | inSecond (job : Job φ)
  deriving DecidableEq, Repr

/-- What the mutex protects, where the workers stand, and a record of the past
that no step reads except to number the jobs. -/
structure State (nThread : ℕ) (φ : Type u) where
  msgQueue : List (Job φ)
  phase : Fin nThread → Phase φ
  enqueued : List (Job φ)
  dequeued : List (Fin nThread × Job φ)
  calls : List (Fin nThread × Mark)

variable {nThread : ℕ} {φ : Type u} {π : Type v}

/-- `begin` and `pop_front` need a non-empty list. -/
inductive Fault where
  | frontOfEmpty
  | popOfEmpty
  deriving DecidableEq, Repr

def front : List (Job φ) → Except Fault (Job φ)
  | [] => .error .frontOfEmpty
  | job :: _ => .ok job

def popFront : List (Job φ) → Except Fault (List (Job φ))
  | [] => .error .popOfEmpty
  | _ :: rest => .ok rest

def Phase.notify : Phase φ → Phase φ
  | .waiting _ => .waiting true
  | p => p

def State.putTask (s : State nThread φ) (task : QYUtilTask φ) : State nThread φ :=
  let job : Job φ := ⟨s.enqueued.length, task⟩
  { s with
    msgQueue := s.msgQueue ++ [job]
    enqueued := s.enqueued ++ [job]
    phase := fun w => (s.phase w).notify }

def State.moveTo (s : State nThread φ) (w : Fin nThread) (p : Phase φ) : State nThread φ :=
  { s with phase := Function.update s.phase w p }

def State.take (s : State nThread φ) (w : Fin nThread) (job : Job φ) (rest : List (Job φ)) :
    State nThread φ :=
  { s.moveTo w (.holding job) with
    msgQueue := rest
    dequeued := s.dequeued ++ [(w, job)] }

/-- The locked section of `run`, from the test of the queue or, for a worker
that `wait` has woken, from the test of its predicate. -/
def lockedSection (s : State nThread φ) (w : Fin nThread) : Except Fault (State nThread φ) :=
  if s.msgQueue.isEmpty then
    .ok (s.moveTo w (.waiting false))
  else do
    let tmpTask ← front s.msgQueue
    let rest ← popFront s.msgQueue
    return s.take w tmpTask rest

/-- What a worker outside the mutex does next, and the mark it passes. -/
def Phase.advance : Phase φ → Option (Phase φ × List Mark)
  | .holding job =>
    if job.task.first.isSome then some (.inFirst job, [⟨job.number, .first, .starts⟩])
    else some (.idle, [])
  | .inFirst job => some (.afterFirst job, [⟨job.number, .first, .returns⟩])
  | .afterFirst job =>
    if job.task.second.isSome then some (.inSecond job, [⟨job.number, .second, .starts⟩])
    else some (.idle, [])
  | .inSecond job => some (.idle, [⟨job.number, .second, .returns⟩])
  | .idle | .waiting _ => none

def State.pass (s : State nThread φ) (w : Fin nThread) (p : Phase φ) (l : List Mark) :
    State nThread φ :=
  { s.moveTo w p with calls := s.calls ++ l.map (w, ·) }

/-- The steps of the threads. A worker may leave `wait` without a notification,
and a running task may itself be the producer of another. -/
inductive Action (nThread : ℕ) (φ : Type u) (π : Type v) where
  | putTask (producer : π) (task : QYUtilTask φ)
  | enter (w : Fin nThread)
  | wake (w : Fin nThread)
  | advance (w : Fin nThread)
  deriving DecidableEq, Repr

def step (s : State nThread φ) : Action nThread φ π → Option (Except Fault (State nThread φ))
  | .putTask _ task => some (.ok (s.putTask task))
  | .enter w => match s.phase w with
    | .idle => some (lockedSection s w)
    | _ => none
  | .wake w => match s.phase w with
    | .waiting _ => some (lockedSection s w)
    | _ => none
  | .advance w => (s.phase w).advance.map fun r => .ok (s.pass w r.1 r.2)

def init : State nThread φ := ⟨[], fun _ => .idle, [], [], []⟩

def machine (nThread : ℕ) (φ : Type u) (π : Type v) :
    Machine (State nThread φ) (Action nThread φ π) Fault := ⟨init, step⟩

def Phase.AtLock (p : Phase φ) : Prop := p = .idle ∨ ∃ n, p = .waiting n

/-- Everything a step can do. -/
inductive Moved (s : State nThread φ) : State nThread φ → Prop where
  | put (task : QYUtilTask φ) : Moved s (s.putTask task)
  | sleep (w : Fin nThread) (hw : (s.phase w).AtLock) (hq : s.msgQueue = []) :
    Moved s (s.moveTo w (.waiting false))
  | take (w : Fin nThread) (job : Job φ) (rest : List (Job φ)) (hw : (s.phase w).AtLock)
    (hq : s.msgQueue = job :: rest) : Moved s (s.take w job rest)
  | pass (w : Fin nThread) (p : Phase φ) (l : List Mark)
    (hw : (s.phase w).advance = some (p, l)) : Moved s (s.pass w p l)

theorem advance_ne_waiting {p p' : Phase φ} {l : List Mark} (h : p.advance = some (p', l))
    (n : Bool) : p' ≠ .waiting n := by
  rintro rfl
  cases p with
  | holding job =>
    simp only [Phase.advance] at h
    split at h <;> cases h
  | afterFirst job =>
    simp only [Phase.advance] at h
    split at h <;> cases h
  | _ => cases h

theorem lockedSection_cases {s : State nThread φ} {w : Fin nThread} (hw : (s.phase w).AtLock) :
    ∃ s', lockedSection s w = .ok s' ∧ Moved s s' := by
  cases hq : s.msgQueue with
  | nil => exact ⟨_, by simp [lockedSection, hq], .sleep w hw hq⟩
  | cons job rest =>
    refine ⟨_, ?_, .take w job rest hw hq⟩
    simp [lockedSection, hq, front, popFront, bind, Except.bind, pure, Except.pure]

theorem step_cases {s : State nThread φ} {a : Action nThread φ π}
    {r : Except Fault (State nThread φ)} (h : step s a = some r) :
    ∃ s', r = .ok s' ∧ Moved s s' := by
  cases a with
  | putTask _ task =>
    cases h
    exact ⟨_, rfl, .put task⟩
  | enter w =>
    simp only [step] at h
    split at h
    · cases h
      exact lockedSection_cases (.inl ‹_›)
    · cases h
  | wake w =>
    simp only [step] at h
    split at h
    · cases h
      exact lockedSection_cases (.inr ⟨_, ‹_›⟩)
    · cases h
  | advance w =>
    obtain ⟨⟨p, l⟩, hp, rfl⟩ := Option.map_eq_some_iff.mp h
    exact ⟨_, rfl, .pass w p l hp⟩

theorem moves_cases {s s' : State nThread φ} (h : (machine nThread φ π).Moves s s') :
    Moved s s' := by
  obtain ⟨a, ha⟩ := h
  obtain ⟨t, ht, hm⟩ := step_cases ha
  cases ht
  exact hm

end QyUtil.TaskQueue
