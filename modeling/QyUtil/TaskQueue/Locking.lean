import QyUtil.TaskQueue.Basic

/-! # The task queue, lock by lock

Here the atomic steps of `put_task` and of `run` are those of the mutex and of
the condition variable. A worker tests the queue, releases the mutex to sleep in
`wait`, is woken by a notification or for no reason, and competes for the mutex
again before it repeats its test. A producer appends its task, notifies all
sleepers and only then releases the mutex. A task that itself puts a task acts as
one more producer.
-/

namespace QyUtil.TaskQueue.Locking

open Runs

universe u v

inductive Stage (φ : Type u) where
  /-- without the mutex -/
  | out (p : Phase φ)
  /-- at the test of the `if` -/
  | atIf
  /-- at the test of the predicate of `wait` -/
  | atPredicate
  /-- in `wait`, before the mutex is released -/
  | atSleep
  | atPop
  | atUnlock (job : Job φ)
  deriving DecidableEq, Repr

inductive Call (φ : Type u) where
  | outside
  | atPush (task : QYUtilTask φ)
  | atNotify
  | atUnlock
  deriving DecidableEq, Repr

abbrev Thread (nThread : ℕ) (π : Type v) := Fin nThread ⊕ π

/-- The mutex, what it protects, where the threads stand, and the record of the past. -/
structure State (nThread : ℕ) (φ : Type u) (π : Type v) where
  owner : Option (Thread nThread π)
  msgQueue : List (Job φ)
  worker : Fin nThread → Stage φ
  producer : π → Call φ
  enqueued : List (Job φ)
  dequeued : List (Fin nThread × Job φ)
  calls : List (Fin nThread × Mark)

variable {nThread : ℕ} {φ : Type u} {π : Type v}

namespace State

def lock (s : State nThread φ π) (t : Thread nThread π) : State nThread φ π :=
  { s with owner := some t }

def unlock (s : State nThread φ π) : State nThread φ π := { s with owner := none }

def workerTo (s : State nThread φ π) (w : Fin nThread) (x : Stage φ) : State nThread φ π :=
  { s with worker := Function.update s.worker w x }

def producerTo [DecidableEq π] (s : State nThread φ π) (p : π) (x : Call φ) :
    State nThread φ π :=
  { s with producer := Function.update s.producer p x }

def push (s : State nThread φ π) (task : QYUtilTask φ) : State nThread φ π :=
  let job : Job φ := ⟨s.enqueued.length, task⟩
  { s with
    msgQueue := s.msgQueue ++ [job]
    enqueued := s.enqueued ++ [job] }

def notifyAll (s : State nThread φ π) : State nThread φ π :=
  { s with worker := fun w => match s.worker w with
      | .out p => .out p.notify
      | x => x }

def pop (s : State nThread φ π) (w : Fin nThread) (job : Job φ) (rest : List (Job φ)) :
    State nThread φ π :=
  { s with
    msgQueue := rest
    dequeued := s.dequeued ++ [(w, job)] }

def mark (s : State nThread φ π) (w : Fin nThread) (l : List Mark) : State nThread φ π :=
  { s with calls := s.calls ++ l.map (w, ·) }

section Frame

variable {s : State nThread φ π} {v w : Fin nThread} {x : Stage φ} {p : π} {y : Call φ}

@[simp] theorem workerTo_self : (s.workerTo w x).worker w = x := Function.update_self ..

theorem workerTo_of_ne (h : v ≠ w) : (s.workerTo w x).worker v = s.worker v :=
  Function.update_of_ne h ..

variable [DecidableEq π]

@[simp] theorem producerTo_self : (s.producerTo p y).producer p = y := Function.update_self ..

end Frame

end State

/-- The atomic steps of the threads. -/
inductive Action (nThread : ℕ) (φ : Type u) (π : Type v) where
  | lockPut (p : π) (task : QYUtilTask φ)
  | push (p : π)
  | notifyAll (p : π)
  | unlockPut (p : π)
  | lock (w : Fin nThread)
  | test (w : Fin nThread)
  | sleep (w : Fin nThread)
  | spuriousWake (w : Fin nThread)
  | reacquire (w : Fin nThread)
  | pop (w : Fin nThread)
  | unlock (w : Fin nThread)
  | advance (w : Fin nThread)
  deriving DecidableEq, Repr

def popStep (s : State nThread φ π) (w : Fin nThread) : Except Fault (State nThread φ π) :=
  match front s.msgQueue, popFront s.msgQueue with
  | .ok tmpTask, .ok rest => .ok ((s.pop w tmpTask rest).workerTo w (.atUnlock tmpTask))
  | .error e, _ => .error e
  | _, .error e => .error e

def step [DecidableEq π] (s : State nThread φ π) :
    Action nThread φ π → Option (Except Fault (State nThread φ π))
  | .lockPut p task => match s.owner, s.producer p with
    | none, .outside => some (.ok ((s.lock (.inr p)).producerTo p (.atPush task)))
    | _, _ => none
  | .push p => match s.producer p with
    | .atPush task => some (.ok ((s.push task).producerTo p .atNotify))
    | _ => none
  | .notifyAll p => match s.producer p with
    | .atNotify => some (.ok (s.notifyAll.producerTo p .atUnlock))
    | _ => none
  | .unlockPut p => match s.producer p with
    | .atUnlock => some (.ok (s.unlock.producerTo p .outside))
    | _ => none
  | .lock w => match s.owner, s.worker w with
    | none, .out .idle => some (.ok ((s.lock (.inl w)).workerTo w .atIf))
    | _, _ => none
  | .test w => match s.worker w with
    | .atIf => some (.ok (s.workerTo w (if s.msgQueue.isEmpty then .atPredicate else .atPop)))
    | .atPredicate => some (.ok (s.workerTo w (if s.msgQueue.isEmpty then .atSleep else .atPop)))
    | _ => none
  | .sleep w => match s.worker w with
    | .atSleep => some (.ok (s.unlock.workerTo w (.out (.waiting false))))
    | _ => none
  -- what wakes for no reason competes for the mutex as if it had been notified
  | .spuriousWake w => match s.worker w with
    | .out (.waiting _) => some (.ok (s.workerTo w (.out (.waiting true))))
    | _ => none
  | .reacquire w => match s.owner, s.worker w with
    | none, .out (.waiting true) => some (.ok ((s.lock (.inl w)).workerTo w .atPredicate))
    | _, _ => none
  | .pop w => match s.worker w with
    | .atPop => some (popStep s w)
    | _ => none
  | .unlock w => match s.worker w with
    | .atUnlock job => some (.ok (s.unlock.workerTo w (.out (.holding job))))
    | _ => none
  | .advance w => match s.worker w with
    | .out p => p.advance.map fun r => .ok ((s.mark w r.2).workerTo w (.out r.1))
    | _ => none

def init : State nThread φ π := ⟨none, [], fun _ => .out .idle, fun _ => .outside, [], [], []⟩

def machine (nThread : ℕ) (φ : Type u) (π : Type v) [DecidableEq π] :
    Machine (State nThread φ π) (Action nThread φ π) Fault := ⟨init, step⟩

end QyUtil.TaskQueue.Locking
