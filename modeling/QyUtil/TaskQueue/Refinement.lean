import QyUtil.TaskQueue.WakeUp
import QyUtil.TaskQueue.Order
import QyUtil.Runs.Simulation

/-! # The locked sections are atomic

Taken lock by lock, the queue does nothing that the queue with atomic sections does
not do. The step that stands for a locked section of a worker is the one that goes
to sleep, or the one that removes a task; for `put_task` it is the one that appends.
So the order of the tasks is kept lock by lock, too.
-/

namespace QyUtil.TaskQueue.Locking

open Runs Relation

universe u v

variable {nThread : ℕ} {φ : Type u} {π : Type v} {s s' : State nThread φ π}
  {t : TaskQueue.State nThread φ} {w : Fin nThread} {x y : Stage φ} {q q' : Phase φ}

/-- What a stage looks like when the locked section is one step. -/
def Stage.Shows : Stage φ → Phase φ → Prop
  | .out (.waiting _), q => ∃ n, q = .waiting n
  | .out p, q => q = p
  | .atUnlock job, q => q = .holding job
  | .atIf, q | .atPredicate, q | .atSleep, q | .atPop, q => q.AtLock

theorem Stage.shows_out {p : Phase φ} (h : ∀ n, p ≠ .waiting n) :
    (Stage.out p).Shows q ↔ q = p := by
  cases p with
  | waiting n => exact absurd rfl (h n)
  | _ => rfl

theorem atLock_notify (h : q.AtLock) : q.notify.AtLock := by
  rcases h with rfl | ⟨n, rfl⟩
  · exact .inl rfl
  · exact .inr ⟨true, rfl⟩

/-- A notification earlier than the worker's own is not seen. -/
theorem Stage.Shows.notify (h : x.Shows q) : x.Shows q.notify := by
  cases x with
  | out p =>
    cases p with
    | waiting n =>
      obtain ⟨m, rfl⟩ := h
      exact ⟨true, rfl⟩
    | _ =>
      obtain rfl := h
      rfl
  | atUnlock job =>
    obtain rfl := h
    rfl
  | _ => exact atLock_notify h

/-- The two states hold the same, as far as both have it. -/
structure Shows (s : State nThread φ π) (t : TaskQueue.State nThread φ) : Prop where
  msgQueue : t.msgQueue = s.msgQueue
  enqueued : t.enqueued = s.enqueued
  dequeued : t.dequeued = s.dequeued
  calls : t.calls = s.calls
  phase : ∀ w, (s.worker w).Shows (t.phase w)

theorem init_shows : Shows (init : State nThread φ π) TaskQueue.init where
  msgQueue := rfl
  enqueued := rfl
  dequeued := rfl
  calls := rfl
  phase _ := rfl

theorem Shows.stay (h : Shows s t) (hx : (s.worker w).Shows (t.phase w) → x.Shows (t.phase w)) :
    Shows (s.workerTo w x) t where
  msgQueue := h.msgQueue
  enqueued := h.enqueued
  dequeued := h.dequeued
  calls := h.calls
  phase v := by
    rcases eq_or_ne v w with rfl | hv
    · rw [State.workerTo_self]
      exact hx (h.phase v)
    · rw [State.workerTo_of_ne hv]
      exact h.phase v

theorem Shows.phase_update (h : Shows s t) (hx : x.Shows q) (v : Fin nThread) :
    ((s.workerTo w x).worker v).Shows (Function.update t.phase w q v) := by
  rcases eq_or_ne v w with rfl | hv
  · rwa [State.workerTo_self, Function.update_self]
  · rw [State.workerTo_of_ne hv, Function.update_of_ne hv]
    exact h.phase v

theorem Stage.Shows.of_notify {p : Phase φ} (h : (Stage.out p).Shows q) :
    (Stage.out p.notify).Shows q := by
  cases p with
  | waiting n => exact h
  | _ => exact h

section Moves

theorem moves_lockedSection {t' : TaskQueue.State nThread φ} (hw : (t.phase w).AtLock)
    (h : lockedSection t w = .ok t') : (TaskQueue.machine nThread φ π).Moves t t' := by
  rcases hw with hw | ⟨n, hw⟩
  · exact ⟨.enter w, by simp [TaskQueue.machine, TaskQueue.step, hw, h]⟩
  · exact ⟨.wake w, by simp [TaskQueue.machine, TaskQueue.step, hw, h]⟩

theorem moves_sleep (hw : (t.phase w).AtLock) (hq : t.msgQueue = []) :
    (TaskQueue.machine nThread φ π).Moves t (t.moveTo w (.waiting false)) :=
  moves_lockedSection hw (by simp [lockedSection, hq])

theorem moves_take {job : Job φ} {rest : List (Job φ)} (hw : (t.phase w).AtLock)
    (hq : t.msgQueue = job :: rest) :
    (TaskQueue.machine nThread φ π).Moves t (t.take w job rest) :=
  moves_lockedSection hw (by
    simp [lockedSection, hq, front, popFront, bind, Except.bind, pure, Except.pure])

theorem moves_pass {l : List Mark} (hw : t.phase w = q) (hq : q.advance = some (q', l)) :
    (TaskQueue.machine nThread φ π).Moves t (t.pass w q' l) :=
  ⟨.advance w, by simp [TaskQueue.machine, TaskQueue.step, hw, hq]⟩

variable [DecidableEq π]

theorem Moved.shown (hm : Moved s s') (hs : Guarded s) (h : Shows s t) :
    ∃ t', ReflTransGen (TaskQueue.machine nThread φ π).Moves t t' ∧ Shows s' t' := by
  cases hm with
  | lockPut p task ho hp => exact ⟨t, .refl, { h with }⟩
  | push p task hp =>
    refine ⟨t.putTask task, .single ⟨.putTask p task, rfl⟩, ?_⟩
    exact {
      msgQueue := by simp [State.producerTo, State.push, TaskQueue.State.putTask, h.msgQueue,
        h.enqueued]
      enqueued := by simp [State.producerTo, State.push, TaskQueue.State.putTask, h.enqueued]
      dequeued := h.dequeued
      calls := h.calls
      phase := fun w => (h.phase w).notify }
  | notifyAll p hp =>
    refine ⟨t, .refl, { h with phase := fun w => ?_ }⟩
    have hw := h.phase w
    simp only [State.producerTo, State.notifyAll]
    cases hx : s.worker w with
    | out p => exact (hx ▸ hw : (Stage.out p).Shows _).of_notify
    | _ => simpa [hx] using hw
  | unlockPut p hp => exact ⟨t, .refl, { h with }⟩
  | lock w ho hw =>
    have h' : Shows (s.lock (.inl w)) t := { h with }
    exact ⟨t, .refl, h'.stay fun hx => .inl (by simpa [State.lock, hw, Stage.Shows] using hx)⟩
  | test w x hx =>
    refine ⟨t, .refl, h.stay fun hw => ?_⟩
    generalize s.worker w = a at hx hw
    cases hx with
    | found hx _ => rcases hx with rfl | rfl <;> exact hw
    | again _ => exact hw
    | empty _ => exact hw
  | sleep w hw =>
    have hl : (t.phase w).AtLock := by simpa [hw, Stage.Shows] using h.phase w
    have hq : t.msgQueue = [] := by rw [h.msgQueue, hs.tested w hw]
    refine ⟨t.moveTo w (.waiting false), .single (moves_sleep hl hq), ?_⟩
    have h' : Shows s.unlock t := { h with }
    exact { h with phase := h'.phase_update ⟨false, rfl⟩ }
  | spuriousWake w n hw =>
    exact ⟨t, .refl, h.stay fun hx => by simpa [hw, Stage.Shows] using hx⟩
  | reacquire w ho hw =>
    have h' : Shows (s.lock (.inl w)) t := { h with }
    exact ⟨t, .refl, h'.stay fun hx => .inr (by simpa [State.lock, hw, Stage.Shows] using hx)⟩
  | pop w job rest hw hq =>
    have hl : (t.phase w).AtLock := by simpa [hw, Stage.Shows] using h.phase w
    rw [← h.msgQueue] at hq
    refine ⟨t.take w job rest, .single (moves_take hl hq), ?_⟩
    exact {
      msgQueue := rfl
      enqueued := h.enqueued
      dequeued := by simp [State.workerTo, State.pop, TaskQueue.State.take, h.dequeued]
      calls := h.calls
      phase := h.phase_update rfl }
  | unlock w job hw =>
    have h' : Shows s.unlock t := { h with }
    exact ⟨t, .refl, h'.stay fun hx => by simpa [State.unlock, hw, Stage.Shows] using hx⟩
  | advance w q q' l hw hq =>
    have hne (n : Bool) : q ≠ .waiting n := by
      rintro rfl
      cases hq
    have hl : t.phase w = q := (Stage.shows_out hne).mp (hw ▸ h.phase w)
    refine ⟨t.pass w q' l, .single (moves_pass hl hq), ?_⟩
    exact {
      msgQueue := h.msgQueue
      enqueued := h.enqueued
      dequeued := h.dequeued
      calls := by simp [State.workerTo, State.mark, TaskQueue.State.pass, h.calls]
      phase := h.phase_update ((Stage.shows_out (advance_ne_waiting hq)).mpr rfl) }

/-- The queue, lock by lock, refines the queue with atomic sections. -/
theorem simulation :
    Simulation (machine nThread φ π) (TaskQueue.machine nThread φ π) Shows where
  start := init_shows
  moves _ _ _ hr hm h := (moves_cases hm).shown (reachable_guarded hr) h

theorem exists_sound (h : (machine nThread φ π).Reachable s) : ∃ t, Sound t ∧ Shows s t := by
  obtain ⟨t, ht, hr⟩ := simulation.reachable h
  exact ⟨t, reachable_sound ht, hr⟩

/-- Lock by lock, too, the tasks are taken in the order in which they are put, each by one
worker, which makes the calls of the task in order. -/
theorem keeps_order (h : (machine nThread φ π).Reachable s) :
    s.enqueued = s.dequeued.map Prod.snd ++ s.msgQueue ∧
    (s.dequeued.map fun d => d.2.number).Nodup ∧
    ∀ w job, (w, job) ∈ s.dequeued →
      (s.calls.filter fun c => c.2.number = job.number) <+: job.runs.map (w, ·) := by
  obtain ⟨t, hs, hr⟩ := exists_sound h
  rw [← hr.enqueued, ← hr.dequeued, ← hr.msgQueue, ← hr.calls]
  exact ⟨hs.fifo, hs.dequeued_nodup, fun _ _ => hs.calls_inOrder⟩

end Moves

def crossedRun (v w : Fin 2) : List (Action 2 ℕ Bool) :=
  [.lockPut true ⟨some 0, none⟩, .push true, .notifyAll true, .unlockPut true,
    .lockPut false ⟨some 1, none⟩, .push false, .notifyAll false, .unlockPut false,
    .lock w, .test w, .pop w, .unlock w, .lock v, .test v, .pop v, .unlock v,
    .advance v, .advance w]

theorem keeps_order_crossed : ∃ s : State 2 ℕ Bool,
    (machine 2 ℕ Bool).replay init (crossedRun 0 1) = some s ∧
    s.enqueued = s.dequeued.map Prod.snd ++ s.msgQueue ∧
    (s.dequeued.map fun d => d.2.number).Nodup := by
  refine ⟨_, rfl, ?_⟩
  obtain ⟨hfifo, hnodup, -⟩ :=
    keeps_order ((machine 2 ℕ Bool).reachable_start.replay (crossedRun 0 1) rfl)
  exact ⟨hfifo, hnodup⟩

end QyUtil.TaskQueue.Locking
