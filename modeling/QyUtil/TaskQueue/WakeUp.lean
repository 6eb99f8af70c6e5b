import QyUtil.TaskQueue.Locking

/-! # No lost wake-up

A thread is between the lock and the unlock exactly when it owns the mutex. A
sleeping worker without a notification then leaves a task in the queue only while
the producer of a task has not yet notified, and so still owns the mutex.
-/

namespace QyUtil.TaskQueue.Locking

open Runs

universe u v

variable {nThread : ℕ} {φ : Type u} {π : Type v} {s s' : State nThread φ π} {w : Fin nThread}
  {p : π}

def Stage.Inside (x : Stage φ) : Prop := ∀ q, x ≠ .out q

@[simp] theorem Stage.not_inside_out (q : Phase φ) : ¬ (Stage.out q).Inside := fun h => h q rfl

@[simp] theorem Stage.inside_atIf : (Stage.atIf : Stage φ).Inside := nofun

@[simp] theorem Stage.inside_atPredicate : (Stage.atPredicate : Stage φ).Inside := nofun

@[simp] theorem Stage.inside_atSleep : (Stage.atSleep : Stage φ).Inside := nofun

@[simp] theorem Stage.inside_atPop : (Stage.atPop : Stage φ).Inside := nofun

@[simp] theorem Stage.inside_atUnlock (job : Job φ) : (Stage.atUnlock job).Inside := nofun

section Steps

/-- What a worker that has the mutex finds when it tests the queue. -/
inductive Tested (s : State nThread φ π) : Stage φ → Stage φ → Prop where
  | found {x : Stage φ} (hx : x = .atIf ∨ x = .atPredicate) (hq : s.msgQueue ≠ []) :
    Tested s x .atPop
  | again (hq : s.msgQueue = []) : Tested s .atIf .atPredicate
  | empty (hq : s.msgQueue = []) : Tested s .atPredicate .atSleep

theorem Tested.places {a x : Stage φ} (h : Tested s a x) : a.Inside ∧ x.Inside ∧
    (x = .atSleep → s.msgQueue = []) ∧ (x = .atPop → s.msgQueue ≠ []) := by
  cases h with
  | found hx hq =>
    refine ⟨?_, by simp, nofun, fun _ => hq⟩
    rcases hx with rfl | rfl <;> simp
  | again hq => exact ⟨by simp, by simp, nofun, nofun⟩
  | empty hq => exact ⟨by simp, by simp, fun _ => hq, nofun⟩

variable [DecidableEq π]

inductive Moved (s : State nThread φ π) : State nThread φ π → Prop where
  | lockPut (p : π) (task : QYUtilTask φ) (ho : s.owner = none) (hp : s.producer p = .outside) :
    Moved s ((s.lock (.inr p)).producerTo p (.atPush task))
  | push (p : π) (task : QYUtilTask φ) (hp : s.producer p = .atPush task) :
    Moved s ((s.push task).producerTo p .atNotify)
  | notifyAll (p : π) (hp : s.producer p = .atNotify) :
    Moved s (s.notifyAll.producerTo p .atUnlock)
  | unlockPut (p : π) (hp : s.producer p = .atUnlock) :
    Moved s (s.unlock.producerTo p .outside)
  | lock (w : Fin nThread) (ho : s.owner = none) (hw : s.worker w = .out .idle) :
    Moved s ((s.lock (.inl w)).workerTo w .atIf)
  | test (w : Fin nThread) (x : Stage φ) (hx : Tested s (s.worker w) x) :
    Moved s (s.workerTo w x)
  | sleep (w : Fin nThread) (hw : s.worker w = .atSleep) :
    Moved s (s.unlock.workerTo w (.out (.waiting false)))
  | spuriousWake (w : Fin nThread) (n : Bool) (hw : s.worker w = .out (.waiting n)) :
    Moved s (s.workerTo w (.out (.waiting true)))
  | reacquire (w : Fin nThread) (ho : s.owner = none) (hw : s.worker w = .out (.waiting true)) :
    Moved s ((s.lock (.inl w)).workerTo w .atPredicate)
  | pop (w : Fin nThread) (job : Job φ) (rest : List (Job φ)) (hw : s.worker w = .atPop)
    (hq : s.msgQueue = job :: rest) :
    Moved s ((s.pop w job rest).workerTo w (.atUnlock job))
  | unlock (w : Fin nThread) (job : Job φ) (hw : s.worker w = .atUnlock job) :
    Moved s (s.unlock.workerTo w (.out (.holding job)))
  | advance (w : Fin nThread) (q q' : Phase φ) (l : List Mark) (hw : s.worker w = .out q)
    (hq : q.advance = some (q', l)) :
    Moved s ((s.mark w l).workerTo w (.out q'))

theorem test_cases {a : Stage φ} (hw : s.worker w = .atIf ∧ a = .atPredicate ∨
    s.worker w = .atPredicate ∧ a = .atSleep) :
    Moved s (s.workerTo w (if s.msgQueue.isEmpty then a else .atPop)) := by
  cases hq : s.msgQueue with
  | nil =>
    rcases hw with ⟨hw, rfl⟩ | ⟨hw, rfl⟩
    · exact .test w _ (hw ▸ .again hq)
    · exact .test w _ (hw ▸ .empty hq)
  | cons job rest =>
    exact .test w _ (.found (hw.imp And.left And.left) (by simp [hq]))

theorem step_cases {a : Action nThread φ π} (h : step s a = some (.ok s')) : Moved s s' := by
  cases a with
  | lockPut p task =>
    simp only [step] at h
    split at h
    · cases h
      exact .lockPut p task ‹_› ‹_›
    · cases h
  | push p =>
    simp only [step] at h
    split at h
    · cases h
      exact .push p _ ‹_›
    · cases h
  | notifyAll p =>
    simp only [step] at h
    split at h
    · cases h
      exact .notifyAll p ‹_›
    · cases h
  | unlockPut p =>
    simp only [step] at h
    split at h
    · cases h
      exact .unlockPut p ‹_›
    · cases h
  | lock w =>
    simp only [step] at h
    split at h
    · cases h
      exact .lock w ‹_› ‹_›
    · cases h
  | test w =>
    simp only [step] at h
    split at h
    · cases h
      exact test_cases (.inl ⟨‹_›, rfl⟩)
    · cases h
      exact test_cases (.inr ⟨‹_›, rfl⟩)
    · cases h
  | sleep w =>
    simp only [step] at h
    split at h
    · cases h
      exact .sleep w ‹_›
    · cases h
  | spuriousWake w =>
    simp only [step] at h
    split at h
    · cases h
      exact .spuriousWake w _ ‹_›
    · cases h
  | reacquire w =>
    simp only [step] at h
    split at h
    · cases h
      exact .reacquire w ‹_› ‹_›
    · cases h
  | pop w =>
    simp only [step] at h
    split at h
    · cases hq : s.msgQueue with
      | nil => simp [popStep, hq, front] at h
      | cons job rest =>
        simp only [popStep, hq, front, popFront] at h
        cases h
        exact .pop w job rest ‹_› hq
    · cases h
  | unlock w =>
    simp only [step] at h
    split at h
    · cases h
      exact .unlock w _ ‹_›
    · cases h
  | advance w =>
    simp only [step] at h
    split at h
    · obtain ⟨⟨q', l⟩, hq, he⟩ := Option.map_eq_some_iff.mp h
      cases he
      exact .advance w _ q' l ‹_› hq
    · cases h

theorem step_fault {a : Action nThread φ π} {e : Fault} (h : step s a = some (.error e)) :
    ∃ w, s.worker w = .atPop ∧ s.msgQueue = [] := by
  cases a with
  | pop w =>
    simp only [step] at h
    split at h
    · cases hq : s.msgQueue with
      | nil => exact ⟨w, ‹_›, rfl⟩
      | cons job rest => simp [popStep, hq, front, popFront] at h
    · cases h
  | advance w =>
    simp only [step] at h
    split at h
    · obtain ⟨_, -, he⟩ := Option.map_eq_some_iff.mp h
      cases he
    · cases h
  | _ =>
    simp only [step] at h
    split at h <;> cases h

end Steps

/-- What holds of the mutex, the queue and the sleepers between any two steps. -/
structure Guarded (s : State nThread φ π) : Prop where
  workers : ∀ w, (s.worker w).Inside ↔ s.owner = some (.inl w)
  producers : ∀ p, s.producer p ≠ .outside ↔ s.owner = some (.inr p)
  tested : ∀ w, s.worker w = .atSleep → s.msgQueue = []
  found : ∀ w, s.worker w = .atPop → s.msgQueue ≠ []
  asleep : ∀ w, s.worker w = .out (.waiting false) →
    s.msgQueue = [] ∨ ∃ p, s.producer p = .atNotify

theorem init_guarded : Guarded (init : State nThread φ π) where
  workers w := by simp [init]
  producers p := by simp [init]
  tested w hw := by simp [init] at hw
  found w hw := by simp [init] at hw
  asleep w hw := by simp [init] at hw

def OnlyThread (t : Thread nThread π) (s s' : State nThread φ π) : Prop :=
  ∀ u, u ≠ t → (s'.owner = some u ↔ s.owner = some u)

theorem onlyThread_refl (t : Thread nThread π) (h : s'.owner = s.owner) : OnlyThread t s s' :=
  fun _ _ => by rw [h]

theorem onlyThread_lock {t : Thread nThread π} (ho : s.owner = none) (h : s'.owner = some t) :
    OnlyThread t s s' := fun u hu => by simp [h, ho, Ne.symm hu]

theorem onlyThread_unlock {t : Thread nThread π} (ho : s.owner = some t) (h : s'.owner = none) :
    OnlyThread t s s' := fun u hu => by simp [h, ho, Ne.symm hu]

theorem Guarded.moveWorker (h : Guarded s) {x : Stage φ} (ho : OnlyThread (.inl w) s s')
    (hq : s'.msgQueue = s.msgQueue) (hp : s'.producer = s.producer)
    (hw : s'.worker = Function.update s.worker w x) (hx : x.Inside ↔ s'.owner = some (.inl w))
    (htested : x = .atSleep → s.msgQueue = []) (hfound : x = .atPop → s.msgQueue ≠ [])
    (hasleep : x = .out (.waiting false) → s.msgQueue = []) : Guarded s' where
  workers v := by
    rcases eq_or_ne v w with rfl | hv
    · simpa [hw] using hx
    · rw [hw, Function.update_of_ne hv, h.workers, ho _ (by simpa using hv)]
  producers p := by rw [hp, h.producers, ho _ (by simp)]
  tested v hv := by
    rw [hq]
    rcases eq_or_ne v w with rfl | hne
    · exact htested (by simpa [hw] using hv)
    · exact h.tested v (by simpa [hw, hne] using hv)
  found v hv := by
    rw [hq]
    rcases eq_or_ne v w with rfl | hne
    · exact hfound (by simpa [hw] using hv)
    · exact h.found v (by simpa [hw, hne] using hv)
  asleep v hv := by
    rw [hq, hp]
    rcases eq_or_ne v w with rfl | hne
    · exact .inl (hasleep (by simpa [hw] using hv))
    · exact h.asleep v (by simpa [hw, hne] using hv)

theorem Guarded.not_inside (h : Guarded s) (hp : s.producer p ≠ .outside) (w : Fin nThread) :
    ¬ (s.worker w).Inside := by
  rw [h.workers, (h.producers p).mp hp]
  simp

theorem Guarded.eq_of_inside {v : Fin nThread} (h : Guarded s) (hw : (s.worker w).Inside)
    (hv : (s.worker v).Inside) : v = w := by
  have ho := (h.workers v).mp hv
  rw [(h.workers w).mp hw] at ho
  simpa using ho.symm

theorem Guarded.pop (h : Guarded s) {job : Job φ} {rest : List (Job φ)}
    (hw : s.worker w = .atPop) (hq : s.msgQueue = job :: rest) :
    Guarded ((s.pop w job rest).workerTo w (.atUnlock job)) := by
  have hin : (s.worker w).Inside := by simp [hw]
  have hout {v : Fin nThread} {x : Stage φ} (hx : x.Inside) (hne : v ≠ w) : s.worker v ≠ x := by
    rintro rfl
    exact hne (h.eq_of_inside hin hx)
  exact {
    workers := fun v => by
      rcases eq_or_ne v w with rfl | hv
      · exact iff_of_true (by simp) ((h.workers v).mp hin)
      · rw [State.workerTo_of_ne hv]
        exact h.workers v
    producers := h.producers
    tested := fun v hv => by
      rcases eq_or_ne v w with rfl | hne
      · simp at hv
      · rw [State.workerTo_of_ne hne] at hv
        exact absurd hv (hout (by simp) hne)
    found := fun v hv => by
      rcases eq_or_ne v w with rfl | hne
      · simp at hv
      · rw [State.workerTo_of_ne hne] at hv
        exact absurd hv (hout (by simp) hne)
    asleep := fun v hv => by
      rcases eq_or_ne v w with rfl | hne
      · simp at hv
      · rw [State.workerTo_of_ne hne] at hv
        -- before, the queue was not empty, and the mutex was not a producer's
        rcases h.asleep v hv with he | ⟨p, hp⟩
        · simp [hq] at he
        · exact absurd hin (h.not_inside (p := p) (by simp [hp]) w) }

section Producers

variable [DecidableEq π]

theorem Guarded.moveProducer (h : Guarded s) {x : Call φ} (ho : OnlyThread (.inr p) s s')
    (hq : s'.msgQueue = s.msgQueue) (hw : s'.worker = s.worker)
    (hp : s'.producer = Function.update s.producer p x)
    (hx : x ≠ .outside ↔ s'.owner = some (.inr p)) (hnotify : s.producer p ≠ .atNotify) :
    Guarded s' where
  workers w := by rw [hw, h.workers, ho _ (by simp)]
  producers q := by
    rcases eq_or_ne q p with rfl | hne
    · simpa [hp] using hx
    · rw [hp, Function.update_of_ne hne, h.producers, ho _ (by simpa using hne)]
  tested w hv := by
    rw [hq]
    exact h.tested w (by rwa [hw] at hv)
  found w hv := by
    rw [hq]
    exact h.found w (by rwa [hw] at hv)
  asleep w hv := by
    rw [hw] at hv
    rw [hq, hp]
    refine (h.asleep w hv).imp_right ?_
    rintro ⟨q, hn⟩
    have hne : q ≠ p := by
      rintro rfl
      exact hnotify hn
    exact ⟨q, by rwa [Function.update_of_ne hne]⟩

theorem Guarded.push (h : Guarded s) {task : QYUtilTask φ} (hp : s.producer p = .atPush task) :
    Guarded ((s.push task).producerTo p .atNotify) where
  workers := h.workers
  producers q := by
    rcases eq_or_ne q p with rfl | hne
    · have hin : s.owner = some (.inr q) := (h.producers q).mp (by simp [hp])
      simp [State.producerTo, State.push, hin]
    · simpa [State.producerTo, State.push, Function.update_of_ne hne] using h.producers q
  tested w hw := by
    have hw : s.worker w = .atSleep := hw
    exact absurd (by simp [hw]) (h.not_inside (p := p) (by simp [hp]) w)
  found w hw := by simp [State.producerTo, State.push]
  asleep w hw := .inr ⟨p, by simp [State.producerTo]⟩

theorem Guarded.notifyAll (h : Guarded s) (hp : s.producer p = .atNotify) :
    Guarded (s.notifyAll.producerTo p .atUnlock) where
  workers w := by
    have hw := h.workers w
    simp only [State.producerTo, State.notifyAll]
    cases hs : s.worker w with
    | out q => simpa [hs] using hw
    | _ => simpa [hs] using hw
  producers q := by
    rcases eq_or_ne q p with rfl | hne
    · have hin : s.owner = some (.inr q) := (h.producers q).mp (by simp [hp])
      simp [State.producerTo, State.notifyAll, hin]
    · simpa [State.producerTo, State.notifyAll, Function.update_of_ne hne] using h.producers q
  tested w hw := by
    refine h.tested w ?_
    simp only [State.producerTo, State.notifyAll] at hw
    split at hw
    · cases hw
    · exact hw
  found w hw := by
    refine h.found w ?_
    simp only [State.producerTo, State.notifyAll] at hw
    split at hw
    · cases hw
    · exact hw
  -- nobody is left without a notification
  asleep w hw := by
    simp only [State.producerTo, State.notifyAll] at hw
    split at hw
    · rename_i q _
      cases q <;> simp [Phase.notify] at hw
    · exact absurd hw (by simp_all)

theorem Moved.guarded (hm : Moved s s') (h : Guarded s) : Guarded s' := by
  cases hm with
  | lockPut p task ho hp =>
    exact h.moveProducer (onlyThread_lock ho rfl) rfl rfl rfl
      (by simp [State.lock, State.producerTo]) (by simp [hp])
  | push p task hp => exact h.push hp
  | notifyAll p hp => exact h.notifyAll hp
  | unlockPut p hp =>
    have hin := (h.producers p).mp (by simp [hp])
    exact h.moveProducer (onlyThread_unlock hin rfl) rfl rfl rfl
      (by simp [State.unlock, State.producerTo]) (by simp [hp])
  | lock w ho hw =>
    exact h.moveWorker (onlyThread_lock ho rfl) rfl rfl rfl (by simp [State.lock, State.workerTo])
      nofun nofun nofun
  | test w x hx =>
    obtain ⟨hw, hx, htested, hfound⟩ := hx.places
    have hin := (h.workers w).mp hw
    exact h.moveWorker (onlyThread_refl _ rfl) rfl rfl rfl (by simp [hx, State.workerTo, hin])
      htested hfound fun he => absurd hx (by simp [he])
  | sleep w hw =>
    have hin := (h.workers w).mp (by simp [hw])
    exact h.moveWorker (onlyThread_unlock hin rfl) rfl rfl rfl
      (by simp [State.unlock, State.workerTo]) nofun nofun fun _ => h.tested w hw
  | spuriousWake w n hw =>
    have hout : ¬ s.owner = some (.inl w) := by simp [← h.workers, hw]
    exact h.moveWorker (onlyThread_refl _ rfl) rfl rfl rfl (by simpa [State.workerTo] using hout)
      nofun nofun nofun
  | reacquire w ho hw =>
    exact h.moveWorker (onlyThread_lock ho rfl) rfl rfl rfl (by simp [State.lock, State.workerTo])
      nofun nofun nofun
  | pop w job rest hw hq => exact h.pop hw hq
  | unlock w job hw =>
    have hin := (h.workers w).mp (by simp [hw])
    exact h.moveWorker (onlyThread_unlock hin rfl) rfl rfl rfl
      (by simp [State.unlock, State.workerTo]) nofun nofun nofun
  | advance w q q' l hw hq =>
    have hout : ¬ s.owner = some (.inl w) := by simp [← h.workers, hw]
    exact h.moveWorker (onlyThread_refl _ rfl) rfl rfl rfl
      (by simpa [State.workerTo, State.mark] using hout) nofun nofun fun hx =>
        absurd (Stage.out.inj hx) (advance_ne_waiting hq false)

theorem moves_cases (h : (machine nThread φ π).Moves s s') : Moved s s' := by
  obtain ⟨_, ha⟩ := h
  exact step_cases ha

theorem reachable_guarded (h : (machine nThread φ π).Reachable s) : Guarded s :=
  h.invariant init_guarded fun _ _ hm => (moves_cases hm).guarded

/-- No worker takes a task from an empty queue. -/
theorem no_fault (h : (machine nThread φ π).Reachable s) (a : Action nThread φ π) (e : Fault) :
    step s a ≠ some (.error e) := by
  intro hf
  obtain ⟨w, hw, hq⟩ := step_fault hf
  exact (reachable_guarded h).found w hw hq

/-- In no reachable state is the mutex free, a task in the queue and a worker asleep
without a notification. -/
theorem no_lost_wakeup (h : (machine nThread φ π).Reachable s) :
    ¬ (s.owner = none ∧ s.msgQueue ≠ [] ∧ ∃ w, s.worker w = .out (.waiting false)) := by
  rintro ⟨ho, hq, w, hw⟩
  have hs := reachable_guarded h
  rcases hs.asleep w hw with he | ⟨p, hp⟩
  · exact hq he
  · -- the producer that has not yet notified still owns the mutex
    have hown := (hs.producers p).mp (by simp [hp])
    rw [ho] at hown
    cases hown

end Producers

/-- One worker falls asleep, the other is woken for no reason and falls asleep again,
and a task is put. -/
def sleepersRun : List (Action 2 ℕ Bool) :=
  [.lock 0, .test 0, .test 0, .sleep 0, .lock 1, .test 1, .test 1, .sleep 1, .spuriousWake 1,
    .reacquire 1, .test 1, .sleep 1, .lockPut true ⟨some 0, none⟩, .push true, .notifyAll true,
    .unlockPut true]

theorem no_lost_wakeup_sleepers : ∃ s : State 2 ℕ Bool,
    (machine 2 ℕ Bool).replay init sleepersRun = some s ∧ s.owner = none ∧ s.msgQueue ≠ [] ∧
    ¬ ∃ w, s.worker w = .out (.waiting false) := by
  refine ⟨_, rfl, rfl, by decide, fun hw => ?_⟩
  exact no_lost_wakeup ((machine 2 ℕ Bool).reachable_start.replay sleepersRun rfl)
    ⟨rfl, by decide, hw⟩

end QyUtil.TaskQueue.Locking
