import QyUtil.Async.Calls

/-! # Answers come in order

The worker serves one task after another, so the calls to the users are those of the first
task served, then those of the second, and so on. Each task has the string for its result to
itself: what the callback gets is what the first callable of the same task has left there.
-/

namespace QyUtil.Async

open Runs Loops Outcome Bytes TaskQueue Dns Diagnosis

universe u v

section Steps

variable {κ : Type} {π : Type u} [DecidableEq π] {s s' : State κ π} {memory : Memory}
  {q q' : Locking.State 1 (Callable κ) π}

theorem queueStep_eq_ok {a : Locking.Action 1 (Callable κ) π}
    {f : Locking.State 1 (Callable κ) π → State κ π} (h : queueStep q a f = some (.ok s')) :
    ∃ q', Locking.step q a = some (.ok q') ∧ s' = f q' := by
  obtain ⟨r, hr, he⟩ := Option.map_eq_some_iff.mp h
  cases r with
  | error e => cases he
  | ok q' =>
    cases he
    exact ⟨q', hr, rfl⟩

def taking {φ : Type v} : Locking.Stage φ → List (Job φ)
  | .atUnlock job | .out (.holding job) | .out (.inFirst job) => [job]
  | _ => []

def finishing {φ : Type v} : Locking.Stage φ → Option (Job φ)
  | .out (.afterFirst job) | .out (.inSecond job) => some job
  | _ => none

/-- A step of the queue that neither begins a call nor ends a callable. -/
inductive Between (q : Locking.State 1 (Callable κ) π) :
    Locking.State 1 (Callable κ) π → Prop where

  | push (p : π) (task : QYUtilTask (Callable κ)) (hp : q.producer p = .atPush task) :
    Between q ((q.push task).producerTo p .atNotify)

  | pop (job : Job (Callable κ)) (rest : List (Job (Callable κ))) (hw : q.worker theWorker = .atPop)
    (hq : q.msgQueue = job :: rest) :
    Between q ((q.pop theWorker job rest).workerTo theWorker (.atUnlock job))

  | skip (job : Job (Callable κ)) (q' : Locking.State 1 (Callable κ) π)
    (hw : job ∈ taking (q.worker theWorker) ∧ job.task.first = none ∨
      finishing (q.worker theWorker) = some job ∧ job.task.second = none) : Between q q'

  | quiet (q' : Locking.State 1 (Callable κ) π) (henqueued : q'.enqueued = q.enqueued)
    (hdequeued : q'.dequeued = q.dequeued)
    (hproducer : ∀ p task, q'.producer p = .atPush task ↔ q.producer p = .atPush task)
    (htaking : taking (q'.worker theWorker) = taking (q.worker theWorker))
    (hfinishing : finishing (q'.worker theWorker) = finishing (q.worker theWorker)) : Between q q'

inductive Moved (s : State κ π) : Action κ π → State κ π → Prop where

  | call (p : π) (r : Request κ) (task : QYUtilTask (Callable κ))
    (q : Locking.State 1 (Callable κ) π)
    (ht : r.task s.memory s.queue.enqueued.length = done task)
    (hq : Locking.step s.queue (.lockPut p task) = some (.ok q)) :
    Moved s (.call p r) { s with
      queue := q
      requests := Function.update s.requests s.queue.enqueued.length (some (r, s.memory)) }

  | thread (a : Locking.Action 1 (Callable κ) π) (q : Locking.State 1 (Callable κ) π)
    (hm : (Locking.machine 1 (Callable κ) π).Moves s.queue q) (hq : Between s.queue q) :
    Moved s (.thread a) { s with queue := q }

  | first (job : Job (Callable κ)) (c : Callable κ) (w : World)
    (r : (ℕ → Bytes) × List (Delivery κ)) (q : Locking.State 1 (Callable κ) π)
    (hw : s.queue.worker theWorker = .out (.inFirst job)) (hc : job.task.first = some c)
    (hr : c.run s.memory w s.results = done r)
    (hm : (Locking.machine 1 (Callable κ) π).Moves s.queue q)
    (hq : q = (s.queue.mark theWorker [⟨job.number, .first, .returns⟩]).workerTo theWorker
      (.out (.afterFirst job))) :
    Moved s (.returns w) { s with
      queue := q
      results := r.1
      delivered := s.delivered ++ r.2
      served := s.served ++ [⟨job, s.memory, w⟩] }

  | second (job : Job (Callable κ)) (c : Callable κ) (w : World)
    (r : (ℕ → Bytes) × List (Delivery κ)) (q : Locking.State 1 (Callable κ) π)
    (hw : s.queue.worker theWorker = .out (.inSecond job)) (hc : job.task.second = some c)
    (hr : c.run s.memory w s.results = done r)
    (hm : (Locking.machine 1 (Callable κ) π).Moves s.queue q)
    (hq : q = (s.queue.mark theWorker [⟨job.number, .second, .returns⟩]).workerTo theWorker
      (.out .idle)) :
    Moved s (.returns w) { s with queue := q, results := r.1, delivered := s.delivered ++ r.2 }

  | store (p : Pointer) (t : Option Bytes) :
    Moved s (.store p t) { s with memory := Function.update s.memory p t }

theorem Between.moveWorker {q₁ : Locking.State 1 (Callable κ) π} {w : Fin 1}
    {x : Locking.Stage (Callable κ)} (henqueued : q₁.enqueued = q.enqueued)
    (hdequeued : q₁.dequeued = q.dequeued) (hproducer : q₁.producer = q.producer)
    (htaking : taking x = taking (q.worker w)) (hfinishing : finishing x = finishing (q.worker w)) :
    Between q (q₁.workerTo w x) := by
  obtain rfl := Subsingleton.elim w theWorker
  exact .quiet _ henqueued hdequeued (fun p task => hproducer ▸ Iff.rfl)
    (by rw [Locking.State.workerTo_self, htaking])
    (by rw [Locking.State.workerTo_self, hfinishing])

theorem Between.moveProducer {q₁ : Locking.State 1 (Callable κ) π} {p : π}
    {x : Locking.Call (Callable κ)} (henqueued : q₁.enqueued = q.enqueued)
    (hdequeued : q₁.dequeued = q.dequeued) (hproducer : q₁.producer = q.producer)
    (htaking : taking (q₁.worker theWorker) = taking (q.worker theWorker))
    (hfinishing : finishing (q₁.worker theWorker) = finishing (q.worker theWorker))
    (hp : ∀ task, q.producer p ≠ .atPush task) (hx : ∀ task, x ≠ .atPush task) :
    Between q (q₁.producerTo p x) := by
  refine .quiet _ henqueued hdequeued (fun p' task => ?_) htaking hfinishing
  rcases eq_or_ne p' p with rfl | hne
  · rw [Locking.State.producerTo_self]
    exact iff_of_false (hx task) (hp task)
  · rw [← hproducer]
    simp [Locking.State.producerTo, hne]

theorem taking_notify (x : Phase (Callable κ)) :
    taking (.out x.notify) = taking (.out x) ∧ finishing (.out x.notify) = finishing (.out x) := by
  cases x <;> exact ⟨rfl, rfl⟩

theorem between_advance {x y : Phase (Callable κ)} {l : List Mark} {w : Fin 1}
    (hw : q.worker w = .out x) (hx : x.advance = some (y, l))
    (hfirst : ∀ job, x = .inFirst job → job.task.first = none)
    (hsecond : ∀ job, x = .inSecond job → job.task.second = none) :
    Between q ((q.mark w l).workerTo w (.out y)) := by
  obtain rfl := Subsingleton.elim w theWorker
  cases x with
  | idle => cases hx
  | waiting n => cases hx
  | holding job =>
    by_cases hjob : job.task.first = none
    · exact .skip job _ (.inl ⟨by simp [hw, taking], hjob⟩)
    · simp only [Phase.advance, Option.isSome_iff_ne_none, ne_eq, hjob, not_false_eq_true,
        if_true] at hx
      cases hx
      exact .moveWorker rfl rfl rfl (by rw [hw]; rfl) (by rw [hw]; rfl)
  | inFirst job => exact .skip job _ (.inl ⟨by simp [hw, taking], hfirst job rfl⟩)
  | afterFirst job =>
    by_cases hjob : job.task.second = none
    · exact .skip job _ (.inr ⟨by simp [hw, finishing], hjob⟩)
    · simp only [Phase.advance, Option.isSome_iff_ne_none, ne_eq, hjob, not_false_eq_true,
        if_true] at hx
      cases hx
      exact .moveWorker rfl rfl rfl (by rw [hw]; rfl) (by rw [hw]; rfl)
  | inSecond job => exact .skip job _ (.inr ⟨by simp [hw, finishing], hsecond job rfl⟩)

theorem between_of_step {a : Locking.Action 1 (Callable κ) π}
    (h : Locking.step q a = some (.ok q')) (ha : ∀ p task, a ≠ .lockPut p task)
    (hfirst : ∀ w, a = .advance w → ∀ job, q.worker theWorker = .out (.inFirst job) →
      job.task.first = none)
    (hsecond : ∀ w, a = .advance w → ∀ job, q.worker theWorker = .out (.inSecond job) →
      job.task.second = none) : Between q q' := by
  cases a with
  | lockPut p task => exact absurd rfl (ha p task)
  | push p =>
    simp only [Locking.step] at h
    split at h <;> cases h
    exact .push p _ ‹_›
  | notifyAll p =>
    simp only [Locking.step] at h
    split at h <;> cases h
    rename_i hp
    have hnotified : taking (q.notifyAll.worker theWorker) = taking (q.worker theWorker) ∧
        finishing (q.notifyAll.worker theWorker) = finishing (q.worker theWorker) := by
      simp only [Locking.State.notifyAll]
      split
      · rename_i x hx
        rw [hx]
        exact taking_notify x
      · exact ⟨rfl, rfl⟩
    exact .moveProducer rfl rfl rfl hnotified.1 hnotified.2 (by simp [hp]) (by simp)
  | unlockPut p =>
    simp only [Locking.step] at h
    split at h <;> cases h
    rename_i hp
    exact .moveProducer rfl rfl rfl rfl rfl (by simp [hp]) (by simp)
  | lock w =>
    simp only [Locking.step] at h
    split at h <;> cases h
    rename_i hw
    exact .moveWorker rfl rfl rfl (by rw [hw]; rfl) (by rw [hw]; rfl)
  | test w =>
    simp only [Locking.step] at h
    split at h <;> cases h <;> rename_i hw <;> split_ifs <;>
      exact .moveWorker rfl rfl rfl (by rw [hw]; rfl) (by rw [hw]; rfl)
  | sleep w =>
    simp only [Locking.step] at h
    split at h <;> cases h
    rename_i hw
    exact .moveWorker rfl rfl rfl (by rw [hw]; rfl) (by rw [hw]; rfl)
  | spuriousWake w =>
    simp only [Locking.step] at h
    split at h <;> cases h
    rename_i hw
    exact .moveWorker rfl rfl rfl (by rw [hw]; rfl) (by rw [hw]; rfl)
  | reacquire w =>
    simp only [Locking.step] at h
    split at h <;> cases h
    rename_i hw
    exact .moveWorker rfl rfl rfl (by rw [hw]; rfl) (by rw [hw]; rfl)
  | pop w =>
    obtain rfl := Subsingleton.elim w theWorker
    simp only [Locking.step] at h
    split at h
    · cases hq : q.msgQueue with
      | nil => simp [Locking.popStep, hq, front] at h
      | cons job rest =>
        simp only [Locking.popStep, hq, front, popFront] at h
        cases h
        exact .pop job rest ‹_› hq
    · cases h
  | unlock w =>
    simp only [Locking.step] at h
    split at h <;> cases h
    rename_i hw
    exact .moveWorker rfl rfl rfl (by rw [hw]; rfl) (by rw [hw]; rfl)
  | advance w =>
    obtain rfl := Subsingleton.elim w theWorker
    simp only [Locking.step] at h
    split at h
    · rename_i x hx
      obtain ⟨⟨y, l⟩, hadv, he⟩ := Option.map_eq_some_iff.mp h
      cases he
      exact between_advance hx hadv (fun job hj => hfirst theWorker rfl job (hj ▸ hx))
        fun job hj => hsecond theWorker rfl job (hj ▸ hx)
    · cases h

omit [DecidableEq π] in
theorem running_cases {job : Job (Callable κ)} {c : Callable κ} (h : s.running = some (job, c)) :
    s.queue.worker theWorker = .out (.inFirst job) ∧ job.task.first = some c ∨
      s.queue.worker theWorker = .out (.inSecond job) ∧ job.task.second = some c := by
  simp only [State.running] at h
  split at h
  · obtain ⟨c', hc, he⟩ := Option.map_eq_some_iff.mp h
    cases he
    exact .inl ⟨‹_›, hc⟩
  · obtain ⟨c', hc, he⟩ := Option.map_eq_some_iff.mp h
    cases he
    exact .inr ⟨‹_›, hc⟩
  · cases h

theorem step_cases {a : Action κ π} (h : step s a = some (.ok s')) :
    Moved s a s' := by
  cases a with
  | call p r =>
    simp only [step] at h
    split at h
    · cases h
    · cases h
    · obtain ⟨q, hq, rfl⟩ := queueStep_eq_ok h
      exact .call p r _ q ‹_› hq
  | thread a =>
    simp only [step] at h
    split at h
    · cases h
    · cases h
    · rename_i a' x hlock hadvance
      obtain ⟨q, hq, rfl⟩ := queueStep_eq_ok h
      refine .thread _ q ⟨_, hq⟩ (between_of_step hq (fun p task => hlock p task) ?_ ?_)
      · rintro w rfl job hw
        by_contra hne
        obtain ⟨c, hc⟩ := Option.ne_none_iff_exists'.mp hne
        exact hadvance w (job, c) rfl (by simp [State.running, hw, hc])
      · rintro w rfl job hw
        by_contra hne
        obtain ⟨c, hc⟩ := Option.ne_none_iff_exists'.mp hne
        exact hadvance w (job, c) rfl (by simp [State.running, hw, hc])
  | returns w =>
    simp only [step] at h
    split at h
    · cases h
    rename_i job c hrunning
    split at h
    · cases h
    · cases h
    rename_i r hr
    obtain ⟨q, hq, rfl⟩ := queueStep_eq_ok h
    rcases running_cases hrunning with ⟨hw, hc⟩ | ⟨hw, hc⟩
    · have hnext := hq
      simp only [Locking.step, hw, Phase.advance, Option.map_some, Option.some.injEq,
        Except.ok.injEq] at hnext
      simpa only [State.record, hw] using
        Moved.first job c w r q hw hc hr ⟨.advance theWorker, hq⟩ hnext.symm
    · have hnext := hq
      simp only [Locking.step, hw, Phase.advance, Option.map_some, Option.some.injEq,
        Except.ok.injEq] at hnext
      simpa only [State.record, hw] using
        Moved.second job c w r q hw hc hr ⟨.advance theWorker, hq⟩ hnext.symm
  | store p t =>
    cases h
    exact .store p t

end Steps

variable {κ : Type} {π : Type u}

/-- A task has the shape that its request gave it. -/
inductive Shape (number : ℕ) : QYUtilTask (Callable κ) → Prop where

  | native (f : Native) (cb : Option κ) : Shape number (asyncNative f cb number)

  | diagnosis (host dnsSer : Bytes) (cb : Option κ) (p : Option Pointer) :
    Shape number ⟨some (.networkDiagnosis host dnsSer cb), some (.copyHost p)⟩

theorem Request.shape {r : Request κ} {m : Memory} {number : ℕ} {task : QYUtilTask (Callable κ)}
    (h : r.task m number = done task) : Shape number task := by
  cases r with
  | getHostNameByServer hostName timeout dnsServer cb =>
    obtain rfl := done.inj h
    exact .native _ _
  | ping host times packageSize interval timeout cb =>
    obtain rfl := done.inj h
    exact .native _ _
  | traceRouter host cb =>
    obtain rfl := done.inj h
    exact .native _ _
  | networkDiagnosis host dnsSer cb =>
    obtain ⟨_, -, h⟩ := bind_eq_done.mp h
    obtain ⟨_, -, h⟩ := bind_eq_done.mp h
    obtain rfl := done.inj h
    exact .diagnosis _ _ _ _

def Served.text (e : Served κ) : Bytes :=
  match e.job.task.first with
  | some (.native f _) => match f.call e.memory e.world newResult with
    | .done text => text
    | _ => newResult
  | _ => newResult

def Served.Ran (e : Served κ) : Prop :=
  ∃ c r, e.job.task.first = some c ∧ c.run e.memory e.world (fun _ => newResult) = done r

def Served.first (e : Served κ) : List (Delivery κ) :=
  match e.job.task.first with
  | some (.networkDiagnosis host dnsSer cb) => match runDiagnosis e.world host dnsSer cb with
    | .done calls => calls
    | _ => []
  | _ => []

def secondOf (job : Job (Callable κ)) (results : ℕ → Bytes) : List (Delivery κ) :=
  job.task.second.elim [] (Callable.hands results)

/-- All that is handed over for a task. -/
def Served.deliveries (e : Served κ) : List (Delivery κ) :=
  e.first ++ secondOf e.job fun _ => e.text

/-- What the worker has still to hand over. -/
def State.pending (s : State κ π) : List (Delivery κ) :=
  (finishing (s.queue.worker theWorker)).elim [] fun job => secondOf job s.results

/-- This task was asked for. -/
def State.Asked (s : State κ π) (number : ℕ) (task : QYUtilTask (Callable κ)) : Prop :=
  ∃ r m, s.requests number = some (r, m) ∧ r.task m number = done task

variable [DecidableEq π] {s s' : State κ π} {memory : Memory}

/-- What holds of the requests, the results and the calls between any two steps. -/
structure Inv (s : State κ π) : Prop where
  queue : (Locking.machine 1 (Callable κ) π).Reachable s.queue
  asked : ∀ job ∈ s.queue.enqueued, s.Asked job.number job.task
  putting : ∀ p task, s.queue.producer p = .atPush task →
    s.Asked s.queue.enqueued.length task
  taken : s.queue.dequeued.map Prod.snd =
    s.served.map Served.job ++ taking (s.queue.worker theWorker)
  last : ∀ job, finishing (s.queue.worker theWorker) = some job → job ∈ s.served.map Served.job
  ran : ∀ e ∈ s.served, e.Ran
  texts : ∀ e ∈ s.served, s.results e.job.number = e.text
  fresh : ∀ k, k ∉ s.served.map (·.job.number) → s.results k = newResult
  handed : s.delivered ++ s.pending = s.served.flatMap Served.deliveries

theorem init_inv : Inv (init memory : State κ π) where
  queue := (Locking.machine 1 (Callable κ) π).reachable_start
  asked _ h := absurd h List.not_mem_nil
  putting _ _ h := by cases h
  taken := rfl
  last _ h := by cases h
  ran _ h := absurd h List.not_mem_nil
  texts _ h := absurd h List.not_mem_nil
  fresh _ _ := rfl
  handed := rfl

theorem Inv.enqueued_eq (h : Inv s) :
    s.queue.enqueued = s.queue.dequeued.map Prod.snd ++ s.queue.msgQueue := by
  obtain ⟨t, ht, hr⟩ := Locking.exists_sound h.queue
  rw [← hr.enqueued, ← hr.dequeued, ← hr.msgQueue]
  exact ht.fifo

theorem Inv.numbered (h : Inv s) :
    s.queue.enqueued.map Job.number = List.range s.queue.enqueued.length := by
  obtain ⟨t, ht, hr⟩ := Locking.exists_sound h.queue
  rw [← hr.enqueued]
  exact ht.numbered

theorem Inv.number_lt (h : Inv s) {job : Job (Callable κ)} (hj : job ∈ s.queue.enqueued) :
    job.number < s.queue.enqueued.length := by
  rw [← List.mem_range, ← h.numbered]
  exact List.mem_map_of_mem hj

theorem Inv.mem_enqueued (h : Inv s) {job : Job (Callable κ)}
    (hj : job ∈ s.served.map Served.job ++ taking (s.queue.worker theWorker)) :
    job ∈ s.queue.enqueued := by
  rw [h.enqueued_eq, h.taken]
  exact List.mem_append_left _ hj

theorem Inv.shape (h : Inv s) {job : Job (Callable κ)}
    (hj : job ∈ s.served.map Served.job ++ taking (s.queue.worker theWorker)) :
    Shape job.number job.task := by
  obtain ⟨r, m, -, ht⟩ := h.asked job (h.mem_enqueued hj)
  exact Request.shape ht

theorem Inv.number_notMem (h : Inv s) {job : Job (Callable κ)}
    (hj : taking (s.queue.worker theWorker) = [job]) :
    job.number ∉ s.served.map (·.job.number) := by
  have hn := congrArg (List.map Job.number) h.enqueued_eq
  rw [h.numbered, h.taken, hj] at hn
  have hnodup := hn ▸ List.nodup_range
  simp only [List.map_append, List.append_assoc, List.map_map] at hnodup
  have hdisjoint := (List.nodup_append.mp hnodup).2.2
  intro hmem
  exact hdisjoint _ hmem _ (by simp) rfl

theorem Inv.call (h : Inv s) {p : π} {r : Request κ} {task : QYUtilTask (Callable κ)}
    {q : Locking.State 1 (Callable κ) π}
    (ht : r.task s.memory s.queue.enqueued.length = done task)
    (hq : Locking.step s.queue (.lockPut p task) = some (.ok q)) :
    Inv { s with
      queue := q
      requests := Function.update s.requests s.queue.enqueued.length (some (r, s.memory)) } := by
  have hqueue := h.queue.tail ⟨.lockPut p task, hq⟩
  simp only [Locking.step] at hq
  split at hq <;> cases hq
  rename_i howner hp
  exact {
    queue := hqueue
    asked := fun job hj => by
      obtain ⟨r', m, hr, ht'⟩ := h.asked job hj
      exact ⟨r', m, (Function.update_of_ne (h.number_lt hj).ne ..).trans hr, ht'⟩
    putting := fun p' task' hp' => by
      rcases eq_or_ne p' p with rfl | hne
      · rw [Locking.State.producerTo_self] at hp'
        cases hp'
        exact ⟨r, s.memory, Function.update_self .., ht⟩
      · -- nobody else is inside, since the mutex was free
        have hp'' : s.queue.producer p' = .atPush task' := by
          simpa [Locking.State.producerTo, Locking.State.lock, hne] using hp'
        have hg := (Locking.reachable_guarded h.queue).producers p'
        rw [hp'', howner] at hg
        simp at hg
    taken := h.taken
    last := h.last
    ran := h.ran
    texts := h.texts
    fresh := h.fresh
    handed := h.handed }

theorem Inv.push (h : Inv s) {p : π} {task : QYUtilTask (Callable κ)}
    (hp : s.queue.producer p = .atPush task)
    (hqueue : (Locking.machine 1 (Callable κ) π).Reachable
      ((s.queue.push task).producerTo p .atNotify)) :
    Inv { s with queue := (s.queue.push task).producerTo p .atNotify } where
  queue := hqueue
  asked job hj := by
    rcases List.mem_append.mp hj with hj | hj
    · exact h.asked job hj
    · obtain rfl := List.mem_singleton.mp hj
      exact h.putting p task hp
  putting p' task' hp' := by
    rcases eq_or_ne p' p with rfl | hne
    · rw [Locking.State.producerTo_self] at hp'
      cases hp'
    · have hp'' : s.queue.producer p' = .atPush task' := by
        simpa [Locking.State.producerTo, Locking.State.push, hne] using hp'
      have hg := Locking.reachable_guarded h.queue
      have howner := (hg.producers p).mp (by simp [hp])
      rw [(hg.producers p').mp (by simp [hp''])] at howner
      exact absurd (by simpa using howner) hne
  taken := h.taken
  last := h.last
  ran := h.ran
  texts := h.texts
  fresh := h.fresh
  handed := h.handed

theorem Inv.pop (h : Inv s) {job : Job (Callable κ)} {rest : List (Job (Callable κ))}
    (hw : s.queue.worker theWorker = .atPop)
    (hqueue : (Locking.machine 1 (Callable κ) π).Reachable
      ((s.queue.pop theWorker job rest).workerTo theWorker (.atUnlock job))) :
    Inv { s with
      queue := (s.queue.pop theWorker job rest).workerTo theWorker (.atUnlock job) } where
  queue := hqueue
  asked := h.asked
  putting := h.putting
  taken := by
    have htaking : taking (s.queue.worker theWorker) = [] := by rw [hw]; rfl
    have htaken := h.taken
    rw [htaking, List.append_nil] at htaken
    rw [Locking.State.workerTo_self]
    show (s.queue.dequeued ++ [(theWorker, job)]).map Prod.snd = _
    rw [List.map_append, htaken]
    rfl
  last job' hj := by
    rw [Locking.State.workerTo_self] at hj
    cases hj
  ran := h.ran
  texts := h.texts
  fresh := h.fresh
  handed := by
    have hhanded := h.handed
    simp only [State.pending, hw, finishing, Option.elim_none] at hhanded
    simpa only [State.pending, Locking.State.workerTo_self, finishing, Option.elim_none]

theorem Inv.quiet (h : Inv s) {q : Locking.State 1 (Callable κ) π}
    (henqueued : q.enqueued = s.queue.enqueued) (hdequeued : q.dequeued = s.queue.dequeued)
    (hproducer : ∀ p task, q.producer p = .atPush task ↔ s.queue.producer p = .atPush task)
    (htaking : taking (q.worker theWorker) = taking (s.queue.worker theWorker))
    (hfinishing : finishing (q.worker theWorker) = finishing (s.queue.worker theWorker))
    (hqueue : (Locking.machine 1 (Callable κ) π).Reachable q) : Inv { s with queue := q } where
  queue := hqueue
  asked job hj := h.asked job (henqueued ▸ hj)
  putting p task hp := by
    rw [henqueued]
    exact h.putting p task ((hproducer p task).mp hp)
  taken := by rw [hdequeued, htaking, h.taken]
  last job hj := h.last job (hfinishing ▸ hj)
  ran := h.ran
  texts := h.texts
  fresh := h.fresh
  handed := by
    simp only [State.pending, hfinishing]
    exact h.handed

theorem Shape.isSome {number : ℕ} {task : QYUtilTask (Callable κ)} (h : Shape number task) :
    task.first ≠ none ∧ task.second ≠ none := by
  cases h <;> exact ⟨nofun, nofun⟩

theorem Inv.thread (h : Inv s) {q : Locking.State 1 (Callable κ) π}
    (hm : (Locking.machine 1 (Callable κ) π).Moves s.queue q) (hq : Between s.queue q) :
    Inv { s with queue := q } := by
  have hqueue := h.queue.tail hm
  cases hq with
  | push p task hp => exact h.push hp hqueue
  | pop job rest hw _ => exact h.pop hw hqueue
  | skip job _ hw =>
    rcases hw with ⟨hw, hnone⟩ | ⟨hw, hnone⟩
    · exact absurd hnone (h.shape (List.mem_append_right _ hw)).isSome.1
    · exact absurd hnone (h.shape (List.mem_append_left _ (h.last job hw))).isSome.2
  | quiet _ henqueued hdequeued hproducer htaking hfinishing =>
    exact h.quiet henqueued hdequeued hproducer htaking hfinishing hqueue

/-- The first callable of a task returns. What it leaves and hands over is what it would with
a new string for the result. -/
theorem Shape.run_first {job : Job (Callable κ)} (hs : Shape job.number job.task)
    {c : Callable κ} (hc : job.task.first = some c) {m : Memory} {w : World}
    {results : ℕ → Bytes} (hnew : results job.number = newResult)
    {r : (ℕ → Bytes) × List (Delivery κ)} (hr : c.run m w results = done r) :
    Served.Ran ⟨job, m, w⟩ ∧
      r.1 = Function.update results job.number (Served.text ⟨job, m, w⟩) ∧
      r.2 = Served.first ⟨job, m, w⟩ := by
  obtain ⟨number, task⟩ := job
  dsimp only at hs hc hnew ⊢
  cases hs with
  | native f cb =>
    cases hc
    obtain ⟨text, htext, hr⟩ := bind_eq_done.mp hr
    obtain rfl := done.inj hr
    rw [hnew] at htext
    refine ⟨⟨_, _, rfl, bind_eq_done.mpr ⟨text, htext, rfl⟩⟩, ?_⟩
    simp only [Served.text, Served.first, asyncNative, htext, and_self]
  | diagnosis host dnsSer cb p =>
    cases hc
    obtain ⟨calls, hcalls, hr⟩ := bind_eq_done.mp hr
    obtain rfl := done.inj hr
    refine ⟨⟨_, _, rfl, bind_eq_done.mpr ⟨calls, hcalls, rfl⟩⟩, ?_⟩
    simp only [Served.text, Served.first, hcalls, ← hnew, Function.update_eq_self, and_self]

theorem Shape.run_second {number : ℕ} {task : QYUtilTask (Callable κ)} (hs : Shape number task)
    {c : Callable κ} (hc : task.second = some c) {m : Memory} {w : World} {results : ℕ → Bytes}
    {r : (ℕ → Bytes) × List (Delivery κ)} (hr : c.run m w results = done r) :
    r.1 = results ∧ r.2 = c.hands results := by
  cases hs with
  | native f cb =>
    cases hc
    obtain rfl := done.inj hr
    exact ⟨rfl, rfl⟩
  | diagnosis host dnsSer cb p =>
    cases hc
    obtain ⟨_, -, hr⟩ := bind_eq_done.mp hr
    obtain rfl := done.inj hr
    exact ⟨rfl, rfl⟩

theorem Shape.secondOf_congr {job : Job (Callable κ)} (hs : Shape job.number job.task)
    {results results' : ℕ → Bytes} (h : results job.number = results' job.number) :
    secondOf job results = secondOf job results' := by
  obtain ⟨number, task⟩ := job
  dsimp only at hs h
  cases hs with
  | native f cb => cases cb <;> simp [secondOf, asyncNative, Callable.hands, h]
  | diagnosis host dnsSer cb p => rfl

theorem Inv.first (h : Inv s) {job : Job (Callable κ)} {c : Callable κ} {w : World}
    {r : (ℕ → Bytes) × List (Delivery κ)} {q : Locking.State 1 (Callable κ) π}
    (hw : s.queue.worker theWorker = .out (.inFirst job)) (hc : job.task.first = some c)
    (hr : c.run s.memory w s.results = done r)
    (hm : (Locking.machine 1 (Callable κ) π).Moves s.queue q)
    (hq : q = (s.queue.mark theWorker [⟨job.number, .first, .returns⟩]).workerTo theWorker
      (.out (.afterFirst job))) :
    Inv { s with
      queue := q
      results := r.1
      delivered := s.delivered ++ r.2
      served := s.served ++ [⟨job, s.memory, w⟩] } := by
  have hqueue := h.queue.tail hm
  have htaking : taking (s.queue.worker theWorker) = [job] := by rw [hw]; rfl
  have hshape : Shape job.number job.task := h.shape (by simp [htaking])
  have hnumber := h.number_notMem htaking
  obtain ⟨hran, hresults, hcalls⟩ := hshape.run_first hc (h.fresh _ hnumber) hr
  have hworker : q.worker theWorker = .out (.afterFirst job) := by
    rw [hq, Locking.State.workerTo_self]
  subst hq
  exact {
    queue := hqueue
    asked := h.asked
    putting := h.putting
    taken := by
      have htaken := h.taken
      rw [htaking] at htaken
      have htaking' : taking (.out (.afterFirst job)) = ([] : List (Job (Callable κ))) := rfl
      rw [hworker, List.map_append, List.map_singleton, htaking', List.append_nil]
      exact htaken
    last := fun job' hj => by
      rw [hworker] at hj
      cases hj
      simp
    ran := fun e he => by
      rcases List.mem_append.mp he with he | he
      · exact h.ran e he
      · obtain rfl := List.mem_singleton.mp he
        exact hran
    texts := fun e he => by
      show r.1 e.job.number = e.text
      rcases List.mem_append.mp he with he | he
      · have hne : e.job.number ≠ job.number := by
          intro heq
          exact hnumber (heq ▸ List.mem_map_of_mem he)
        rw [hresults, Function.update_of_ne hne, h.texts e he]
      · obtain rfl := List.mem_singleton.mp he
        rw [hresults, Function.update_self]
    fresh := fun k hk => by
      rw [List.map_append, List.mem_append, not_or] at hk
      have hne : k ≠ job.number := by
        rintro rfl
        exact hk.2 (List.mem_singleton.mpr rfl)
      show r.1 k = newResult
      rw [hresults, Function.update_of_ne hne, h.fresh k hk.1]
    handed := by
      have hhanded := h.handed
      simp only [State.pending, hw, finishing, Option.elim_none, List.append_nil] at hhanded
      simp only [State.pending, hworker, finishing, Option.elim_some, List.flatMap_append,
        List.flatMap_singleton, Served.deliveries, hcalls, ← hhanded, List.append_assoc]
      have hsecond : secondOf job r.1 = secondOf job fun _ => Served.text ⟨job, s.memory, w⟩ :=
        hshape.secondOf_congr (by rw [hresults, Function.update_self])
      rw [hsecond] }

theorem Inv.second (h : Inv s) {job : Job (Callable κ)} {c : Callable κ} {w : World}
    {r : (ℕ → Bytes) × List (Delivery κ)} {q : Locking.State 1 (Callable κ) π}
    (hw : s.queue.worker theWorker = .out (.inSecond job)) (hc : job.task.second = some c)
    (hr : c.run s.memory w s.results = done r)
    (hm : (Locking.machine 1 (Callable κ) π).Moves s.queue q)
    (hq : q = (s.queue.mark theWorker [⟨job.number, .second, .returns⟩]).workerTo theWorker
      (.out .idle)) :
    Inv { s with queue := q, results := r.1, delivered := s.delivered ++ r.2 } := by
  have hqueue := h.queue.tail hm
  have hfinishing : finishing (s.queue.worker theWorker) = some job := by rw [hw]; rfl
  have hshape := h.shape (List.mem_append_left _ (h.last job hfinishing))
  obtain ⟨hresults, hcalls⟩ := hshape.run_second hc hr
  have hworker : q.worker theWorker = .out .idle := by rw [hq, Locking.State.workerTo_self]
  subst hq
  exact {
    queue := hqueue
    asked := h.asked
    putting := h.putting
    taken := by
      have htaken := h.taken
      rw [hw] at htaken
      rw [hworker]
      exact htaken
    last := fun job' hj => by
      rw [hworker] at hj
      cases hj
    ran := h.ran
    texts := fun e he => by rw [hresults, h.texts e he]
    fresh := fun k hk => by rw [hresults, h.fresh k hk]
    handed := by
      have hhanded := h.handed
      simp only [State.pending, hfinishing, Option.elim_some, secondOf, hc] at hhanded
      simp only [State.pending, hworker, finishing, Option.elim_none, List.append_nil, hcalls,
        hhanded] }

theorem Moved.inv {a : Action κ π} (hm : Moved s a s') (h : Inv s) : Inv s' := by
  cases hm with
  | call p r task q ht hq => exact h.call ht hq
  | thread a q hm hq => exact h.thread hm hq
  | first job c w r q hw hc hr hm hq => exact h.first hw hc hr hm hq
  | second job c w r q hw hc hr hm hq => exact h.second hw hc hr hm hq
  | store p t => exact { h with }

theorem reachable_inv (h : (machine memory κ π).Reachable s) : Inv s :=
  h.invariant init_inv fun _ _ ⟨_, ha⟩ => (step_cases ha).inv

omit [DecidableEq π]

def textTo (cb : Option κ) (text : Bytes) : List (Delivery κ) :=
  cb.elim [] fun cb => [.text cb true text]

/-- What a request is answered, when its task finds this memory and meets this world. `asked`
is the memory at the time of the request. A traced route is never answered. -/
inductive Answers (found : Memory) (w : World) (asked : Memory) :
    Request κ → List (Delivery κ) → Prop where

  /-- the addresses of the lookup, or nothing if there are none -/
  | lookup {hostName dnsServer : Option Pointer} {host dns : Option Bytes} {r : Lookup}
    {info : SocketIpInfo} {as : List Net.Address} (timeout : ℤ) (cb : Option κ)
    (hhost : found.readOptional hostName = done host)
    (hdns : found.readOptional (if host.isSome then dnsServer else none) = done dns)
    (hr : socketGethostbyname w.fuel w.net host (some emptyInfo) 1000 dns = done r)
    (has : Contract r info as) :
    Answers found w asked (.getHostNameByServer hostName timeout dnsServer cb)
      (textTo cb (joinedAddresses as))

  /-- nothing, after all pings -/
  | ping {host : Option Pointer} {times packageSize interval : ℤ} (timeout : ℤ) (cb : Option κ)
    (h : nativePing found w host times packageSize interval newResult = done newResult) :
    Answers found w asked (.ping host times packageSize interval timeout cb) (textTo cb [])

  /-- the calls of a diagnosis of the host that was asked for -/
  | networkDiagnosis {host dnsSer : Option Pointer} {_host : Bytes} {_dnsSer : Option Bytes}
    {cb : Option κ} {calls : List (Delivery κ)} (hhost : asked.readString host = done _host)
    (hdnsSer : asked.readOptional dnsSer = done _dnsSer)
    (hcalls : runDiagnosis w _host (cString (_dnsSer.getD [])) cb = done calls) :
    Answers found w asked (.networkDiagnosis host dnsSer cb) calls

theorem cString_newResult : cString newResult = [] := cString_zeros 4096

theorem length_newResult : newResult.length = 4096 := List.length_replicate

theorem nativeLookup_done {m : Memory} {w : World} {hostName dnsServer : Option Pointer}
    {timeout ret : ℤ} {text : Bytes}
    (h : nativeLookup m w hostName timeout dnsServer newResult = done (ret, text)) :
    ∃ host dns r info as, m.readOptional hostName = done host ∧
      m.readOptional (if host.isSome then dnsServer else none) = done dns ∧
      socketGethostbyname w.fuel w.net host (some emptyInfo) 1000 dns = done r ∧
      Contract r info as ∧ cString text = joinedAddresses as ∧ text.length = 4096 := by
  obtain ⟨host, hhost, h⟩ := bind_eq_done.mp h
  obtain ⟨dns, hdns, h⟩ := bind_eq_done.mp h
  have hjoined := liftFault_eq_done.mp h
  obtain ⟨r, hr, -⟩ := bind_eq_done.mp hjoined
  have hr := liftFault_eq_done.mp hr
  obtain ⟨info, as, hc⟩ := lookup_contract rfl hr
  rw [nativeGetHostNameByServer_done hr hc newResult] at hjoined
  obtain ⟨-, rfl⟩ := Prod.mk.inj (done.inj hjoined)
  refine ⟨host, dns, r, info, as, hhost, hdns, hr, hc, ?_⟩
  split_ifs with hret
  · have hne := hc.success.mp hret
    have hlen := length_joinedAddresses hne hc.holds.le
    refine ⟨?_, ?_⟩
    · rw [writeAt, List.take_zero, List.nil_append, List.append_assoc]
      exact cString_append_zero (zero_notMem_joinedAddresses hne) _
    · rw [length_writeAt (by rw [length_newResult, List.length_append]; simp; omega),
        length_newResult]
  · obtain rfl : as = [] := not_not.mp (mt hc.success.mpr hret)
    exact ⟨cString_newResult, length_newResult⟩

theorem nativePing_done {m : Memory} {w : World} {host : Option Pointer}
    {times packageSize interval : ℤ} {result text : Bytes}
    (h : nativePing m w host times packageSize interval result = done text) :
    text = result := by
  obtain ⟨_, -, h⟩ := bind_eq_done.mp h
  obtain ⟨_, -, h⟩ := bind_eq_done.mp h
  obtain ⟨_, -, h⟩ := bind_eq_done.mp h
  obtain ⟨_, -, h⟩ := bind_eq_done.mp h
  exact (done.inj h).symm

theorem nativeTraceRouter_ne_done {m : Memory} {host : Option Pointer} {text : Bytes} :
    nativeTraceRouter m host ≠ done text := by
  intro h
  obtain ⟨_, -, h⟩ := bind_eq_done.mp h
  cases h

theorem deliveries_native {e : Served κ} {f : Native} {cb : Option κ} {number : ℕ}
    (ht : e.job.task = asyncNative f cb number) (hran : e.Ran) :
    ∃ text, f.call e.memory e.world newResult = done text ∧ e.text = text ∧
      e.deliveries = textTo cb (cString text) := by
  obtain ⟨c, r, hc, hr⟩ := hran
  rw [ht] at hc
  cases hc
  obtain ⟨text, htext, -⟩ := bind_eq_done.mp hr
  refine ⟨text, htext, ?_, ?_⟩
  · simp only [Served.text, ht, asyncNative, htext]
  · cases cb <;> simp [Served.deliveries, Served.first, Served.text, secondOf, ht, asyncNative,
      htext, Callable.hands, textTo]

/-- A task that has come back hands over the answer to its request. -/
theorem Served.answers {e : Served κ} {r : Request κ} {asked : Memory} {number : ℕ}
    (ht : r.task asked number = done e.job.task) (hran : e.Ran) :
    Answers e.memory e.world asked r e.deliveries ∧ e.text.length = 4096 := by
  cases r with
  | getHostNameByServer hostName timeout dnsServer cb =>
    obtain ⟨text, htext, he, hd⟩ := deliveries_native (done.inj ht).symm hran
    obtain ⟨⟨ret, _⟩, hlookup, htext⟩ := bind_eq_done.mp htext
    obtain rfl := done.inj htext
    obtain ⟨host, dns, r, info, as, hhost, hdns, hr, has, hjoined, hlen⟩ :=
      nativeLookup_done hlookup
    rw [hd, he, hjoined]
    exact ⟨.lookup timeout cb hhost hdns hr has, hlen⟩
  | ping host times packageSize interval timeout cb =>
    obtain ⟨text, htext, he, hd⟩ := deliveries_native (done.inj ht).symm hran
    obtain rfl := nativePing_done htext
    rw [hd, he, cString_newResult]
    exact ⟨.ping timeout cb htext, length_newResult⟩
  | traceRouter host cb =>
    obtain ⟨text, htext, -⟩ := deliveries_native (done.inj ht).symm hran
    exact absurd htext nativeTraceRouter_ne_done
  | networkDiagnosis host dnsSer cb =>
    obtain ⟨_host, hhost, ht⟩ := bind_eq_done.mp ht
    obtain ⟨_dnsSer, hdnsSer, ht⟩ := bind_eq_done.mp ht
    have htask := (done.inj ht).symm
    obtain ⟨c, r, hc, hr⟩ := hran
    rw [htask] at hc
    cases hc
    obtain ⟨calls, hcalls, -⟩ := bind_eq_done.mp hr
    have hd : e.deliveries = calls := by
      simp [Served.deliveries, Served.first, secondOf, htask, hcalls, Callable.hands]
    have he : e.text = newResult := by simp [Served.text, htask]
    rw [hd, he]
    exact ⟨.networkDiagnosis hhost hdnsSer hcalls, length_newResult⟩

/-- In every run, whatever the callers and the worker do in whatever order: the calls to the
users, with those still due for the task in hand, are those for the tasks served, in the order
of the requests; each task hands over the answer to its own request, once; and no result is
longer than its string. -/
theorem answers_in_order [DecidableEq π] {s : State κ π}
    (h : (machine memory κ π).Reachable s) :
    s.delivered ++ s.pending = s.served.flatMap Served.deliveries ∧
    s.served.map Served.job = s.queue.enqueued.take s.served.length ∧
    (∀ e ∈ s.served, ∃ r asked, s.requests e.job.number = some (r, asked) ∧
      Answers e.memory e.world asked r e.deliveries) ∧
    ∀ k, (s.results k).length = 4096 := by
  have hs := reachable_inv h
  have hanswers : ∀ e ∈ s.served, ∃ r asked, s.requests e.job.number = some (r, asked) ∧
      Answers e.memory e.world asked r e.deliveries ∧ e.text.length = 4096 := by
    intro e he
    obtain ⟨r, asked, hr, ht⟩ := hs.asked e.job
      (hs.mem_enqueued (List.mem_append_left _ (List.mem_map_of_mem he)))
    exact ⟨r, asked, hr, Served.answers ht (hs.ran e he)⟩
  refine ⟨hs.handed, ?_, fun e he => ?_, fun k => ?_⟩
  · rw [hs.enqueued_eq, hs.taken, List.append_assoc, List.take_left' (List.length_map _)]
  · obtain ⟨r, asked, hr, ha, -⟩ := hanswers e he
    exact ⟨r, asked, hr, ha⟩
  · by_cases hk : k ∈ s.served.map (·.job.number)
    · obtain ⟨e, he, rfl⟩ := List.mem_map.mp hk
      obtain ⟨-, -, -, -, hlen⟩ := hanswers e he
      rw [hs.texts e he, hlen]
    · rw [hs.fresh k hk, length_newResult]

def oneHost : Memory := fun p => if p = 7 then some (ascii "10.0.0.1") else none

def deafWorld : World where
  fuel := 0
  net := aliasNetwork
  pid := 7
  socket := 0
  attempt _ := ⟨0, none, 0⟩
  pings := ⟨7, fun _ => 0, fun _ _ => ⟨0, none, 0⟩⟩
  garbage := ⟨0, []⟩
  ipInfo := emptyInfo
  format := zeroFormat
  storage _ := filledWith 0

def onePing : List (Action ℕ Unit) :=
  [.call () (.ping (some 7) 4 8 1 0 (some 5)), .thread (.push ()), .thread (.notifyAll ()),
    .thread (.unlockPut ()), .thread (.lock theWorker), .thread (.test theWorker),
    .thread (.pop theWorker), .thread (.unlock theWorker), .thread (.advance theWorker),
    .returns deafWorld, .thread (.advance theWorker), .returns deafWorld]

theorem answers_in_order_ping : ∃ s : State ℕ Unit,
    (machine oneHost ℕ Unit).replay (init oneHost) onePing = some s ∧ s.delivered.length = 1 ∧
      s.delivered ++ s.pending = s.served.flatMap Served.deliveries ∧
      ∀ e ∈ s.served, ∃ r asked, s.requests e.job.number = some (r, asked) ∧
        Answers e.memory e.world asked r e.deliveries := by
  have hrun : ((machine oneHost ℕ Unit).replay (init oneHost) onePing).map
      (·.delivered.length) = some 1 := by decide +kernel
  obtain ⟨s, hs, hone⟩ := Option.map_eq_some_iff.mp hrun
  obtain ⟨hhanded, -, hanswers, -⟩ :=
    answers_in_order ((machine oneHost ℕ Unit).reachable_start.replay onePing hs)
  exact ⟨s, hs, hone, hhanded, hanswers⟩

end QyUtil.Async
