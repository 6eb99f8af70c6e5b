import QyUtil.Async.Answers
import QyUtil.Ping.Requests

/-! # How long the strings are needed

A task reads the strings of its caller when the worker gets to it. If the callers keep the
strings as they are until then, and ask for nothing that the functions cannot do, then
nothing goes wrong but what goes wrong in a lookup itself, and each task finds the strings as
they were when it was asked for.
-/

namespace QyUtil.Async

open Runs Loops Outcome Bytes TaskQueue Dns Ping Diagnosis

universe u

variable {κ : Type} {π : Type u}

def Native.pointers : Native → List Pointer
  | .getHostNameByServer hostName _ dnsServer => hostName.toList ++ dnsServer.toList
  | .ping host _ _ _ _ => host.toList
  | .traceRouter host => host.toList

def Callable.pointers : Callable κ → List Pointer
  | .native f _ => f.pointers
  | .copyHost host => host.toList
  | _ => []

def firstPointers (task : QYUtilTask (Callable κ)) : List Pointer :=
  task.first.elim [] Callable.pointers

def secondPointers (task : QYUtilTask (Callable κ)) : List Pointer :=
  task.second.elim [] Callable.pointers

def pointers (task : QYUtilTask (Callable κ)) : List Pointer :=
  firstPointers task ++ secondPointers task

def Request.pointers : Request κ → List Pointer
  | .getHostNameByServer hostName _ dnsServer _ => hostName.toList ++ dnsServer.toList
  | .ping host _ _ _ _ _ => host.toList
  | .traceRouter host _ => host.toList
  | .networkDiagnosis host dnsSer _ => host.toList ++ dnsSer.toList

/-- What `NativePing` can do: there is a host, the package fits into the buffer of the pinger,
and the interval, in milliseconds, into an `int`. -/
structure Pingable (host : Option Pointer) (packageSize interval : ℤ) : Prop where
  named : host ≠ none
  sized : 0 ≤ packageSize ∧ packageSize ≤ 1016
  timed : -2147483 ≤ interval ∧ interval ≤ 2147483

/-- What the functions can do: no route is traced, a host is there where it is copied, and
what is pinged can be. -/
def Request.Possible : Request κ → Prop
  | .getHostNameByServer _ _ _ _ => True
  | .ping host _ packageSize interval _ _ => Pingable host packageSize interval
  | .traceRouter _ _ => False
  | .networkDiagnosis host _ _ => host ≠ none

/-- This task has been put and its first callable has not returned. -/
def State.Waiting (s : State κ π) (job : Job (Callable κ)) : Prop :=
  job ∈ s.queue.enqueued ∧ job.number ∉ s.served.map (·.job.number)

/-- A string that is still going to be read. -/
def State.InUse (s : State κ π) (p : Pointer) : Prop :=
  (∃ q task, s.queue.producer q = .atPush task ∧ p ∈ pointers task) ∨
  (∃ job, s.Waiting job ∧ p ∈ pointers job.task) ∨
  ∃ job, finishing (s.queue.worker theWorker) = some job ∧ p ∈ secondPointers job.task

/-- The callers ask for what is possible with strings that are there, and they neither change
nor release a string that is still going to be read. -/
def Polite (s : State κ π) : Action κ π → Prop
  | .call _ r => r.Possible ∧ ∀ p ∈ r.pointers, s.memory p ≠ none
  | .store p _ => ¬ s.InUse p
  | _ => True

/-- A task that was possible, with these strings as they were when it was asked for. -/
def State.Keeps (s : State κ π) (number : ℕ) (task : QYUtilTask (Callable κ))
    (ps : List Pointer) : Prop :=
  ∃ r asked, s.requests number = some (r, asked) ∧ r.task asked number = done task ∧
    r.Possible ∧ ∀ p ∈ ps, s.memory p = asked p ∧ asked p ≠ none

structure Kept [DecidableEq π] (s : State κ π) : Prop where
  inv : Inv s
  putting : ∀ q task, s.queue.producer q = .atPush task →
    s.Keeps s.queue.enqueued.length task (pointers task)
  waiting : ∀ job, s.Waiting job → s.Keeps job.number job.task (pointers job.task)
  finishing : ∀ job, finishing (s.queue.worker theWorker) = some job →
    s.Keeps job.number job.task (secondPointers job.task)
  found : ∀ e ∈ s.served, ∃ r asked, s.requests e.job.number = some (r, asked) ∧
    ∀ p ∈ firstPointers e.job.task, e.memory p = asked p

theorem Request.pointers_task {r : Request κ} {m : Memory} {number : ℕ}
    {task : QYUtilTask (Callable κ)} (h : r.task m number = done task) :
    ∀ p ∈ Async.pointers task, p ∈ r.pointers := by
  cases r with
  | getHostNameByServer hostName timeout dnsServer cb =>
    obtain rfl := done.inj h
    exact fun p hp => by simpa [Async.pointers, firstPointers, secondPointers,
      asyncNativeGetHostNameByServer, asyncNative, Callable.pointers, Native.pointers,
      Request.pointers] using hp
  | ping host times packageSize interval timeout cb =>
    obtain rfl := done.inj h
    exact fun p hp => by simpa [Async.pointers, firstPointers, secondPointers,
      asyncNativePing, asyncNative, Callable.pointers, Native.pointers,
      Request.pointers] using hp
  | traceRouter host cb =>
    obtain rfl := done.inj h
    exact fun p hp => by simpa [Async.pointers, firstPointers, secondPointers,
      asyncNativeTraceRouter, asyncNative, Callable.pointers, Native.pointers,
      Request.pointers] using hp
  | networkDiagnosis host dnsSer cb =>
    obtain ⟨_, -, h⟩ := bind_eq_done.mp h
    obtain ⟨_, -, h⟩ := bind_eq_done.mp h
    obtain rfl := done.inj h
    intro p hp
    have hhost : p ∈ host.toList := by
      simpa [Async.pointers, firstPointers, secondPointers, Callable.pointers] using hp
    exact List.mem_append_left _ hhost

theorem State.Keeps.mono {s : State κ π} {number : ℕ} {task : QYUtilTask (Callable κ)}
    {ps ps' : List Pointer} (h : s.Keeps number task ps) (hps : ∀ p ∈ ps', p ∈ ps) :
    s.Keeps number task ps' := by
  obtain ⟨r, asked, hr, ht, hpossible, hkept⟩ := h
  exact ⟨r, asked, hr, ht, hpossible, fun p hp => hkept p (hps p hp)⟩

theorem State.Keeps.of_eq {s s' : State κ π} {number : ℕ} {task : QYUtilTask (Callable κ)}
    {ps : List Pointer} (h : s.Keeps number task ps)
    (hrequests : s'.requests number = s.requests number)
    (hmemory : ∀ p ∈ ps, s'.memory p = s.memory p) : s'.Keeps number task ps := by
  obtain ⟨r, asked, hr, ht, hpossible, hkept⟩ := h
  exact ⟨r, asked, hrequests.trans hr, ht, hpossible,
    fun p hp => ⟨(hmemory p hp).trans (hkept p hp).1, (hkept p hp).2⟩⟩

variable [DecidableEq π] {s s' : State κ π} {memory : Memory}

theorem init_kept : Kept (init memory : State κ π) where
  inv := init_inv
  putting _ _ h := by cases h
  waiting _ h := absurd h.1 List.not_mem_nil
  finishing _ h := by cases h
  found _ h := absurd h List.not_mem_nil

theorem Kept.call (h : Kept s) {p : π} {r : Request κ} {task : QYUtilTask (Callable κ)}
    {q : Locking.State 1 (Callable κ) π} (hpossible : r.Possible)
    (hthere : ∀ p ∈ r.pointers, s.memory p ≠ none)
    (ht : r.task s.memory s.queue.enqueued.length = done task)
    (hq : Locking.step s.queue (.lockPut p task) = some (.ok q)) :
    Kept { s with
      queue := q
      requests := Function.update s.requests s.queue.enqueued.length (some (r, s.memory)) } := by
  have hinv := h.inv.call ht hq
  have hold {job : Job (Callable κ)} (hj : job ∈ s.queue.enqueued) :
      Function.update s.requests s.queue.enqueued.length (some (r, s.memory)) job.number =
        s.requests job.number := Function.update_of_ne (h.inv.number_lt hj).ne ..
  have hserved {job : Job (Callable κ)} (hj : job ∈ s.served.map Served.job) :
      job ∈ s.queue.enqueued := h.inv.mem_enqueued (List.mem_append_left _ hj)
  simp only [Locking.step] at hq
  split at hq <;> cases hq
  rename_i howner hp
  exact {
    inv := hinv
    putting := fun p' task' hp' => by
      rcases eq_or_ne p' p with rfl | hne
      · rw [Locking.State.producerTo_self] at hp'
        cases hp'
        exact ⟨r, s.memory, Function.update_self .., ht, hpossible,
          fun p hp => ⟨rfl, hthere p (Request.pointers_task ht p hp)⟩⟩
      · have hp'' : s.queue.producer p' = .atPush task' := by
          simpa [Locking.State.producerTo, Locking.State.lock, hne] using hp'
        have hg := (Locking.reachable_guarded h.inv.queue).producers p'
        rw [hp'', howner] at hg
        simp at hg
    waiting := fun job hj => (h.waiting job hj).of_eq (hold hj.1) fun _ _ => rfl
    finishing := fun job hj =>
      (h.finishing job hj).of_eq (hold (hserved (h.inv.last job hj))) fun _ _ => rfl
    found := fun e he => by
      obtain ⟨r', asked, hr, hfound⟩ := h.found e he
      exact ⟨r', asked, (hold (hserved (List.mem_map_of_mem he))).trans hr, hfound⟩ }

theorem Kept.thread (h : Kept s) {q : Locking.State 1 (Callable κ) π}
    (hm : (Locking.machine 1 (Callable κ) π).Moves s.queue q) (hq : Between s.queue q) :
    Kept { s with queue := q } := by
  have hinv := h.inv.thread hm hq
  cases hq with
  | push p task hp =>
    exact {
      inv := hinv
      putting := fun p' task' hp' => by
        rcases eq_or_ne p' p with rfl | hne
        · rw [Locking.State.producerTo_self] at hp'
          cases hp'
        · have hp'' : s.queue.producer p' = .atPush task' := by
            simpa [Locking.State.producerTo, Locking.State.push, hne] using hp'
          have hg := Locking.reachable_guarded h.inv.queue
          have howner := (hg.producers p).mp (by simp [hp])
          rw [(hg.producers p').mp (by simp [hp''])] at howner
          exact absurd (by simpa using howner) hne
      waiting := fun job hj => by
        rcases List.mem_append.mp hj.1 with hold | hnew
        · exact (h.waiting job ⟨hold, hj.2⟩).of_eq rfl fun _ _ => rfl
        · obtain rfl := List.mem_singleton.mp hnew
          exact (h.putting p task hp).of_eq rfl fun _ _ => rfl
      finishing := fun job hj => (h.finishing job hj).of_eq rfl fun _ _ => rfl
      found := h.found }
  | pop job rest hw _ =>
    exact {
      inv := hinv
      putting := fun p task hp => (h.putting p task hp).of_eq rfl fun _ _ => rfl
      waiting := fun job hj => (h.waiting job hj).of_eq rfl fun _ _ => rfl
      finishing := fun job' hj => by
        rw [Locking.State.workerTo_self] at hj
        cases hj
      found := h.found }
  | skip job _ hw =>
    rcases hw with ⟨hw, hnone⟩ | ⟨hw, hnone⟩
    · exact absurd hnone (h.inv.shape (List.mem_append_right _ hw)).isSome.1
    · exact absurd hnone (h.inv.shape (List.mem_append_left _ (h.inv.last job hw))).isSome.2
  | quiet _ henqueued hdequeued hproducer htaking hfinishing =>
    exact {
      inv := hinv
      putting := fun p task hp => by
        have hkeeps := h.putting p task ((hproducer p task).mp hp)
        rw [← henqueued] at hkeeps
        exact hkeeps.of_eq rfl fun _ _ => rfl
      waiting := fun job hj =>
        (h.waiting job ⟨henqueued ▸ hj.1, hj.2⟩).of_eq rfl fun _ _ => rfl
      finishing := fun job hj => (h.finishing job (hfinishing ▸ hj)).of_eq rfl fun _ _ => rfl
      found := h.found }

theorem Inv.waiting (h : Inv s) {job : Job (Callable κ)}
    (hj : taking (s.queue.worker theWorker) = [job]) : s.Waiting job :=
  ⟨h.mem_enqueued (List.mem_append_right _ (by simp [hj])), h.number_notMem hj⟩

theorem Kept.first (h : Kept s) {job : Job (Callable κ)} {c : Callable κ} {w : World}
    {r : (ℕ → Bytes) × List (Delivery κ)} {q : Locking.State 1 (Callable κ) π}
    (hw : s.queue.worker theWorker = .out (.inFirst job)) (hc : job.task.first = some c)
    (hr : c.run s.memory w s.results = done r)
    (hm : (Locking.machine 1 (Callable κ) π).Moves s.queue q)
    (hq : q = (s.queue.mark theWorker [⟨job.number, .first, .returns⟩]).workerTo theWorker
      (.out (.afterFirst job))) :
    Kept { s with
      queue := q
      results := r.1
      delivered := s.delivered ++ r.2
      served := s.served ++ [⟨job, s.memory, w⟩] } := by
  have hinv := h.inv.first hw hc hr hm hq
  have hkeeps := h.waiting job (h.inv.waiting (by rw [hw]; rfl))
  subst hq
  exact {
    inv := hinv
    putting := fun p task hp => (h.putting p task hp).of_eq rfl fun _ _ => rfl
    waiting := fun job' hj => by
      have hnumber : job'.number ∉ s.served.map (·.job.number) := by
        intro hmem
        exact hj.2 (by rw [List.map_append]; exact List.mem_append_left _ hmem)
      exact (h.waiting job' ⟨hj.1, hnumber⟩).of_eq rfl fun _ _ => rfl
    finishing := fun job' hj => by
      rw [Locking.State.workerTo_self] at hj
      cases hj
      exact (hkeeps.mono fun p hp => List.mem_append_right _ hp).of_eq rfl fun _ _ => rfl
    found := fun e he => by
      rcases List.mem_append.mp he with he | he
      · exact h.found e he
      · obtain rfl := List.mem_singleton.mp he
        obtain ⟨r', asked, hr', -, -, hkept⟩ := hkeeps
        exact ⟨r', asked, hr', fun p hp => (hkept p (List.mem_append_left _ hp)).1⟩ }

theorem Kept.second (h : Kept s) {job : Job (Callable κ)} {c : Callable κ} {w : World}
    {r : (ℕ → Bytes) × List (Delivery κ)} {q : Locking.State 1 (Callable κ) π}
    (hw : s.queue.worker theWorker = .out (.inSecond job)) (hc : job.task.second = some c)
    (hr : c.run s.memory w s.results = done r)
    (hm : (Locking.machine 1 (Callable κ) π).Moves s.queue q)
    (hq : q = (s.queue.mark theWorker [⟨job.number, .second, .returns⟩]).workerTo theWorker
      (.out .idle)) :
    Kept { s with queue := q, results := r.1, delivered := s.delivered ++ r.2 } := by
  have hinv := h.inv.second hw hc hr hm hq
  subst hq
  exact {
    inv := hinv
    putting := fun p task hp => (h.putting p task hp).of_eq rfl fun _ _ => rfl
    waiting := fun job' hj => (h.waiting job' hj).of_eq rfl fun _ _ => rfl
    finishing := fun job' hj => by
      rw [Locking.State.workerTo_self] at hj
      cases hj
    found := h.found }

theorem Kept.store (h : Kept s) {p : Pointer} (hp : ¬ s.InUse p) (t : Option Bytes) :
    Kept { s with memory := Function.update s.memory p t } := by
  have hsame {p' : Pointer} (hp' : s.InUse p') :
      Function.update s.memory p t p' = s.memory p' := by
    refine Function.update_of_ne ?_ ..
    rintro rfl
    exact hp hp'
  exact {
    inv := (Moved.store p t).inv h.inv
    putting := fun q task hq => (h.putting q task hq).of_eq rfl
      fun p' hp' => hsame (.inl ⟨q, task, hq, hp'⟩)
    waiting := fun job hj => (h.waiting job hj).of_eq rfl
      fun p' hp' => hsame (.inr (.inl ⟨job, hj, hp'⟩))
    finishing := fun job hj => (h.finishing job hj).of_eq rfl
      fun p' hp' => hsame (.inr (.inr ⟨job, hj, hp'⟩))
    found := h.found }

theorem Moved.kept {a : Action κ π} (hm : Moved s a s') (ha : Polite s a) (h : Kept s) :
    Kept s' := by
  cases hm with
  | call p r task q ht hq => exact h.call ha.1 ha.2 ht hq
  | thread a q hm hq => exact h.thread hm hq
  | first job c w r q hw hc hr hm hq => exact h.first hw hc hr hm hq
  | second job c w r q hw hc hr hm hq => exact h.second hw hc hr hm hq
  | store p t => exact h.store ha t

theorem polite_kept (h : (machine memory κ π).ReachableBy Polite s) : Kept s :=
  h.invariant init_kept fun _ _ _ ha hs => (step_cases hs).kept ha

omit [DecidableEq π] in
theorem read_done {m : Memory} {p : Pointer} (h : m p ≠ none) : ∃ t, m.read p = done t := by
  obtain ⟨t, ht⟩ := Option.ne_none_iff_exists'.mp h
  exact ⟨t, by rw [Memory.read, ht]; rfl⟩

omit [DecidableEq π] in
theorem readOptional_done {m : Memory} {p : Option Pointer} (h : ∀ q ∈ p.toList, m q ≠ none) :
    ∃ t, m.readOptional p = done t := by
  cases p with
  | none => exact ⟨none, rfl⟩
  | some p =>
    obtain ⟨t, ht⟩ := read_done (h p (by simp))
    exact ⟨some t, by rw [Memory.readOptional, ht]; rfl⟩

omit [DecidableEq π] in
theorem readString_done {m : Memory} {p : Option Pointer} (hp : p ≠ none)
    (h : ∀ q ∈ p.toList, m q ≠ none) : ∃ t, m.readString p = done t := by
  obtain ⟨q, rfl⟩ := Option.ne_none_iff_exists'.mp hp
  obtain ⟨t, ht⟩ := read_done (h q (by simp))
  exact ⟨cString t, by rw [Memory.readString, ht]; rfl⟩

/-- Undefined behaviour of a lookup itself. -/
def OfLookup (e : Fault) : Prop := (∃ e', e = .join (.lookup e')) ∨ ∃ e', e = .lookup e'

theorem queueStep_ne_error (h : Inv s) {a : Locking.Action 1 (Callable κ) π}
    {f : Locking.State 1 (Callable κ) π → State κ π} {e : Fault} :
    queueStep s.queue a f ≠ some (.error e) := by
  intro he
  obtain ⟨r, hr, he⟩ := Option.map_eq_some_iff.mp he
  cases r with
  | ok q => cases he
  | error e' =>
    obtain ⟨w, hw, hnil⟩ := Locking.step_fault hr
    exact (Locking.reachable_guarded h.queue).found w hw hnil

/-- A synchronous function that is possible, with its strings there, fails in a lookup only. -/
theorem call_fault {f : Native} {m : Memory} {w : World} {result : Bytes} {e : Fault}
    (h : f.call m w result = fault e) (hthere : ∀ p ∈ f.pointers, m p ≠ none)
    (hping : ∀ host times packageSize interval timeout,
      f = .ping host times packageSize interval timeout → Pingable host packageSize interval)
    (htrace : ∀ host, f ≠ .traceRouter host) : OfLookup e := by
  cases f with
  | getHostNameByServer hostName timeout dnsServer =>
    obtain ⟨host, hhost⟩ := readOptional_done (m := m) (p := hostName)
      fun p hp => hthere p (List.mem_append_left _ hp)
    obtain ⟨dns, hdns⟩ := readOptional_done (m := m)
      (p := if host.isSome then dnsServer else none) fun p hp => by
        split_ifs at hp
        · exact hthere p (List.mem_append_right _ hp)
        · cases hp
    simp only [Native.call, nativeLookup, hhost, hdns, done_bind] at h
    rcases bind_eq_fault.mp h with h | ⟨_, -, h⟩
    · obtain ⟨e', he', rfl⟩ := liftFault_eq_fault.mp h
      obtain ⟨e'', rfl⟩ := nativeGetHostNameByServer_fault he'
      exact .inl ⟨e'', rfl⟩
    · cases h
  | ping host times packageSize interval timeout =>
    obtain ⟨hne, ⟨hpos, hle⟩, htimed⟩ := hping _ _ _ _ _ rfl
    obtain ⟨t, ht⟩ := readString_done hne hthere
    have hproduct : -2 ^ 31 ≤ interval * 1000 ∧ interval * 1000 < 2 ^ 31 := by omega
    have hinside : ∀ packet ∈ (start ⟨t, times, packageSize.toNat, w.pid⟩ w.socket
        w.attempt).sent, packet.2 ≤ packet.1.length := by
      simp only [start]
      split_ifs
      · simp [Pinger.new]
      · exact attempts_inside (by dsimp only; omega) _ _
    simp only [Native.call, nativePing, ht, done_bind, guard_true hpos, guard_true hinside,
      guard_true hproduct] at h
    cases h
  | traceRouter host => exact absurd rfl (htrace host)

theorem run_fault {r : Request κ} {asked m : Memory} {number : ℕ}
    {task : QYUtilTask (Callable κ)} {c : Callable κ} {w : World} {results : ℕ → Bytes}
    {e : Fault} (ht : r.task asked number = done task) (hpossible : r.Possible)
    (hc : task.first = some c ∨ task.second = some c)
    (hthere : ∀ p ∈ c.pointers, m p ≠ none) (h : c.run m w results = fault e) :
    OfLookup e := by
  have hnative (f : Native) (cb : Option κ) (htask : task = asyncNative f cb number)
      (hping : ∀ host times packageSize interval timeout,
        f = .ping host times packageSize interval timeout → Pingable host packageSize interval)
      (htrace : ∀ host, f ≠ .traceRouter host) : OfLookup e := by
    subst htask
    rcases hc with hc | hc
    · cases hc
      rcases bind_eq_fault.mp h with h | ⟨_, -, h⟩
      · exact call_fault h hthere hping htrace
      · cases h
    · cases hc
      cases h
  cases r with
  | getHostNameByServer hostName timeout dnsServer cb =>
    exact hnative _ cb (done.inj ht).symm (fun _ _ _ _ _ h => by cases h) nofun
  | ping host times packageSize interval timeout cb =>
    refine hnative _ cb (done.inj ht).symm (fun _ _ _ _ _ h => ?_) nofun
    cases h
    exact hpossible
  | traceRouter host cb => exact absurd hpossible id
  | networkDiagnosis host dnsSer cb =>
    obtain ⟨_, -, ht⟩ := bind_eq_done.mp ht
    obtain ⟨_, -, ht⟩ := bind_eq_done.mp ht
    obtain rfl := done.inj ht
    rcases hc with hc | hc
    · cases hc
      rcases bind_eq_fault.mp h with h | ⟨_, -, h⟩
      · rcases bind_eq_fault.mp h with h | ⟨_, -, h⟩
        · obtain ⟨e', -, rfl⟩ := liftFault_eq_fault.mp h
          exact .inr ⟨e', rfl⟩
        · cases h
      · cases h
    · cases hc
      obtain ⟨t, ht⟩ := readString_done (m := m) hpossible hthere
      simp only [Callable.run, ht, done_bind] at h
      cases h

theorem Kept.returns_fault (h : Kept s) {job : Job (Callable κ)} {c : Callable κ} {w : World}
    {e : Fault} (hrunning : s.running = some (job, c))
    (he : c.run s.memory w s.results = fault e) : OfLookup e := by
  rcases running_cases hrunning with ⟨hw, hc⟩ | ⟨hw, hc⟩
  · obtain ⟨r, asked, -, ht, hpossible, hkept⟩ := h.waiting job (h.inv.waiting (by rw [hw]; rfl))
    refine run_fault ht hpossible (.inl hc) (fun p hp => ?_) he
    obtain ⟨heq, hne⟩ := hkept p (List.mem_append_left _ (by simpa [firstPointers, hc] using hp))
    rwa [heq]
  · obtain ⟨r, asked, -, ht, hpossible, hkept⟩ := h.finishing job (by rw [hw]; rfl)
    refine run_fault ht hpossible (.inr hc) (fun p hp => ?_) he
    obtain ⟨heq, hne⟩ := hkept p (by simpa [secondPointers, hc] using hp)
    rwa [heq]

/-- As long as the callers keep to their part, in any order of steps, only a lookup can go
wrong: no null or released string is read, no buffer is left, and the queue is never empty
where a task is taken. And each task served has found its strings as they were when it was
asked for. -/
theorem kept_strings_safe (h : (machine memory κ π).ReachableBy Polite s) :
    (∀ a e, Polite s a → step s a = some (.error e) → OfLookup e) ∧
    ∀ e ∈ s.served, ∃ r asked, s.requests e.job.number = some (r, asked) ∧
      ∀ p ∈ firstPointers e.job.task, e.memory p = asked p := by
  have hs := polite_kept h
  refine ⟨fun a e ha he => ?_, hs.found⟩
  cases a with
  | call p r =>
    simp only [step] at he
    split at he
    · cases he
    · rename_i hfault
      cases he
      cases r with
      | networkDiagnosis host dnsSer cb =>
        obtain ⟨t, ht⟩ := readString_done (m := s.memory) ha.1
          fun p hp => ha.2 p (List.mem_append_left _ hp)
        obtain ⟨t', ht'⟩ := readOptional_done (m := s.memory) (p := dnsSer)
          fun p hp => ha.2 p (List.mem_append_right _ hp)
        simp only [Request.task, ocNetworkDiagnosis, ht, ht', done_bind] at hfault
        cases hfault
      | _ => cases hfault
    · exact absurd he (queueStep_ne_error hs.inv)
  | thread a =>
    simp only [step] at he
    split at he
    · cases he
    · cases he
    · exact absurd he (queueStep_ne_error hs.inv)
  | returns w =>
    simp only [step] at he
    split at he
    · cases he
    rename_i job c hrunning
    split at he
    · cases he
    · rename_i e' hfault
      cases he
      exact hs.returns_fault hrunning hfault
    · exact absurd he (queueStep_ne_error hs.inv)
  | store p t => cases he

theorem kept_strings_safe_ping : ∃ s : State ℕ Unit,
    step (init oneHost) (.call () (.ping (some 7) 4 8 1 0 (some 5))) = some (.ok s) ∧
      (∀ a e, Polite s a → step s a = some (.error e) → OfLookup e) ∧
      ¬ Polite s (.store 7 none) := by
  refine ⟨_, rfl, ?_, fun h => h (.inl ⟨(), _, rfl, List.mem_singleton.mpr rfl⟩)⟩
  have hcall : Polite (init oneHost : State ℕ Unit) (.call () (.ping (some 7) 4 8 1 0 (some 5))) :=
    ⟨⟨nofun, by decide, by decide⟩, fun p hp => by
      obtain rfl : p = 7 := by simpa [Request.pointers, eq_comm] using hp
      exact nofun⟩
  exact (kept_strings_safe (.single ⟨_, hcall, rfl⟩)).1

end QyUtil.Async
