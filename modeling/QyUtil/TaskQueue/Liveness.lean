import QyUtil.Runs.Fairness
import QyUtil.TaskQueue.Refinement

/-! # Every task is run

The mutex is always free again after a while, since no thread stays between lock and
unlock. A worker that competes for it then gets it, and as long as there is a task in the
queue, each of its steps brings it nearer to taking one, unless another worker has been
faster. So the tasks in front of a given one are taken, and then this one, and the worker
that takes it makes all its calls, provided that calls come back.
-/

namespace QyUtil.TaskQueue.Locking

open Runs Behavior

universe u v

variable {nThread : ℕ} {φ : Type u} {π : Type v} {s s' : State nThread φ π} {w : Fin nThread}
  {p : π} {x : Stage φ} {job : Job φ} {k : ℕ}

def acquires (w : Fin nThread) : Set (Action nThread φ π) := {.lock w, .reacquire w}

def sections : Thread nThread π → Set (Action nThread φ π)
  | .inl w => {.test w, .sleep w, .pop w, .unlock w}
  | .inr p => {.push p, .notifyAll p, .unlockPut p}

def State.place (s : State nThread φ π) : Thread nThread π → Stage φ ⊕ Call φ
  | .inl w => .inl (s.worker w)
  | .inr p => .inr (s.producer p)

/-- How far a thread is from its unlock. -/
def toLeave : Stage φ ⊕ Call φ → ℕ
  | .inl .atIf => 4
  | .inl .atPredicate => 3
  | .inl .atPop => 2
  | .inl .atSleep | .inl (.atUnlock _) => 1
  | .inl (.out _) => 0
  | .inr (.atPush _) => 3
  | .inr .atNotify => 2
  | .inr .atUnlock => 1
  | .inr .outside => 0

/-- How far a worker is from taking a task, when there is one. -/
def Stage.toTake : Stage φ → ℕ
  | .atUnlock _ => 12
  | .out (.holding _) => 11
  | .out (.inFirst _) => 10
  | .out (.afterFirst _) => 9
  | .out (.inSecond _) => 8
  | .atSleep => 7
  | .out (.waiting false) => 6
  | .out .idle => 5
  | .out (.waiting true) => 4
  | .atIf => 3
  | .atPredicate => 2
  | .atPop => 1

def Stage.toFinish : Stage φ → ℕ
  | .atUnlock _ => 5
  | .out (.holding _) => 4
  | .out (.inFirst _) => 3
  | .out (.afterFirst _) => 2
  | .out (.inSecond _) => 1
  | _ => 0

theorem advance_nearer {q q' : Phase φ} {l : List Mark} (h : q.advance = some (q', l)) :
    (Stage.out q').toFinish < (Stage.out q).toFinish ∧
      (Stage.out q').toTake < (Stage.out q).toTake := by
  cases q with
  | idle => cases h
  | waiting n => cases h
  | inFirst job =>
    cases h
    simp [Stage.toFinish, Stage.toTake]
  | inSecond job =>
    cases h
    simp [Stage.toFinish, Stage.toTake]
  | holding job =>
    simp only [Phase.advance] at h
    split at h <;> cases h <;> simp [Stage.toFinish, Stage.toTake]
  | afterFirst job =>
    simp only [Phase.advance] at h
    split at h <;> cases h <;> simp [Stage.toFinish, Stage.toTake]

theorem State.place_workerTo_of_ne {t : Thread nThread π} (h : t ≠ .inl w) :
    (s.workerTo w x).place t = s.place t := by
  cases t with
  | inl v => exact congrArg Sum.inl (workerTo_of_ne fun he => h (congrArg Sum.inl he))
  | inr p => rfl

variable [DecidableEq π]

/-- The threads are scheduled fairly: a worker that competes for the mutex again and again
gets it, a thread that has it goes on, and the calls of a task return. -/
structure Fair (b : Behavior (machine nThread φ π)) : Prop where
  mutex : ∀ w, b.StrongFair (acquires w)
  sections : ∀ t, b.WeakFair (sections t)
  returns : ∀ w, b.WeakFair {.advance w}

variable {b : Behavior (machine nThread φ π)} {t : Thread nThread π}

theorem Moved.toLeave (hm : Moved s s') (hs : Guarded s) (ho : s.owner = some t) :
    s'.owner = none ∨ s'.owner = some t ∧
      (s'.place t = s.place t ∨ toLeave (s'.place t) < toLeave (s.place t)) := by
  have hworker (v : Fin nThread) (hv : (s.worker v).Inside) : t = .inl v :=
    Option.some.inj (ho.symm.trans ((hs.workers v).mp hv))
  have hproducer (p : π) (hp : s.producer p ≠ .outside) : t = .inr p :=
    Option.some.inj (ho.symm.trans ((hs.producers p).mp hp))
  have houtside (v : Fin nThread) (q : Phase φ) (hv : s.worker v = .out q) : t ≠ .inl v := by
    rintro rfl
    simpa [hv] using (hs.workers v).mpr ho
  cases hm with
  | lockPut p task hnone hp => simp [ho] at hnone
  | push p task hp =>
    obtain rfl := hproducer p (by simp [hp])
    exact .inr ⟨ho, .inr (by simp [State.place, toLeave, hp])⟩
  | notifyAll p hp =>
    obtain rfl := hproducer p (by simp [hp])
    exact .inr ⟨ho, .inr (by simp [State.place, toLeave, hp])⟩
  | unlockPut p hp => exact .inl rfl
  | lock w hnone hw => simp [ho] at hnone
  | test w x hx =>
    obtain rfl := hworker w hx.places.1
    refine .inr ⟨ho, .inr ?_⟩
    simp only [State.place, State.workerTo_self]
    generalize s.worker w = a at hx
    cases hx with
    | found ha _ => rcases ha with rfl | rfl <;> simp [toLeave]
    | again _ => simp [toLeave]
    | empty _ => simp [toLeave]
  | sleep w hw => exact .inl rfl
  | spuriousWake w n hw =>
    exact .inr ⟨ho, .inl (State.place_workerTo_of_ne (houtside w _ hw))⟩
  | reacquire w hnone hw => simp [ho] at hnone
  | pop w job rest hw hq =>
    obtain rfl := hworker w (by simp [hw])
    exact .inr ⟨ho, .inr (by simp [State.place, toLeave, hw])⟩
  | unlock w job hw => exact .inl rfl
  | advance w q q' l hw hq =>
    exact .inr ⟨ho, .inl (State.place_workerTo_of_ne (houtside w _ hw))⟩

theorem Guarded.enabled (hs : Guarded s) (ho : s.owner = some t) :
    (machine nThread φ π).Enabled (sections t) s := by
  cases t with
  | inl w =>
    have hin := (hs.workers w).mpr ho
    cases hw : s.worker w with
    | out q => simp [hw] at hin
    | atIf => exact ⟨.test w, by simp [sections], by simp [machine, step, hw]⟩
    | atPredicate => exact ⟨.test w, by simp [sections], by simp [machine, step, hw]⟩
    | atSleep => exact ⟨.sleep w, by simp [sections], by simp [machine, step, hw]⟩
    | atPop =>
      obtain ⟨job, rest, hq⟩ := List.exists_cons_of_ne_nil (hs.found w hw)
      exact ⟨.pop w, by simp [sections], by simp [machine, step, hw, popStep, hq, front, popFront]⟩
    | atUnlock job => exact ⟨.unlock w, by simp [sections], by simp [machine, step, hw]⟩
  | inr p =>
    have hin := (hs.producers p).mpr ho
    cases hp : s.producer p with
    | outside => exact absurd hp hin
    | atPush task => exact ⟨.push p, by simp [sections], by simp [machine, step, hp]⟩
    | atNotify => exact ⟨.notifyAll p, by simp [sections], by simp [machine, step, hp]⟩
    | atUnlock => exact ⟨.unlockPut p, by simp [sections], by simp [machine, step, hp]⟩

theorem place_ne_of_sections {a : Action nThread φ π} (ha : a ∈ sections t)
    (h : step s a = some (.ok s')) : s'.place t ≠ s.place t := by
  cases t with
  | inl w =>
    rcases ha with rfl | rfl | rfl | rfl
    · simp only [step] at h
      split at h <;> cases h <;> simp only [State.place, State.workerTo_self] <;> split_ifs <;>
        simp_all
    · simp only [step] at h
      split at h <;> cases h
      simp_all [State.place]
    · simp only [step] at h
      split at h
      · cases hq : s.msgQueue with
        | nil => simp [popStep, hq, front] at h
        | cons job rest =>
          simp only [popStep, hq, front, popFront] at h
          cases h
          simp_all [State.place]
      · cases h
    · simp only [step] at h
      split at h <;> cases h
      simp_all [State.place]
  | inr p =>
    rcases ha with rfl | rfl | rfl <;> simp only [step] at h <;> split at h <;> cases h <;>
      simp_all [State.place]

/-- The mutex is free again and again. -/
theorem released (hf : Fair b) : b.LeadsTo (fun _ => True) fun s => s.owner = none := by
  have howner (t : Thread nThread π) :
      b.LeadsTo (fun s => s.owner = some t) fun s => s.owner = none := by
    refine .of_measure (fun s => toLeave (s.place t)) fun k => .of_weakFair (hf.sections t) ?_ ?_ ?_
    · rintro s s' hr ⟨ho, hk⟩ hm
      rcases (moves_cases hm).toLeave (reachable_guarded hr) ho with h | ⟨ho', hplace | hlt⟩
      · exact .inr (.inl h)
      · exact .inl ⟨ho', by rw [hplace, hk]⟩
      · exact .inr (.inr ⟨ho', hk ▸ hlt⟩)
    · exact fun s hr hs => (reachable_guarded hr).enabled hs.1
    · rintro s s' a ha hr ⟨ho, hk⟩ hstep
      rcases (step_cases hstep).toLeave (reachable_guarded hr) ho with h | ⟨ho', hplace | hlt⟩
      · exact .inl h
      · exact absurd hplace (place_ne_of_sections ha hstep)
      · exact .inr ⟨ho', hk ▸ hlt⟩
  intro n _
  cases ho : (b.state n).owner with
  | none => exact ⟨n, le_rfl, ho⟩
  | some t => exact howner t n ho

theorem task_put (hf : Fair b) (p : π) (k : ℕ) :
    b.LeadsTo (fun s => s.enqueued.length = k ∧ ∃ task, s.producer p = .atPush task)
      fun s => k < s.enqueued.length := by
  refine .of_weakFair (hf.sections (.inr p)) ?_ ?_ ?_
  · rintro s s' hr ⟨rfl, task, hp⟩ hm
    have hg := reachable_guarded hr
    have hp' : s.producer p ≠ .outside := by simp [hp]
    have hne {p' : π} {x : Call φ} (hx : s.producer p' = x) (hout : x ≠ .outside)
        (hpush : ∀ task, x ≠ .atPush task) : False := by
      have howner := (hg.producers p').mp (hx ▸ hout)
      rw [(hg.producers p).mp hp'] at howner
      obtain rfl : p = p' := by simpa using howner
      exact hpush task (hx.symm.trans hp)
    cases moves_cases hm with
    | lockPut p' task' ho _ =>
      rw [(hg.producers p).mp hp'] at ho
      cases ho
    | push p' task' _ => exact .inr (by simp [State.producerTo, State.push])
    | notifyAll p' hx => exact (hne hx (by simp) (by simp)).elim
    | unlockPut p' hx => exact (hne hx (by simp) (by simp)).elim
    | _ => exact .inl ⟨rfl, task, hp⟩
  · rintro s hr ⟨-, task, hp⟩
    exact ⟨.push p, by simp [sections], by simp [machine, step, hp]⟩
  · rintro s s' a ha hr ⟨rfl, task, hp⟩ hstep
    rcases ha with rfl | rfl | rfl <;> simp only [machine, step, hp] at hstep <;> cases hstep
    simp [State.producerTo, State.push]

omit [DecidableEq π] in
theorem State.nearer_workerTo (f : Stage φ → ℕ) {v : Fin nThread}
    (hx : x = s.worker v ∨ f x < f (s.worker v)) (w : Fin nThread) :
    (s.workerTo v x).worker w = s.worker w ∨ f ((s.workerTo v x).worker w) < f (s.worker w) := by
  rcases eq_or_ne w v with rfl | hne
  · rwa [State.workerTo_self]
  · exact .inl (State.workerTo_of_ne hne)

theorem Moved.toTake (hm : Moved s s') (hq : s.msgQueue ≠ []) (w : Fin nThread) :
    s.dequeued.length < s'.dequeued.length ∨
      s'.dequeued.length = s.dequeued.length ∧ s'.msgQueue ≠ [] ∧
        (s'.worker w = s.worker w ∨ (s'.worker w).toTake < (s.worker w).toTake) := by
  cases hm with
  | lockPut p task ho hp => exact .inr ⟨rfl, hq, .inl rfl⟩
  | push p task hp => exact .inr ⟨rfl, List.append_ne_nil_of_left_ne_nil hq _, .inl rfl⟩
  | notifyAll p hp =>
    refine .inr ⟨rfl, hq, ?_⟩
    simp only [State.producerTo, State.notifyAll]
    cases s.worker w with
    | out q =>
      cases q with
      | waiting n => cases n <;> simp [Phase.notify, Stage.toTake]
      | _ => exact .inl rfl
    | _ => exact .inl rfl
  | unlockPut p hp => exact .inr ⟨rfl, hq, .inl rfl⟩
  | lock v ho hv =>
    exact .inr ⟨rfl, hq, State.nearer_workerTo (s := s.lock _) _
      (.inr (by simp [State.lock, hv, Stage.toTake])) w⟩
  | test v x hx =>
    refine .inr ⟨rfl, hq, State.nearer_workerTo _ (.inr ?_) w⟩
    generalize s.worker v = a at hx
    cases hx with
    | found ha _ => rcases ha with rfl | rfl <;> simp [Stage.toTake]
    | again hnil => exact absurd hnil hq
    | empty hnil => exact absurd hnil hq
  | sleep v hv =>
    exact .inr ⟨rfl, hq, State.nearer_workerTo (s := s.unlock) _
      (.inr (by simp [State.unlock, hv, Stage.toTake])) w⟩
  | spuriousWake v n hv =>
    refine .inr ⟨rfl, hq, State.nearer_workerTo _ ?_ w⟩
    rw [hv]
    cases n <;> simp [Stage.toTake]
  | reacquire v ho hv =>
    exact .inr ⟨rfl, hq, State.nearer_workerTo (s := s.lock _) _
      (.inr (by simp [State.lock, hv, Stage.toTake])) w⟩
  | pop v job rest hv hcons => exact .inl (by simp [State.workerTo, State.pop])
  | unlock v job hv =>
    exact .inr ⟨rfl, hq, State.nearer_workerTo (s := s.unlock) _
      (.inr (by simp [State.unlock, hv, Stage.toTake])) w⟩
  | advance v q q' l hv hadv =>
    refine .inr ⟨rfl, hq, State.nearer_workerTo (s := s.mark v l) _ (.inr ?_) w⟩
    rw [show (s.mark v l).worker v = .out q from hv]
    exact (advance_nearer hadv).2

def Waits (k : ℕ) (s : State nThread φ π) : Prop := s.msgQueue ≠ [] ∧ s.dequeued.length = k

def Nearer (k : ℕ) (w : Fin nThread) (x : Stage φ) (s : State nThread φ π) : Prop :=
  k < s.dequeued.length ∨ Waits k s ∧ (s.worker w).toTake < x.toTake

theorem Moved.nearer (hm : Moved s s') (hs : Waits k s) (hx : s.worker w = x) :
    (Waits k s' ∧ s'.worker w = x) ∨ Nearer k w x s' := by
  obtain ⟨hq, rfl⟩ := hs
  rcases hm.toTake hq w with h | ⟨hlen, hq', heq | hlt⟩
  · exact .inr (.inl h)
  · exact .inl ⟨⟨hq', hlen⟩, heq.trans hx⟩
  · exact .inr (.inr ⟨⟨hq', hlen⟩, hx ▸ hlt⟩)

theorem unless_nearer (k : ℕ) (w : Fin nThread) (x : Stage φ) :
    (machine nThread φ π).Unless (fun s => Waits k s ∧ s.worker w = x) (Nearer k w x) :=
  fun _ _ _ hs hm => (moves_cases hm).nearer hs.1 hs.2

theorem nearer_of_step {a : Action nThread φ π} (hs : Waits k s ∧ s.worker w = x)
    (h : step s a = some (.ok s')) (hne : s'.worker w ≠ x) : Nearer k w x s' :=
  ((step_cases h).nearer hs.1 hs.2).resolve_left fun h' => hne h'.2

omit [DecidableEq π] in
theorem advance_isSome {q : Phase φ} (h : ¬ q.AtLock) : ∃ r, q.advance = some r := by
  cases q with
  | idle => exact absurd (.inl rfl) h
  | waiting n => exact absurd (.inr ⟨n, rfl⟩) h
  | inFirst job => exact ⟨_, rfl⟩
  | inSecond job => exact ⟨_, rfl⟩
  | holding job =>
    simp only [Phase.advance]
    split <;> exact ⟨_, rfl⟩
  | afterFirst job =>
    simp only [Phase.advance]
    split <;> exact ⟨_, rfl⟩

theorem leadsTo_advance (hf : Fair b) {P Q : State nThread φ π → Prop} {q : Phase φ}
    (hq : ¬ q.AtLock) (hP : ∀ s, P s → s.worker w = .out q)
    (hu : (machine nThread φ π).Unless P Q)
    (hQ : ∀ s s' a, P s → step s a = some (.ok s') → s'.worker w ≠ .out q → Q s') :
    b.LeadsTo P Q := by
  refine .of_weakFair (hf.returns w) hu (fun s _ hs => ?_) fun s s' a ha _ hs hstep => ?_
  · obtain ⟨r, hr⟩ := advance_isSome hq
    exact ⟨.advance w, rfl, by simp [machine, step, hP s hs, hr]⟩
  · obtain rfl : a = .advance w := ha
    refine hQ s s' (.advance w) hs hstep fun heq => ?_
    simp only [machine, step, hP s hs] at hstep
    obtain ⟨⟨q', l⟩, hadv, he⟩ := Option.map_eq_some_iff.mp hstep
    cases he
    rw [State.workerTo_self] at heq
    have hlt := (advance_nearer hadv).1
    rw [heq] at hlt
    exact lt_irrefl _ hlt

theorem leadsTo_section (hf : Fair b) {P Q : State nThread φ π → Prop} (hx : x.Inside)
    (hP : ∀ s, P s → s.worker w = x) (hu : (machine nThread φ π).Unless P Q)
    (hQ : ∀ s s' a, P s → step s a = some (.ok s') → s'.worker w ≠ x → Q s') :
    b.LeadsTo P Q := by
  refine .of_weakFair (hf.sections (.inl w)) hu (fun s hr hs => ?_) fun s s' a ha _ hs hstep => ?_
  · have hg := reachable_guarded hr
    exact hg.enabled ((hg.workers w).mp (hP s hs ▸ hx))
  · refine hQ s s' a hs hstep fun heq => place_ne_of_sections ha hstep ?_
    exact congrArg Sum.inl (heq.trans (hP s hs).symm)

theorem leadsTo_acquire (hf : Fair b) {P Q : State nThread φ π → Prop}
    (hx : x = .out .idle ∨ x = .out (.waiting true)) (hP : ∀ s, P s → s.worker w = x)
    (hu : (machine nThread φ π).Unless P Q)
    (hQ : ∀ s s' a, P s → step s a = some (.ok s') → s'.worker w ≠ x → Q s') :
    b.LeadsTo P Q := by
  refine .of_strongFair (hf.mutex w) hu ?_ fun s s' a ha _ hs hstep => ?_
  · have hfree := ((released hf).mono (fun _ _ (_ : P _) => trivial) fun _ _ h => h).and_unless hu
    refine hfree.mono (fun _ _ h => h) fun s _ hs => hs.imp_left ?_
    rintro ⟨hp, ho⟩
    have hw := hP s hp
    rcases hx with rfl | rfl
    · exact ⟨.lock w, by simp [acquires], by simp [machine, step, ho, hw]⟩
    · exact ⟨.reacquire w, by simp [acquires], by simp [machine, step, ho, hw]⟩
  · refine hQ s s' a hs hstep fun heq => ?_
    have hw := hP s hs
    rcases ha with rfl | rfl <;> simp only [machine, step] at hstep <;> split at hstep <;>
      cases hstep <;> rw [State.workerTo_self] at heq <;> simp [← heq] at hx

theorem nearer_of_stage (hf : Fair b) (k : ℕ) (w : Fin nThread) (x : Stage φ) :
    b.LeadsTo (fun s => Waits k s ∧ s.worker w = x) (Nearer k w x) := by
  have hu := @unless_nearer nThread φ π _ k w x
  have hP : ∀ s : State nThread φ π, Waits k s ∧ s.worker w = x → s.worker w = x :=
    fun _ h => h.2
  have hQ : ∀ (s s' : State nThread φ π) a, Waits k s ∧ s.worker w = x →
      step s a = some (.ok s') → s'.worker w ≠ x → Nearer k w x s' :=
    fun _ _ _ => nearer_of_step
  cases x with
  | out q =>
    cases q with
    | idle => exact leadsTo_acquire hf (.inl rfl) hP hu hQ
    | waiting n =>
      cases n with
      | true => exact leadsTo_acquire hf (.inr rfl) hP hu hQ
      | false =>
        -- the mutex is free some time, and then no worker sleeps without a notification
        have hfree := ((released hf).mono (fun _ _ _ => trivial) fun _ _ h => h).and_unless hu
        refine hfree.mono (fun _ _ h => h) fun s hr hs => hs.resolve_left ?_
        rintro ⟨⟨⟨hq, -⟩, hw⟩, ho⟩
        have hg := reachable_guarded hr
        rcases hg.asleep w hw with hnil | ⟨p, hp⟩
        · exact hq hnil
        · have hown := (hg.producers p).mp (by simp [hp])
          simp [ho] at hown
    | _ => exact leadsTo_advance hf (by simp [Phase.AtLock]) hP hu hQ
  | _ => exact leadsTo_section hf (by simp) hP hu hQ

/-- As long as there is a task in the queue, one is taken. -/
theorem task_taken (hf : Fair b) (h0 : 0 < nThread) (k : ℕ) :
    b.LeadsTo (Waits k) fun s => k < s.dequeued.length := by
  refine .of_measure (fun s => (s.worker ⟨0, h0⟩).toTake) fun d => ?_
  rintro n ⟨hs, rfl⟩
  exact nearer_of_stage hf k ⟨0, h0⟩ _ n ⟨hs, rfl⟩

theorem Moved.grows (hm : Moved s s') :
    s.enqueued <+: s'.enqueued ∧ s.dequeued <+: s'.dequeued ∧ s.calls <+: s'.calls := by
  cases hm with
  | push p task hp =>
    exact ⟨List.prefix_append _ _, List.prefix_rfl, List.prefix_rfl⟩
  | pop w job rest hw hq =>
    exact ⟨List.prefix_rfl, List.prefix_append _ _, List.prefix_rfl⟩
  | advance w q q' l hw hq =>
    exact ⟨List.prefix_rfl, List.prefix_rfl, List.prefix_append _ _⟩
  | _ => exact ⟨List.prefix_rfl, List.prefix_rfl, List.prefix_rfl⟩

theorem state_grows (b : Behavior (machine nThread φ π)) {n m : ℕ} (h : n ≤ m) :
    (b.state n).enqueued <+: (b.state m).enqueued ∧
      (b.state n).dequeued <+: (b.state m).dequeued ∧ (b.state n).calls <+: (b.state m).calls := by
  induction m, h using Nat.le_induction with
  | base => exact ⟨List.prefix_rfl, List.prefix_rfl, List.prefix_rfl⟩
  | succ m _ ih =>
    cases ha : b.action m with
    | none => rwa [b.rests m ha]
    | some a =>
      obtain ⟨he, hd, hc⟩ := (step_cases (b.moves m a ha)).grows
      exact ⟨ih.1.trans he, ih.2.1.trans hd, ih.2.2.trans hc⟩

theorem number_taken (hf : Fair b) (h0 : 0 < nThread) (k : ℕ) :
    b.LeadsTo (fun s => k < s.enqueued.length) fun s => k < s.dequeued.length := by
  refine .of_measure (fun s => k + 1 - s.dequeued.length) fun d => ?_
  rintro n ⟨hk, rfl⟩
  by_cases hlt : k < (b.state n).dequeued.length
  · exact ⟨n, le_rfl, .inl hlt⟩
  obtain ⟨t, ht, hr⟩ := exists_sound (b.reachable n)
  have hfifo := congrArg List.length ht.fifo
  rw [hr.enqueued, hr.dequeued, hr.msgQueue, List.length_append, List.length_map] at hfifo
  have hq : (b.state n).msgQueue ≠ [] := by
    rw [← List.length_pos_iff]
    omega
  obtain ⟨m, hm, htaken⟩ := task_taken hf h0 _ n ⟨hq, rfl⟩
  have hlen := (state_grows b hm).1.length_le
  exact ⟨m, hm, .inr ⟨by omega, by omega⟩⟩

theorem Moved.toFinish (hm : Moved s s') (hw : 0 < (s.worker w).toFinish) :
    s'.worker w = s.worker w ∨ (s'.worker w).toFinish < (s.worker w).toFinish := by
  have hne {v : Fin nThread} (hv : (s.worker v).toFinish = 0) : w ≠ v := by
    rintro rfl
    omega
  cases hm with
  | notifyAll p hp =>
    refine .inl ?_
    simp only [State.producerTo, State.notifyAll]
    cases hx : s.worker w with
    | out q =>
      cases q with
      | waiting n => simp [hx, Stage.toFinish] at hw
      | _ => rfl
    | _ => rfl
  | lock v ho hv =>
    exact .inl (State.workerTo_of_ne (hne (by rw [hv]; rfl)))
  | test v x hx =>
    refine .inl (State.workerTo_of_ne (hne ?_))
    generalize s.worker v = a at hx
    cases hx with
    | found ha _ => rcases ha with rfl | rfl <;> rfl
    | again _ => rfl
    | empty _ => rfl
  | sleep v hv => exact .inl (State.workerTo_of_ne (hne (by rw [hv]; rfl)))
  | spuriousWake v n hv => exact .inl (State.workerTo_of_ne (hne (by rw [hv]; rfl)))
  | reacquire v ho hv => exact .inl (State.workerTo_of_ne (hne (by rw [hv]; rfl)))
  | pop v job rest hv hq => exact .inl (State.workerTo_of_ne (hne (by rw [hv]; rfl)))
  | unlock v job hv =>
    exact State.nearer_workerTo (s := s.unlock) _
      (.inr (by simp [State.unlock, hv, Stage.toFinish])) w
  | advance v q q' l hv hq =>
    refine State.nearer_workerTo (s := s.mark v l) _ (.inr ?_) w
    rw [show (s.mark v l).worker v = .out q from hv]
    exact (advance_nearer hq).1
  | _ => exact .inl rfl

/-- A worker finishes the task that it has taken. -/
theorem task_finished (hf : Fair b) (w : Fin nThread) (job : Job φ) :
    b.LeadsTo (fun s => (w, job) ∈ s.dequeued)
      fun s => (w, job) ∈ s.dequeued ∧ (s.worker w).toFinish = 0 := by
  refine .of_measure (fun s => (s.worker w).toFinish) fun d => ?_
  rintro n ⟨hj, rfl⟩
  by_cases h0 : ((b.state n).worker w).toFinish = 0
  · exact ⟨n, le_rfl, .inl ⟨hj, h0⟩⟩
  generalize hx : (b.state n).worker w = x at h0
  have hmove {s s' : State nThread φ π} (hs : (w, job) ∈ s.dequeued ∧ s.worker w = x)
      (hm : Moved s s') : ((w, job) ∈ s'.dequeued ∧ s'.worker w = x) ∨
        (w, job) ∈ s'.dequeued ∧ (s'.worker w).toFinish < x.toFinish := by
    obtain ⟨hs, rfl⟩ := hs
    have hs' := hm.grows.2.1.subset hs
    exact (hm.toFinish (Nat.pos_of_ne_zero h0)).imp (⟨hs', ·⟩) (⟨hs', ·⟩)
  have hu : (machine nThread φ π).Unless (fun s => (w, job) ∈ s.dequeued ∧ s.worker w = x)
      fun s => (w, job) ∈ s.dequeued ∧ (s.worker w).toFinish < x.toFinish :=
    fun _ _ _ hs hm => hmove hs (moves_cases hm)
  have hQ : ∀ (s s' : State nThread φ π) a, (w, job) ∈ s.dequeued ∧ s.worker w = x →
      step s a = some (.ok s') → s'.worker w ≠ x →
        (w, job) ∈ s'.dequeued ∧ (s'.worker w).toFinish < x.toFinish :=
    fun _ _ _ hs hstep hne => (hmove hs (step_cases hstep)).resolve_left fun h => hne h.2
  have hleads : b.LeadsTo (fun s => (w, job) ∈ s.dequeued ∧ s.worker w = x)
      fun s => (w, job) ∈ s.dequeued ∧ (s.worker w).toFinish < x.toFinish := by
    cases x with
    | out q =>
      have hq : ¬ q.AtLock := by
        rintro (rfl | ⟨m, rfl⟩) <;> exact h0 rfl
      exact leadsTo_advance hf hq (fun _ h => h.2) hu hQ
    | atUnlock job' => exact leadsTo_section hf (by simp) (fun _ h => h.2) hu hQ
    | _ => exact absurd rfl h0
  obtain ⟨m, hm, h⟩ := hleads n ⟨hj, hx⟩
  exact ⟨m, hm, .inr h⟩

omit [DecidableEq π] in
theorem Stage.Shows.remaining {q : Phase φ} (h : x.Shows q) (h0 : x.toFinish = 0) :
    q.remaining = [] := by
  cases x with
  | out p =>
    cases p with
    | idle =>
      obtain rfl := h
      rfl
    | waiting n =>
      obtain ⟨m, rfl⟩ := h
      rfl
    | _ => simp [Stage.toFinish] at h0
  | atUnlock job => simp [Stage.toFinish] at h0
  | _ => exact Phase.AtLock.remaining h

/-- In every fair behavior, with any number of workers and producers, each task that has been
put is taken by a worker some time, and this worker makes all its calls, in order, once and for
all. -/
theorem task_completes (hf : Fair b) (h0 : 0 < nThread) {n : ℕ}
    (hj : job ∈ (b.state n).enqueued) :
    ∃ m ≥ n, ∃ w, ∀ k ≥ m, (w, job) ∈ (b.state k).dequeued ∧
      ((b.state k).calls.filter fun c => c.2.number = job.number) = job.runs.map (w, ·) := by
  obtain ⟨i, hi, hget⟩ := List.getElem_of_mem hj
  obtain ⟨m, hm, hlt⟩ := number_taken hf h0 i n hi
  obtain ⟨t, ht, hr⟩ := exists_sound (b.reachable m)
  -- it is the one at its place among the tasks taken
  have hmem : job ∈ (b.state m).dequeued.map Prod.snd := by
    have hfifo := ht.fifo
    rw [hr.enqueued, hr.dequeued, hr.msgQueue] at hfifo
    have hsame := (state_grows b hm).1.getElem hi
    have hi' : i < ((b.state m).dequeued.map Prod.snd).length := by rwa [List.length_map]
    have hget' : ((b.state m).dequeued.map Prod.snd)[i] = job := by
      rw [← hget, hsame]
      simp only [hfifo, List.getElem_append_left hi']
    exact hget' ▸ List.getElem_mem hi'
  obtain ⟨⟨w, job'⟩, hw, rfl⟩ := List.mem_map.mp hmem
  obtain ⟨m', hm', hdone, hrest⟩ := task_finished hf w job' m hw
  refine ⟨m', hm.trans hm', w, fun k hk => ?_⟩
  obtain ⟨-, hd, hc⟩ := state_grows b hk
  have hin := hd.subset hdone
  refine ⟨hin, ?_⟩
  -- all its calls have been made, and there are no more
  obtain ⟨t', ht', hr'⟩ := exists_sound (b.reachable m')
  have hall := ht'.calls_eq (hr'.dequeued ▸ hdone)
  rw [(hr'.phase w).remaining hrest, List.filter_nil, List.map_nil, List.append_nil,
    hr'.calls] at hall
  obtain ⟨t'', ht'', hr''⟩ := exists_sound (b.reachable k)
  have hpre := ht''.calls_inOrder (hr''.dequeued ▸ hin)
  rw [hr''.calls, ← hall] at hpre
  have hsub := (hc.filter fun c => c.2.number = job'.number).length_le
  rw [← hall]
  exact hpre.eq_of_length_le hsub

def State.Rests (s : State nThread φ π) : Prop :=
  (∀ w, s.worker w = .out (.waiting false)) ∧ ∀ p, s.producer p = .outside

theorem fair_of_rest {m : ℕ} (h : ∀ n ≥ m, (b.state n).Rests) : Fair b where
  mutex w := strongFair_of_not_enabled (m := m) fun n hn ⟨a, ha, s', hs⟩ => by
    rcases ha with rfl | rfl <;> simp [machine, step, (h n hn).1] at hs
  sections t := StrongFair.weakFair <| strongFair_of_not_enabled (m := m) fun n hn
    ⟨a, ha, s', hs⟩ => by
      cases t with
      | inl w => rcases ha with rfl | rfl | rfl | rfl <;> simp [machine, step, (h n hn).1] at hs
      | inr p => rcases ha with rfl | rfl | rfl <;> simp [machine, step, (h n hn).2] at hs
  returns w := StrongFair.weakFair <| strongFair_of_not_enabled (m := m) fun n hn
    ⟨a, ha, s', hs⟩ => by
      obtain rfl : a = .advance w := ha
      simp [machine, step, (h n hn).1, Phase.advance] at hs

def oneTaskRun (w : Fin 1) : List (Action 1 ℕ Unit) :=
  [.lockPut () ⟨some 0, some 1⟩, .push (), .notifyAll (), .unlockPut (), .lock w, .test w, .pop w,
    .unlock w, .advance w, .advance w, .advance w, .advance w, .lock w, .test w, .test w, .sleep w]

theorem oneTaskRun_rests : ∃ t : State 1 ℕ Unit,
    (machine 1 ℕ Unit).replay init (oneTaskRun 0) = some t ∧ t.Rests := by
  refine ⟨_, rfl, fun w => ?_, fun p => ?_⟩
  · obtain rfl := Subsingleton.elim w 0
    rfl
  · rfl

theorem task_completes_single : ∃ b : Behavior (machine 1 ℕ Unit), Fair b ∧
    ∃ m ≥ 2, ∃ w, ∀ k ≥ m, (w, ⟨0, some 0, some 1⟩) ∈ (b.state k).dequeued ∧
      ((b.state k).calls.filter fun c => c.2.number = 0) =
        (Job.runs ⟨0, (⟨some 0, some 1⟩ : QYUtilTask ℕ)⟩).map (w, ·) := by
  obtain ⟨t, ht, hrests⟩ := oneTaskRun_rests
  obtain ⟨b, hb, -⟩ := (machine 1 ℕ Unit).exists_behavior ht
  have hf : Fair b := fair_of_rest (m := (oneTaskRun 0).length) fun n hn => by
    rwa [state_of_replay hb ht hn]
  refine ⟨b, hf, task_completes hf zero_lt_one ?_⟩
  have hstate := Option.some.inj (hb 2)
  rw [← hstate]
  exact List.mem_singleton.mpr rfl

end QyUtil.TaskQueue.Locking
