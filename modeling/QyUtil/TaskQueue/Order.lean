import QyUtil.TaskQueue.Basic
import QyUtil.Runs.Log

/-! # Order of the tasks

The jobs taken so far, followed by the queue, are the jobs put so far. What a
worker has called, followed by what it still has to call, is what its jobs ask
for, one job after another. Both equations are kept by every step, and the
order of all calls follows from them.
-/

namespace QyUtil.TaskQueue

open Runs

universe u v

variable {nThread : ℕ} {φ : Type u} {π : Type v} {s s' : State nThread φ}

/-- The calls that the second callable asks for. -/
def Job.secondCalls (job : Job φ) : List Mark :=
  if job.task.second.isSome then
    [⟨job.number, .second, .starts⟩, ⟨job.number, .second, .returns⟩]
  else []

/-- The calls that a job takes. Without a first callable the second is not run. -/
def Job.runs (job : Job φ) : List Mark :=
  if job.task.first.isSome then
    ⟨job.number, .first, .starts⟩ :: ⟨job.number, .first, .returns⟩ :: job.secondCalls
  else []

/-- What a worker still has to call before it takes another job. -/
def Phase.remaining : Phase φ → List Mark
  | .holding job => job.runs
  | .inFirst job => ⟨job.number, .first, .returns⟩ :: job.secondCalls
  | .afterFirst job => job.secondCalls
  | .inSecond job => [⟨job.number, .second, .returns⟩]
  | .idle | .waiting _ => []

theorem advance_remaining {p p' : Phase φ} {l : List Mark}
    (h : p.advance = some (p', l)) : p.remaining = l ++ p'.remaining := by
  cases p with
  | idle => cases h
  | waiting _ => cases h
  | inFirst job =>
    cases h
    rfl
  | inSecond job =>
    cases h
    rfl
  | holding job =>
    simp only [Phase.advance] at h
    split at h <;> cases h <;> simp_all [Phase.remaining, Job.runs]
  | afterFirst job =>
    simp only [Phase.advance] at h
    split at h <;> cases h <;> simp_all [Phase.remaining, Job.secondCalls]

@[simp] theorem remaining_notify (p : Phase φ) : p.notify.remaining = p.remaining := by
  cases p <;> rfl

theorem Phase.AtLock.remaining {p : Phase φ} (h : p.AtLock) : p.remaining = [] := by
  rcases h with rfl | ⟨_, rfl⟩ <;> rfl

theorem number_of_mem_secondCalls {job : Job φ} {c : Mark} (h : c ∈ job.secondCalls) :
    c.number = job.number := by
  unfold Job.secondCalls at h
  split at h
  · simp only [List.mem_cons, List.not_mem_nil, or_false] at h
    rcases h with rfl | rfl <;> rfl
  · cases h

theorem number_of_mem_runs {job : Job φ} {c : Mark} (h : c ∈ job.runs) :
    c.number = job.number := by
  unfold Job.runs at h
  split at h
  · rcases List.mem_cons.mp h with rfl | h
    · rfl
    · rcases List.mem_cons.mp h with rfl | h
      · rfl
      · exact number_of_mem_secondCalls h
  · cases h

/-- What holds of the queue and the workers between any two steps. -/
structure Sound (s : State nThread φ) : Prop where
  numbered : s.enqueued.map Job.number = List.range s.enqueued.length
  fifo : s.enqueued = s.dequeued.map Prod.snd ++ s.msgQueue
  asleep : ∀ w, s.phase w = .waiting false → s.msgQueue = []
  inTurn : ∀ w, own w s.calls ++ (s.phase w).remaining = (own w s.dequeued).flatMap Job.runs

theorem init_sound : Sound (init : State nThread φ) where
  numbered := rfl
  fifo := rfl
  asleep _ _ := rfl
  inTurn _ := rfl

theorem Sound.putTask (h : Sound s) (task : QYUtilTask φ) : Sound (s.putTask task) where
  numbered := by simp [State.putTask, h.numbered, List.range_succ]
  fifo := by simp [State.putTask, h.fifo]
  asleep w hw := by
    simp only [State.putTask] at hw
    cases hp : s.phase w <;> simp [hp, Phase.notify] at hw
  inTurn w := by simpa [State.putTask] using h.inTurn w

theorem Sound.sleep (h : Sound s) {w : Fin nThread} (hw : (s.phase w).AtLock)
    (hq : s.msgQueue = []) : Sound (s.moveTo w (.waiting false)) where
  numbered := h.numbered
  fifo := h.fifo
  asleep _ _ := hq
  inTurn v := by
    have hi := h.inTurn v
    rcases eq_or_ne v w with rfl | hv
    · rw [hw.remaining] at hi
      simpa [State.moveTo, Phase.remaining] using hi
    · simpa [State.moveTo, Function.update_of_ne hv] using hi

theorem Sound.take (h : Sound s) {w : Fin nThread} {job : Job φ} {rest : List (Job φ)}
    (hw : (s.phase w).AtLock) (hq : s.msgQueue = job :: rest) : Sound (s.take w job rest) where
  numbered := h.numbered
  fifo := by simpa [State.take, State.moveTo, hq] using h.fifo
  asleep v hv := by
    -- A worker asleep without a notification means that there was nothing to take.
    rcases eq_or_ne v w with rfl | hne
    · simp [State.take, State.moveTo] at hv
    · have hs : s.phase v = .waiting false := by
        simpa [State.take, State.moveTo, Function.update_of_ne hne] using hv
      simp [h.asleep v hs] at hq
  inTurn v := by
    have hi := h.inTurn v
    rcases eq_or_ne v w with rfl | hv
    · rw [hw.remaining, List.append_nil] at hi
      have hj : own v [(v, job)] = [job] := own_map [job]
      simp [State.take, State.moveTo, Phase.remaining, hj, hi]
    · have hj : own v [(w, job)] = [] := own_map_of_ne hv.symm [job]
      simpa [State.take, State.moveTo, Function.update_of_ne hv, hj] using hi

theorem Sound.pass (h : Sound s) {w : Fin nThread} {p : Phase φ} {l : List Mark}
    (hw : (s.phase w).advance = some (p, l)) : Sound (s.pass w p l) where
  numbered := h.numbered
  fifo := h.fifo
  asleep v hv := by
    rcases eq_or_ne v w with rfl | hne
    · have hp : p = .waiting false := by simpa [State.pass, State.moveTo] using hv
      exact absurd hp (advance_ne_waiting hw false)
    · apply h.asleep v
      simpa [State.pass, State.moveTo, Function.update_of_ne hne] using hv
  inTurn v := by
    have hi := h.inTurn v
    rcases eq_or_ne v w with rfl | hv
    · simpa [State.pass, State.moveTo, advance_remaining hw] using hi
    · simpa [State.pass, State.moveTo, Function.update_of_ne hv, own_map_of_ne hv.symm] using hi

theorem Moved.sound (hm : Moved s s') (h : Sound s) : Sound s' := by
  cases hm with
  | put task => exact h.putTask task
  | sleep w hw hq => exact h.sleep hw hq
  | take w job rest hw hq => exact h.take hw hq
  | pass w p l hw => exact h.pass hw

theorem reachable_sound (h : (machine nThread φ π).Reachable s) : Sound s :=
  h.invariant init_sound fun _ _ hm => (moves_cases hm).sound

section Numbers

theorem Sound.dequeued_numbers (h : Sound s) :
    (s.dequeued.map Prod.snd).map Job.number = List.range s.dequeued.length := by
  have hn := congrArg (List.take s.dequeued.length) h.numbered
  have hl : s.dequeued.length ≤ s.enqueued.length := by simp [h.fifo]
  rw [List.take_range, min_eq_left hl, ← List.map_take, h.fifo] at hn
  simpa using hn

theorem Sound.dequeued_nodup (h : Sound s) : (s.dequeued.map fun d => d.2.number).Nodup := by
  have hn := h.dequeued_numbers
  rw [List.map_map] at hn
  exact hn ▸ List.nodup_range

theorem Sound.taken_once (h : Sound s) {w w' : Fin nThread} {job job' : Job φ}
    (hj : (w, job) ∈ s.dequeued) (hj' : (w', job') ∈ s.dequeued)
    (hn : job.number = job'.number) : (w, job) = (w', job') :=
  List.inj_on_of_nodup_map h.dequeued_nodup hj hj' hn

theorem Sound.own_mark (h : Sound s) {w : Fin nThread} {c : Mark} (hc : (w, c) ∈ s.calls) :
    ∃ job, (w, job) ∈ s.dequeued ∧ c.number = job.number := by
  have hm : c ∈ (own w s.dequeued).flatMap Job.runs := by
    rw [← h.inTurn w]
    exact List.mem_append_left _ (mem_own.mpr hc)
  obtain ⟨job, hj, hr⟩ := List.mem_flatMap.mp hm
  exact ⟨job, mem_own.mp hj, number_of_mem_runs hr⟩

end Numbers

section Calls

theorem filter_runs {jobs : List (Job φ)} (hn : (jobs.map Job.number).Nodup) {job : Job φ}
    (hj : job ∈ jobs) :
    (jobs.flatMap Job.runs).filter (fun c => c.number = job.number) = job.runs := by
  have hself : job.runs.filter (fun c => c.number = job.number) = job.runs :=
    List.filter_eq_self.mpr fun c hc => by simpa using number_of_mem_runs hc
  have hother {l : List (Job φ)} (hl : job.number ∉ l.map Job.number) :
      (l.flatMap Job.runs).filter (fun c => c.number = job.number) = [] := by
    apply List.filter_eq_nil_iff.mpr
    intro c hc
    obtain ⟨job', hj', hr⟩ := List.mem_flatMap.mp hc
    have hne : c.number ≠ job.number := by
      rw [number_of_mem_runs hr]
      rintro he
      exact hl (he ▸ List.mem_map_of_mem hj')
    simpa using hne
  obtain ⟨before, after, rfl⟩ := List.append_of_mem hj
  rw [List.map_append, List.map_cons, List.nodup_append] at hn
  obtain ⟨-, ha, hd⟩ := hn
  have hb : job.number ∉ before.map Job.number :=
    fun hm => hd _ hm _ List.mem_cons_self rfl
  rw [List.flatMap_append, List.flatMap_cons, List.filter_append, List.filter_append, hself,
    hother hb, hother (List.nodup_cons.mp ha).1, List.nil_append, List.append_nil]

theorem filter_eq_own {w : Fin nThread} {l : List (Fin nThread × Mark)} {k : ℕ}
    (h : ∀ c ∈ l, c.2.number = k → c.1 = w) :
    l.filter (fun c => c.2.number = k) =
      ((own w l).filter fun c => c.number = k).map (w, ·) := by
  induction l with
  | nil => rfl
  | cons c l ih =>
    have hl := ih fun d hd => h d (List.mem_cons_of_mem _ hd)
    obtain ⟨v, m⟩ := c
    by_cases hk : m.number = k
    · obtain rfl : v = w := h _ List.mem_cons_self hk
      simpa [own, hk] using hl
    · by_cases hv : v = w <;> simpa [own, hk, hv] using hl

theorem Sound.calls_eq (h : Sound s) {w : Fin nThread} {job : Job φ}
    (hj : (w, job) ∈ s.dequeued) :
    (s.calls.filter fun c => c.2.number = job.number) ++
      ((s.phase w).remaining.filter fun c => c.number = job.number).map (w, ·) =
        job.runs.map (w, ·) := by
  have hw : ∀ c ∈ s.calls, c.2.number = job.number → c.1 = w := by
    rintro ⟨v, c⟩ hc hk
    obtain ⟨job', hj', hn⟩ := h.own_mark hc
    exact congrArg Prod.fst (h.taken_once hj' hj (hn.symm.trans hk))
  have hnodup : ((own w s.dequeued).map Job.number).Nodup := by
    have hs : ((own w s.dequeued).map Job.number).Sublist
        (s.dequeued.map fun d => d.2.number) := by
      simpa [own, Function.comp_def] using
        (List.filter_sublist (l := s.dequeued)).map fun d => d.2.number
    exact h.dequeued_nodup.sublist hs
  rw [filter_eq_own hw, ← List.map_append, ← List.filter_append, h.inTurn w,
    filter_runs hnodup (mem_own.mpr hj)]

theorem Sound.calls_inOrder (h : Sound s) {w : Fin nThread} {job : Job φ}
    (hj : (w, job) ∈ s.dequeued) :
    (s.calls.filter fun c => c.2.number = job.number) <+: job.runs.map (w, ·) :=
  ⟨_, h.calls_eq hj⟩

end Calls

section OneWorker

theorem own_one {β : Type*} {w : Fin 1} (l : List (Fin 1 × β)) : own w l = l.map Prod.snd := by
  have hf : l.filter (fun d => d.1 = w) = l :=
    List.filter_eq_self.mpr fun d _ => by simpa using Subsingleton.elim d.1 w
  rw [own, hf]

/-- In a sequence of whole jobs, a job starts after every call of the jobs before it. -/
theorem runs_before {jobs : List (Job φ)} (hn : (jobs.map Job.number).Pairwise (· < ·))
    {before after : List Mark} {c : Mark} (h : before ++ c :: after = jobs.flatMap Job.runs)
    {job : Job φ} (hj : job ∈ jobs) (hk : job.number < c.number) :
    ∀ d ∈ job.runs, d ∈ before := by
  have hc : c ∈ jobs.flatMap Job.runs := by simp [← h]
  obtain ⟨job', hj', hr⟩ := List.mem_flatMap.mp hc
  have hc' := number_of_mem_runs hr
  obtain ⟨fst, snd, rfl⟩ := List.append_of_mem hj'
  rw [List.map_append, List.map_cons, List.pairwise_append, List.pairwise_cons] at hn
  obtain ⟨-, ⟨hsnd, -⟩, hfst⟩ := hn
  have hin : job ∈ fst := by
    rcases List.mem_append.mp hj with hm | hm
    · exact hm
    · rcases List.mem_cons.mp hm with rfl | hm
      · omega
      · have := hsnd _ (List.mem_map_of_mem hm)
        omega
  have hout : c ∉ fst.flatMap Job.runs := by
    intro hm
    obtain ⟨job'', hj'', hr''⟩ := List.mem_flatMap.mp hm
    have := hfst _ (List.mem_map_of_mem hj'') _ List.mem_cons_self
    have := number_of_mem_runs hr''
    omega
  have hsub : fst.flatMap Job.runs ⊆ before := by
    rw [List.flatMap_append] at h
    rcases List.append_eq_append_iff.mp h with ⟨m, hm, hrest⟩ | ⟨m, hm, -⟩
    · cases m with
      | nil => simp [hm]
      | cons d m =>
        obtain rfl : c = d := (List.cons.inj hrest).1
        exact absurd (by simp [hm]) hout
    · exact hm ▸ List.subset_append_left _ _
  exact fun d hd => hsub (List.mem_flatMap.mpr ⟨job, hin, hd⟩)

theorem Sound.finished_before {s : State 1 φ} (h : Sound s)
    {before after : List (Fin 1 × Mark)} {w : Fin 1} {c : Mark}
    (hc : s.calls = before ++ (w, c) :: after) {v : Fin 1} {job : Job φ}
    (hj : (v, job) ∈ s.dequeued) (hk : job.number < c.number) :
    ∀ d ∈ job.runs, (v, d) ∈ before := by
  have hi := h.inTurn w
  rw [own_one, own_one, hc, List.map_append, List.map_cons, List.append_assoc,
    List.cons_append] at hi
  have hn : ((s.dequeued.map Prod.snd).map Job.number).Pairwise (· < ·) := by
    rw [h.dequeued_numbers]
    exact List.pairwise_lt_range
  intro d hd
  have hm := runs_before hn hi (List.mem_map_of_mem hj) hk d hd
  obtain ⟨⟨u, m⟩, hu, rfl⟩ := List.mem_map.mp hm
  rwa [Subsingleton.elim v u]

theorem Sound.taken_before (h : Sound s) {w : Fin nThread} {c : Mark} (hc : (w, c) ∈ s.calls)
    {k : ℕ} (hk : k < c.number) : ∃ v job, (v, job) ∈ s.dequeued ∧ job.number = k := by
  obtain ⟨job, hj, hn⟩ := h.own_mark hc
  have hnum := h.dequeued_numbers
  have hlt : job.number ∈ List.range s.dequeued.length := by
    rw [← hnum, List.map_map]
    exact List.mem_map_of_mem hj
  have hmem : k ∈ (s.dequeued.map Prod.snd).map Job.number := by
    rw [hnum, List.mem_range]
    have := List.mem_range.mp hlt
    omega
  simp only [List.map_map, List.mem_map, Function.comp_apply, Prod.exists] at hmem
  obtain ⟨v, job', hv, hk'⟩ := hmem
  exact ⟨v, job', hv, hk'⟩

end OneWorker

/-- In every run, with any number of workers and producers and any order of
steps: no step takes from an empty queue; the jobs put are the jobs taken,
followed by the queue; every job is taken at most once; only the worker that took
a job runs it, the first callable and then the second, each at most once; and a
single worker has finished a job before it starts the next. -/
theorem tasks_in_order (h : (machine nThread φ π).Reachable s) :
    (∀ (a : Action nThread φ π) (e : Fault), step s a ≠ some (.error e)) ∧
    s.enqueued = s.dequeued.map Prod.snd ++ s.msgQueue ∧
    s.enqueued.map Job.number = List.range s.enqueued.length ∧
    (s.dequeued.map fun d => d.2.number).Nodup ∧
    (∀ w w' job, (w, job) ∈ s.dequeued → (w', job) ∈ s.dequeued → w = w') ∧
    (∀ c ∈ s.calls, ∃ job, (c.1, job) ∈ s.dequeued ∧ c.2.number = job.number) ∧
    (∀ w job, (w, job) ∈ s.dequeued →
      (s.calls.filter fun c => c.2.number = job.number) <+: job.runs.map (w, ·)) ∧
    (nThread = 1 → ∀ before after w k,
      s.calls = before ++ (w, ⟨k + 1, .first, .starts⟩) :: after →
      ∃ v job, (v, job) ∈ s.dequeued ∧ job.number = k ∧ ∀ d ∈ job.runs, (v, d) ∈ before) := by
  have hs := reachable_sound h
  refine ⟨?_, hs.fifo, hs.numbered, hs.dequeued_nodup, ?_, ?_, fun _ _ => hs.calls_inOrder, ?_⟩
  · intro a e ha
    obtain ⟨_, he, -⟩ := step_cases ha
    cases he
  · intro w w' job hj hj'
    exact congrArg Prod.fst (hs.taken_once hj hj' rfl)
  · exact fun c hc => hs.own_mark hc
  · rintro rfl before after w k hc
    have hm : (w, (⟨k + 1, .first, .starts⟩ : Mark)) ∈ s.calls := by simp [hc]
    obtain ⟨v, job, hj, hk⟩ := hs.taken_before hm (Nat.lt_succ_self k)
    exact ⟨v, job, hj, hk, hs.finished_before hc hj (by simp [hk])⟩

/-- One worker sleeps, is woken in vain, is woken by a task, runs both of its
callables and starts the next task. -/
def busyRun : List (Action 1 ℕ Bool) :=
  [.enter 0, .wake 0, .putTask true ⟨some 0, some 1⟩, .wake 0, .putTask false ⟨some 2, none⟩,
    .advance 0, .advance 0, .advance 0, .advance 0, .enter 0, .advance 0]

theorem tasks_in_order_busy : ∃ s : State 1 ℕ,
    (machine 1 ℕ Bool).replay init busyRun = some s ∧
    (∀ (a : Action 1 ℕ Bool) (e : Fault), step s a ≠ some (.error e)) ∧
    ∃ v job, (v, job) ∈ s.dequeued ∧ job.number = 0 ∧
      ∀ d ∈ job.runs, (v, d) ∈ s.calls.take 4 := by
  refine ⟨_, rfl, ?_⟩
  obtain ⟨hsafe, -, -, -, -, -, -, hone⟩ :=
    tasks_in_order ((machine 1 ℕ Bool).reachable_start.replay busyRun rfl)
  exact ⟨hsafe, hone rfl _ [] 0 0 rfl⟩

end QyUtil.TaskQueue
