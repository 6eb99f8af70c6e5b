import QyUtil.Async.Answers
import QyUtil.TaskQueue.Liveness

/-! # Every call is answered

What the system does is, as far as the queue is concerned, what the queue does. So when the
threads are scheduled fairly and the callables come back, the task of each call is put, taken
and finished, and its answer has been handed over behind the answers to the calls before it.
-/

namespace QyUtil.Async

open Runs Loops Outcome Bytes TaskQueue Behavior

universe u

variable {κ : Type} {π : Type u} [DecidableEq π] {s s' : State κ π} {memory : Memory}

def seen (s : State κ π) : Action κ π → Option (Locking.Action 1 (Callable κ) π)
  | .call p r => match r.task s.memory s.queue.enqueued.length with
    | .done task => some (.lockPut p task)
    | _ => none
  | .thread a => some a
  | .returns _ => some (.advance theWorker)
  | .store _ _ => none

theorem step_seen {a : Action κ π} {a' : Locking.Action 1 (Callable κ) π}
    (h : step s a = some (.ok s')) (ha : seen s a = some a') :
    Locking.step s.queue a' = some (.ok s'.queue) := by
  cases a with
  | call p r =>
    simp only [step] at h
    split at h
    · cases h
    · cases h
    · rename_i task ht
      simp only [seen, ht, Option.some.injEq] at ha
      obtain ⟨q, hq, rfl⟩ := queueStep_eq_ok h
      exact ha ▸ hq
  | thread a =>
    cases ha
    simp only [step] at h
    split at h
    · cases h
    · cases h
    · obtain ⟨q, hq, rfl⟩ := queueStep_eq_ok h
      exact hq
  | returns w =>
    cases ha
    simp only [step] at h
    split at h
    · cases h
    split at h
    · cases h
    · cases h
    · obtain ⟨q, hq, rfl⟩ := queueStep_eq_ok h
      exact hq
  | store p t => cases ha

theorem step_unseen {a : Action κ π} (h : step s a = some (.ok s')) (ha : seen s a = none) :
    s'.queue = s.queue := by
  cases a with
  | call p r =>
    simp only [step] at h
    split at h
    · cases h
    · cases h
    · rename_i task ht
      simp [seen, ht] at ha
  | thread a => cases ha
  | returns w => cases ha
  | store p t =>
    cases h
    rfl

def queueOf (b : Behavior (machine memory κ π)) :
    Behavior (Locking.machine 1 (Callable κ) π) :=
  b.project State.queue seen rfl (fun _ _ _ _ => step_seen) fun _ _ _ => step_unseen

theorem Moved.grows {a : Action κ π} (hm : Moved s a s') :
    s.served <+: s'.served ∧ s.delivered <+: s'.delivered := by
  cases hm with
  | first job c w r q => exact ⟨List.prefix_append _ _, List.prefix_append _ _⟩
  | second job c w r q => exact ⟨List.prefix_rfl, List.prefix_append _ _⟩
  | _ => exact ⟨List.prefix_rfl, List.prefix_rfl⟩

theorem state_grows (b : Behavior (machine memory κ π)) {n m : ℕ} (h : n ≤ m) :
    (b.state n).served <+: (b.state m).served ∧
      (b.state n).delivered <+: (b.state m).delivered := by
  induction m, h using Nat.le_induction with
  | base => exact ⟨List.prefix_rfl, List.prefix_rfl⟩
  | succ m _ ih =>
    cases ha : b.action m with
    | none => rwa [b.rests m ha]
    | some a =>
      obtain ⟨hserved, hdelivered⟩ := (step_cases (b.moves m a ha)).grows
      exact ⟨ih.1.trans hserved, ih.2.trans hdelivered⟩

theorem nothing_left {x : Locking.Stage (Callable κ)} (h : x.toFinish = 0) :
    taking x = [] ∧ finishing x = none := by
  cases x with
  | out q => cases q <;> first | exact ⟨rfl, rfl⟩ | simp [Locking.Stage.toFinish] at h
  | atUnlock job => simp [Locking.Stage.toFinish] at h
  | _ => exact ⟨rfl, rfl⟩

/-- The request of this number has been made, and its task put or about to be. -/
def Made (number : ℕ) (x : Request κ × Memory) (s : State κ π) : Prop :=
  s.requests number = some x ∧ (number < s.queue.enqueued.length ∨
    number = s.queue.enqueued.length ∧ ∃ p task, s.queue.producer p = .atPush task)

theorem Moved.made {a : Action κ π} (hm : Moved s a s') (hs : Inv s) {number : ℕ}
    {x : Request κ × Memory} (h : Made number x s) : Made number x s' := by
  obtain ⟨hx, hnumber⟩ := h
  cases hm with
  | call p r task q ht hq =>
    simp only [Locking.step] at hq
    split at hq <;> cases hq
    rename_i howner hp
    have hlt : number < s.queue.enqueued.length := by
      refine hnumber.resolve_right ?_
      rintro ⟨-, p', task', hp'⟩
      have hg := ((Locking.reachable_guarded hs.queue).producers p').mp (by simp [hp'])
      simp [howner] at hg
    exact ⟨(Function.update_of_ne hlt.ne ..).trans hx, .inl hlt⟩
  | thread a q _ hq =>
    refine ⟨hx, ?_⟩
    cases hq with
    | push p task hp =>
      refine .inl ?_
      show number < (s.queue.enqueued ++ [_]).length
      rw [List.length_append, List.length_singleton]
      omega
    | pop job rest hw _ => exact hnumber
    | skip job _ hw =>
      rcases hw with ⟨hw, hnone⟩ | ⟨hw, hnone⟩
      · exact absurd hnone (hs.shape (List.mem_append_right _ hw)).isSome.1
      · exact absurd hnone (hs.shape (List.mem_append_left _ (hs.last job hw))).isSome.2
    | quiet _ henqueued hdequeued hproducer =>
      dsimp only
      rw [henqueued]
      simpa only [hproducer] using hnumber
  | first job c w r q _ _ _ _ hq =>
    subst hq
    exact ⟨hx, hnumber⟩
  | second job c w r q _ _ _ _ hq =>
    subst hq
    exact ⟨hx, hnumber⟩
  | store p t => exact ⟨hx, hnumber⟩

theorem made_forever (b : Behavior (machine memory κ π)) {n m number : ℕ}
    {x : Request κ × Memory} (h : Made number x (b.state n)) (hm : n ≤ m) :
    Made number x (b.state m) := by
  induction m, hm using Nat.le_induction with
  | base => exact h
  | succ m _ ih =>
    cases ha : b.action m with
    | none => rwa [b.rests m ha]
    | some a => exact (step_cases (b.moves m a ha)).made (reachable_inv (b.reachable m)) ih

theorem Inv.number_served (hs : Inv s) {i : ℕ} (hi : i < s.served.length) :
    s.served[i].job.number = i := by
  have hnumbers := hs.numbered
  rw [hs.enqueued_eq, hs.taken, List.append_assoc, List.map_append, List.map_map] at hnumbers
  have hget := congrArg (·[i]?) hnumbers
  simp only [List.getElem?_append_left (show i < (s.served.map (Job.number ∘ Served.job)).length
    by simpa using hi), List.getElem?_map, List.getElem?_eq_getElem hi, Option.map_some] at hget
  rw [List.getElem?_range (by simp; omega)] at hget
  exact Option.some.inj hget

/-- In every fair behavior each task that is going to be put is served some time, and then
there is nothing in hand. -/
theorem task_served (b : Behavior (machine memory κ π)) (hf : Locking.Fair (queueOf b)) {n : ℕ}
    {p : π} {task : QYUtilTask (Callable κ)}
    (hp : (b.state n).queue.producer p = .atPush task) :
    ∃ m ≥ n, (b.state n).queue.enqueued.length < (b.state m).served.length ∧
      (b.state m).delivered = (b.state m).served.flatMap Served.deliveries := by
  obtain ⟨m₁, hm₁, hput⟩ := Locking.task_put hf p _ n ⟨rfl, task, hp⟩
  obtain ⟨m₂, hm₂, htaken⟩ := Locking.number_taken hf zero_lt_one _ m₁ hput
  obtain ⟨⟨w, job⟩, hjob⟩ := List.exists_mem_of_length_pos (Nat.zero_lt_of_lt htaken)
  obtain ⟨m₃, hm₃, -, hdone⟩ := Locking.task_finished hf w job m₂ hjob
  obtain rfl := Subsingleton.elim w theWorker
  refine ⟨m₃, (hm₁.trans hm₂).trans hm₃, ?_⟩
  have hs := reachable_inv (b.reachable m₃)
  obtain ⟨htaking, hfinishing⟩ := nothing_left hdone
  have hserved := congrArg List.length hs.taken
  have hhanded := hs.handed
  have hgrows := (Locking.state_grows (queueOf b) hm₃).2.1.length_le
  rw [show taking ((b.state m₃).queue.worker theWorker) = [] from htaking, List.append_nil,
    List.length_map, List.length_map] at hserved
  rw [State.pending, show finishing ((b.state m₃).queue.worker theWorker) = none from hfinishing,
    Option.elim_none, List.append_nil] at hhanded
  exact ⟨hserved ▸ htaken.trans_le hgrows, hhanded⟩

/-- In every fair behavior, in which each callable that is begun also returns, each call is
answered some time: its task has then been served, and all answers up to its own have been
handed over, in the order of the calls, for good. -/
theorem call_answered (b : Behavior (machine memory κ π)) (hf : Locking.Fair (queueOf b)) {n : ℕ}
    {p : π} {r : Request κ} (hn : b.action n = some (.call p r)) :
    ∃ m ≥ n, ∃ before e, (∀ k ≥ m, before ++ [e] <+: (b.state k).served ∧
        (before ++ [e]).flatMap Served.deliveries <+: (b.state k).delivered) ∧
      before.length = (b.state n).queue.enqueued.length ∧
      Answers e.memory e.world (b.state n).memory r e.deliveries := by
  -- the call is made, and its task is going to be put
  obtain ⟨task, hput, hlength, hmade⟩ : ∃ task,
      (b.state (n + 1)).queue.producer p = .atPush task ∧
      (b.state (n + 1)).queue.enqueued.length = (b.state n).queue.enqueued.length ∧
      Made (b.state n).queue.enqueued.length (r, (b.state n).memory) (b.state (n + 1)) := by
    have hstep := step_cases (b.moves n _ hn)
    generalize b.state (n + 1) = s' at hstep ⊢
    cases hstep with
    | call _ _ task q ht hq =>
      simp only [Locking.step] at hq
      split at hq <;> cases hq
      have hp' := Locking.State.producerTo_self (s := (b.state n).queue.lock (.inr p)) (p := p)
        (y := .atPush task)
      exact ⟨task, hp', rfl, Function.update_self .., .inr ⟨rfl, p, task, hp'⟩⟩
  obtain ⟨m, hm, hlt, hdelivered⟩ := task_served b hf hput
  rw [hlength] at hlt
  have hs := reachable_inv (b.reachable m)
  refine ⟨m, n.le_succ.trans hm, (b.state m).served.take (b.state n).queue.enqueued.length,
    (b.state m).served[(b.state n).queue.enqueued.length], fun k hk => ?_,
    List.length_take_of_le hlt.le, ?_⟩
  · obtain ⟨hserved, hgrown⟩ := state_grows b hk
    have hpre := List.take_prefix ((b.state n).queue.enqueued.length + 1) (b.state m).served
    rw [List.take_append_getElem hlt]
    refine ⟨hpre.trans hserved, List.IsPrefix.trans ?_ hgrown⟩
    rw [hdelivered]
    obtain ⟨rest, hrest⟩ := hpre
    exact ⟨rest.flatMap Served.deliveries, by rw [← List.flatMap_append, hrest]⟩
  · have hmem := List.getElem_mem hlt
    obtain ⟨r', asked, hr, ht⟩ := hs.asked _
      (hs.mem_enqueued (List.mem_append_left _ (List.mem_map_of_mem hmem)))
    rw [hs.number_served hlt, (made_forever b hmade hm).1] at hr
    obtain ⟨rfl, rfl⟩ := Prod.mk.inj (Option.some.inj hr)
    exact (Served.answers ht (hs.ran _ hmem)).1

def onePingRests : List (Action ℕ Unit) :=
  onePing ++ [.thread (.lock theWorker), .thread (.test theWorker), .thread (.test theWorker),
    .thread (.sleep theWorker)]

theorem call_answered_ping : ∃ b : Behavior (machine oneHost ℕ Unit),
    Locking.Fair (queueOf b) ∧ ∃ m, ∃ before e,
      (∀ k ≥ m, (before ++ [e]).flatMap Served.deliveries <+: (b.state k).delivered) ∧
      before.length = 0 ∧
      Answers e.memory e.world oneHost (.ping (some 7) 4 8 1 0 (some 5)) e.deliveries := by
  have hrun : ((machine oneHost ℕ Unit).replay (init oneHost) onePingRests).map (fun s =>
      decide (s.queue.worker theWorker = .out (.waiting false) ∧ s.queue.producer () = .outside)) =
        some true := by decide +kernel
  obtain ⟨t, ht, hrests⟩ := Option.map_eq_some_iff.mp hrun
  obtain ⟨hworker, hproducer⟩ := of_decide_eq_true hrests
  obtain ⟨b, hb, haction⟩ := (machine oneHost ℕ Unit).exists_behavior ht
  have hf : Locking.Fair (queueOf b) := Locking.fair_of_rest (m := onePingRests.length)
    fun n hn => by
      show (b.state n).queue.Rests
      rw [state_of_replay hb ht hn]
      exact ⟨fun w => Subsingleton.elim w theWorker ▸ hworker, fun _ => hproducer⟩
  obtain ⟨m, -, before, e, hall, hlength, hanswers⟩ :=
    call_answered b hf (n := 0) ((haction 0).trans rfl)
  rw [b.start] at hlength hanswers
  exact ⟨b, hf, m, before, e, fun k hk => (hall k hk).2, hlength, hanswers⟩

end QyUtil.Async
