import QyUtil.Async.Answers
import QyUtil.Diagnosis.Descriptors

/-! # Descriptors over a run

The process has one table of descriptors for all tasks. A task gives back what it takes, except
for a lookup that gets to a server which is no address. When such lookups have filled the table,
no lookup is answered any more.
-/

namespace QyUtil.Async

open Runs Loops Outcome Bytes TaskQueue Dns Diagnosis

universe u

variable {κ : Type} {π : Type u}

def readArguments (m : Memory) (hostName dnsServer : Option Pointer) :
    Outcome Fault (Option Bytes × Option Bytes) := do
  let host ← m.readOptional hostName
  let dns ← m.readOptional (if host.isSome then dnsServer else none)
  pure (host, dns)

/-- The calls of `socket` and `close` of a function that comes back. A traced route does not. -/
def Native.handleCalls (m : Memory) (w : World) : Native → Outcome Fault (List (HandleCall ℕ))
  | .getHostNameByServer hostName _ dnsServer => do
    let given ← readArguments m hostName dnsServer
    let r ← (socketGethostbyname w.fuel w.net given.1 (some emptyInfo) 1000 given.2).liftFault
      fun e => .join (.lookup e)
    pure (r.calls w.net given.1)
  | .ping .. => pure (Ping.calls w.socket)
  | .traceRouter _ => fault .danglingResult

def Served.handleCalls (e : Served κ) : List (HandleCall ℕ) :=
  match e.job.task.first with
  | some (.native f _) => match f.handleCalls e.memory e.world with
    | .done calls => calls
    | _ => []
  | some (.networkDiagnosis host dnsSer _) =>
    match networkDiagnosisCalls e.world.fuel e.world.net e.world.pings e.world.ipInfo host dnsSer
      10000 with
    | .done calls => calls
    | _ => []
  | _ => []

def Served.lookup (e : Served κ) : Option (Option Bytes × Option Bytes) :=
  match e.job.task.first with
  | some (.native (.getHostNameByServer hostName _ dnsServer) _) =>
    match readArguments e.memory hostName dnsServer with
    | .done given => some given
    | _ => none
  | some (.networkDiagnosis host dnsSer _) => some (some (cString host), some (cString dnsSer))
  | _ => none

/-- The descriptors that a task keeps. -/
def Served.kept (e : Served κ) : Multiset ℕ :=
  e.lookup.elim 0 fun given => keptSockets e.world.net given.1 given.2

def Delivery.Unanswered : Delivery κ → Prop
  | .text _ _ result => result = []
  | .status _ _ code _ => code = -1

variable {e : Served κ} {w : World}

theorem unanswered_textTo (cb : Option κ) : ∀ d ∈ textTo cb [], d.Unanswered := by
  cases cb with
  | none => simp [textTo]
  | some cb => simp [textTo, Delivery.Unanswered]

theorem unanswered_callbacks (cb : Option κ) : ∀ d ∈ ocCalls w cb
    (callbacks w.pings w.garbage { w.ipInfo with size := 0 }), d.Unanswered := by
  cases cb with
  | none => simp [ocCalls]
  | some cb =>
    simp [ocCalls, callbacks, ocPing, Delivery.Unanswered, ErrorInfo.set]

/-- What the lookup of a task has done with descriptors, and what the task hands over when
there was none for it. -/
structure Served.Looks (e : Served κ) (host dns : Option Bytes) : Prop where
  lookup : e.lookup = some (host, dns)
  leaves : HandleCall.ledger.Leaves 0 e.handleCalls (keptSockets e.world.net host dns)
  asks : host.isSome → ∃ log, e.handleCalls = .take (descriptor e.world.net.socket) :: log
  unanswered : (host.isSome → e.world.net.socket < 0) → ∀ d ∈ e.deliveries, d.Unanswered

theorem looks_native {hostName dnsServer : Option Pointer} {timeout : ℤ} {cb : Option κ}
    {number : ℕ} (hran : e.Ran) (ht : e.job.task =
      asyncNativeGetHostNameByServer hostName timeout dnsServer cb number) :
    ∃ host dns, e.Looks host dns := by
  obtain ⟨text, htext, -, hd⟩ := deliveries_native ht hran
  obtain ⟨⟨ret, _⟩, hlookup, htext⟩ := bind_eq_done.mp htext
  obtain rfl := done.inj htext
  obtain ⟨host, dns, r, info, as, hhost, hdns, hr, hc, hjoined, -⟩ := nativeLookup_done hlookup
  have hread : readArguments e.memory hostName dnsServer = done (host, dns) := by
    simp only [readArguments, hhost, hdns, done_bind, pure_eq]
  have hcalls : e.handleCalls = r.calls e.world.net host := by
    simp only [Served.handleCalls, ht, asyncNativeGetHostNameByServer, asyncNative,
      Native.handleCalls, hread, hr, liftFault, done_bind, pure_eq]
  refine ⟨host, dns, ⟨?_, ?_, ?_, ?_⟩⟩
  · simp only [Served.lookup, ht, asyncNativeGetHostNameByServer, asyncNative, hread]
  · rw [hcalls]
    exact lookup_leaves hr
  · intro hhost
    exact ⟨_, by rw [hcalls, Lookup.calls, if_pos hhost]⟩
  · intro hsocket
    have hret : r.ret = -1 := by
      cases host with
      | none =>
        obtain rfl := done.inj hr
        rfl
      | some name => exact (lookup_unopened (hsocket rfl) hr).1
    obtain rfl := hc.failure.mp hret
    rw [hd, hjoined]
    exact unanswered_textTo cb

theorem looks_diagnosis {host dnsSer : Bytes} {cb : Option κ} {p : Option Pointer} (hran : e.Ran)
    (ht : e.job.task = ⟨some (.networkDiagnosis host dnsSer cb), some (.copyHost p)⟩) :
    e.Looks (some (cString host)) (some (cString dnsSer)) := by
  obtain ⟨c, r, hc, hr⟩ := hran
  rw [ht] at hc
  cases hc
  obtain ⟨deliveries, hcalls, -⟩ := bind_eq_done.mp hr
  obtain ⟨found, hfound, hdeliveries⟩ := bind_eq_done.mp hcalls
  have hfound := liftFault_eq_done.mp hfound
  obtain ⟨log, hlog, hleaves⟩ := networkDiagnosis_leaves hfound
  have hhandles : e.handleCalls = .take (descriptor e.world.net.socket) :: log := by
    simp only [Served.handleCalls, ht, hlog]
  refine ⟨?_, ?_, ?_, ?_⟩
  · simp only [Served.lookup, ht]
  · rw [hhandles]
    exact hleaves
  · exact fun _ => ⟨log, hhandles⟩
  · intro hsocket
    have hd : e.deliveries = deliveries := by
      simp [Served.deliveries, Served.first, secondOf, ht, hcalls, Callable.hands]
    rw [hd, ← done.inj hdeliveries, networkDiagnosis_unopened (hsocket rfl) hfound]
    exact unanswered_callbacks cb

/-- A task that has come back has made a lookup, or has given back what it has taken. -/
theorem Served.looks (hs : Shape e.job.number e.job.task) (hran : e.Ran) :
    (∃ host dns, e.Looks host dns) ∨
      e.lookup = none ∧ HandleCall.ledger.Balanced e.handleCalls := by
  generalize ht : e.job.task = task at hs
  cases hs with
  | native f cb =>
    cases f with
    | getHostNameByServer hostName timeout dnsServer => exact .inl (looks_native hran ht)
    | ping host times packageSize interval timeout =>
      right
      constructor
      · simp only [Served.lookup, ht, asyncNative]
      · simp only [Served.handleCalls, ht, asyncNative, Native.handleCalls, pure_eq]
        exact Ping.balanced_calls e.world.socket
    | traceRouter host =>
      obtain ⟨text, htext, -⟩ := deliveries_native ht hran
      exact absurd htext nativeTraceRouter_ne_done
  | diagnosis host dnsSer cb p => exact .inl ⟨_, _, looks_diagnosis hran ht⟩

theorem Served.leaves (hs : Shape e.job.number e.job.task) (hran : e.Ran) :
    HandleCall.ledger.Leaves 0 e.handleCalls e.kept := by
  rcases Served.looks hs hran with ⟨host, dns, h⟩ | ⟨hnone, hbalanced⟩
  · rw [Served.kept, h.lookup]
    exact h.leaves
  · rw [Served.kept, hnone]
    exact hbalanced

/-- In every run, when a table with this limit has answered the calls of the tasks served: it
holds what it held before and what the tasks have kept, which are the descriptors of the lookups
that got to a server which is no address; these are never more than there is room for; and once
they have filled the table, no lookup is answered. -/
theorem descriptors_of_run [DecidableEq π] {memory : Memory} {s : State κ π} {limit : ℕ}
    {table table' : Finset ℕ} (h : (machine memory κ π).Reachable s)
    (ht : HandleCall.replay limit table (s.served.flatMap Served.handleCalls) = some table') :
    table'.val = table.val + (s.served.map Served.kept).sum ∧
    (table.card ≤ limit → table.card + (s.served.map Served.kept).sum.card ≤ limit) ∧
    ∀ before e after, s.served = before ++ e :: after → e.lookup.isSome →
      limit ≤ table.card + (before.map Served.kept).sum.card →
      ∀ d ∈ e.deliveries, d.Unanswered := by
  have hinv := reachable_inv h
  have hshape : ∀ e ∈ s.served, Shape e.job.number e.job.task := fun e he =>
    hinv.shape (List.mem_append_left _ (List.mem_map_of_mem he))
  have hkept : ∀ e ∈ s.served, HandleCall.ledger.Leaves 0 e.handleCalls e.kept :=
    fun e he => Served.leaves (hshape e he) (hinv.ran e he)
  have hval := HandleCall.replay_flatMap hkept ht
  refine ⟨hval, ?_, ?_⟩
  · intro hcard
    have hle := HandleCall.replay_card_le ht hcard
    rwa [Finset.card_def, hval, Multiset.card_add] at hle
  · rintro before e after hserved hlookup hfull
    have he : e ∈ s.served := by simp [hserved]
    rcases Served.looks (hshape e he) (hinv.ran e he) with ⟨host, dns, hlooks⟩ | ⟨hnone, -⟩
    · apply hlooks.unanswered
      intro hhost
      obtain ⟨log, hlog⟩ := hlooks.asks hhost
      rw [hserved] at ht
      refine descriptor_eq_none.mp (HandleCall.replay_refused (fun e' he' => ?_) ht hfull hlog)
      exact hkept e' (by simp [hserved, he'])
    · simp [hnone] at hlookup

def brokenWorld (socket : ℤ) : World :=
  { deafWorld with net := { unsetProperties with socket := socket } }

def twoLookups : List (Action ℕ Unit) :=
  let call := [.call () (.getHostNameByServer (some 7) 1000 none (some 5)), .thread (.push ()),
    .thread (.notifyAll ()), .thread (.unlockPut ())]
  let serve := fun socket => [.thread (.lock theWorker), .thread (.test theWorker),
    .thread (.pop theWorker), .thread (.unlock theWorker), .thread (.advance theWorker),
    .returns (brokenWorld socket), .thread (.advance theWorker), .returns (brokenWorld socket)]
  call ++ call ++ serve 3 ++ serve (-1)

theorem descriptors_of_run_exhausted : ∃ (s : State ℕ Unit) (table' : Finset ℕ),
    (machine oneHost ℕ Unit).replay (init oneHost) twoLookups = some s ∧
    HandleCall.replay 4 {0, 1, 2} (s.served.flatMap Served.handleCalls) = some table' ∧
    table'.val = ({0, 1, 2} : Finset ℕ).val + (s.served.map Served.kept).sum ∧
    ∃ first second, s.served = [first, second] ∧ ∀ d ∈ second.deliveries, d.Unanswered := by
  have hrun : ((machine oneHost ℕ Unit).replay (init oneHost) twoLookups).map (fun s =>
      decide (s.served.length = 2 ∧ s.served.all (·.lookup.isSome) ∧
        (s.served.take 1).all (fun e => e.kept.card = 1) ∧
        (HandleCall.replay 4 {0, 1, 2} (s.served.flatMap Served.handleCalls)).isSome)) =
          some true := by decide +kernel
  obtain ⟨s, hs, hall⟩ := Option.map_eq_some_iff.mp hrun
  obtain ⟨hlength, hlookups, hkept, htable⟩ := of_decide_eq_true hall
  obtain ⟨table', ht⟩ := Option.isSome_iff_exists.mp htable
  obtain ⟨first, second, hserved⟩ := List.length_eq_two.mp hlength
  obtain ⟨hval, -, hrefused⟩ :=
    descriptors_of_run ((machine oneHost ℕ Unit).reachable_start.replay twoLookups hs) ht
  refine ⟨s, table', hs, ht, hval, first, second, hserved, ?_⟩
  rw [hserved] at hlookups hkept
  simp only [List.take_succ_cons, List.take_zero, List.all_cons, List.all_nil, Bool.and_true,
    Bool.and_eq_true, decide_eq_true_eq] at hlookups hkept
  refine hrefused [first] second [] hserved hlookups.2 ?_
  simp [hkept]

end QyUtil.Async
