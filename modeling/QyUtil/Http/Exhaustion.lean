import QyUtil.Diagnosis.Descriptors
import QyUtil.Http.Connections

/-! # Requests run out

`get` asks a name server through a socket that is closed again, and connects through sockets that
are not. The process has one table of descriptors for both. When the requests have filled it, the
lookups fail as well, and a call of `get` throws before it opens anything.
-/

namespace QyUtil.Http

open Loops Outcome Bytes Runs

/-- What `get_ip_by_domain` takes from a lookup. -/
def resolution (r : Dns.Lookup) : Resolution :=
  let info := r.info.getD Dns.emptyInfo
  ⟨r.ret, info.ip.take info.size⟩

/-- The name server that `get_ip_by_domain` asks. -/
def publicServer : Bytes := ascii "8.8.8.8"

/-- A call of `get`: what it is given, the system that it meets, its lookup and what it leaves. -/
structure Exchange where
  call : Call
  net : Dns.Network
  kernel : Kernel
  lookup : Dns.Lookup
  got : Got

def Exchange.domain (e : Exchange) : Bytes := cString (urlDomain e.call.url)

/-- The call is made on an object with these members, and comes back. Whatever `ipInfo` held
before, the lookup starts with no address. -/
structure Exchange.Happens (st : Request) (s : TcpSocketStream) (e : Exchange) : Prop where
  asked : e.call.Asks → ∃ (n : ℕ) (ipInfo : Dns.SocketIpInfo) (timeout : ℤ),
    Dns.socketGethostbyname n e.net (some e.domain) (some { ipInfo with size := 0 }) timeout
      (some publicServer) = done e.lookup
  resolved : e.call.Asks → e.call.dns = resolution e.lookup
  returns : Returns (fun n => st.getOver n e.kernel s e.call) e.got

/-- The calls of `get` on one object, each with what it met. The first stream has any handle. -/
inductive Session : List Exchange → Request → TcpSocketStream → Prop

  | fresh (s : TcpSocketStream) : Session [] Request.new s

  | call {es : List Exchange} {st : Request} {s : TcpSocketStream} {e : Exchange} :
      Session es st s → e.Happens st s → Session (es ++ [e]) e.got.request e.got.stream

def SocketEvent.handleCall : SocketEvent → Option (HandleCall ℕ)
  | .created fd => some (.take (descriptor fd))
  | .closed fd => some (.give (descriptor fd))
  | _ => none

/-- The calls of `socket` and `close`: those of the lookup, and those that have made a socket. -/
def Exchange.handleCalls (e : Exchange) : List (HandleCall ℕ) :=
  (if e.call.Asks then e.lookup.calls e.net (some e.domain) else []) ++
    e.got.events.filterMap SocketEvent.handleCall

def Exchange.kept (e : Exchange) : Multiset ℕ :=
  ((e.got.events.filterMap SocketEvent.handleCall).map HandleCall.ledger.takes).sum

variable {e : Exchange} {es : List Exchange} {st : Request} {s : TcpSocketStream}

theorem keptSockets_publicServer (net : Dns.Network) (host : Option Bytes) :
    Dns.keptSockets net host (some publicServer) = 0 := by
  have hvalid : Dns.isValidIpAddress publicServer = true := by decide
  have hsome : (Net.inetPton publicServer).isSome := hvalid
  simp [Dns.keptSockets, Dns.keepsSocket, Dns.dnsServers, hvalid,
    Option.isSome_iff_ne_none.mp hsome]

theorem Exchange.Happens.leaves (h : e.Happens st s) :
    HandleCall.ledger.Leaves 0 e.handleCalls e.kept := by
  have hlookup : HandleCall.ledger.Balanced
      (if e.call.Asks then e.lookup.calls e.net (some e.domain) else []) := by
    split_ifs with hasks
    · obtain ⟨n, ipInfo, timeout, hr⟩ := h.asked hasks
      have hleaves := Dns.lookup_leaves hr
      rwa [keptSockets_publicServer] at hleaves
    · exact .nil
  have hsockets : ∀ c ∈ e.got.events.filterMap SocketEvent.handleCall,
      HandleCall.ledger.gives c = 0 := by
    intro c hc
    obtain ⟨event, hevent, hcall⟩ := List.mem_filterMap.mp hc
    have hgives := getOver_gives h.returns event hevent
    cases event with
    | created fd =>
      cases hcall
      rfl
    | sent bytes => cases hcall
    | received body => cases hcall
    | closed fd => exact absurd hgives (Multiset.singleton_ne_zero fd)
  have hkept := Ledger.leaves_takes hsockets 0
  rw [add_zero] at hkept
  exact Ledger.Leaves.append hlookup hkept

theorem openFirst_nonneg {net : Kernel} {ips : List Bytes} {event : SocketEvent} {k : ℕ}
    (h : event ∈ (openFirst net k ips s).2.1) : ∃ fd, 0 ≤ fd ∧ event = .created fd := by
  induction ips generalizing k s with
  | nil => cases h
  | cons ip ips ih =>
    have hopen (h : event ∈ (TcpSocketStream.openStream net k).2.2) :
        ∃ fd, 0 ≤ fd ∧ event = .created fd := by
      rw [openStream_events] at h
      split_ifs at h with hfd
      · cases h
      · exact ⟨_, not_lt.mp hfd, List.mem_singleton.mp h⟩
    simp only [openFirst] at h
    split_ifs at h
    · exact hopen h
    · rcases List.mem_append.mp h with h | h
      · exact hopen h
      · exact ih h

theorem Exchange.Happens.kept_ne_zero (h : e.Happens st s) (hne : e.got.events ≠ []) :
    e.kept ≠ 0 := by
  rcases getOver_cases h.returns with ⟨-, hnil⟩ | ⟨-, more, hevents, -, hmore⟩
  · exact absurd hnil hne
  have hloop : (openFirst e.kernel 0 (st.ips ++ e.call.dns.addresses) s).2.1 ≠ [] := by
    intro hnil
    have hconn := mt (openFirst_connected _ 0 s) (not_not.mpr hnil)
    exact hne (by rw [hevents, hnil, hmore (Bool.not_eq_true _ ▸ hconn), List.append_nil])
  obtain ⟨event, hevent⟩ := List.exists_mem_of_ne_nil _ hloop
  obtain ⟨fd, hfd, rfl⟩ := openFirst_nonneg hevent
  intro hzero
  have hmem : HandleCall.take (descriptor fd) ∈ e.got.events.filterMap SocketEvent.handleCall :=
    List.mem_filterMap.mpr ⟨_, hevents ▸ List.mem_append_left more hevent, rfl⟩
  have htakes := List.sum_eq_zero_iff.mp hzero _ (List.mem_map_of_mem hmem)
  rw [descriptor, if_pos hfd] at htakes
  exact Multiset.singleton_ne_zero _ htakes

theorem Exchange.Happens.refused (h : e.Happens st s) (hasks : e.call.Asks)
    (hsocket : e.net.socket < 0) : e.got.events = [] ∧
      e.got.result = .error (.qyutil (ascii "unknown domain:" ++ urlDomain e.call.url)) := by
  obtain ⟨n, ipInfo, timeout, hr⟩ := h.asked hasks
  have hret : e.call.dns.result ≠ 0 := by
    rw [h.resolved hasks, resolution, (Dns.lookup_unopened hsocket hr).1]
    simp
  obtain ⟨n, hgot⟩ := h.returns
  have hurl : urlError e.call.url = none := hasks
  simp only [Request.getOver, Request.parseUrl, hurl, if_neg hret] at hgot
  rw [← done.inj hgot]
  exact ⟨rfl, rfl⟩

theorem Session.happens (h : Session es st s) : ∀ e ∈ es, ∃ st s, e.Happens st s := by
  induction h with
  | fresh => simp
  | call _ he ih =>
    intro e hmem
    rcases List.mem_append.mp hmem with hmem | hmem
    · exact ih e hmem
    · obtain rfl := List.mem_singleton.mp hmem
      exact ⟨_, _, he⟩

/-- Each call that does anything with sockets takes a descriptor for good. -/
theorem length_le_card (h : ∀ e ∈ es, ∃ st s, e.Happens st s) :
    (es.filter fun e => e.got.events ≠ []).length ≤ (es.map Exchange.kept).sum.card := by
  induction es with
  | nil => exact le_rfl
  | cons e es ih =>
    obtain ⟨⟨st, s, he⟩, hrest⟩ := List.forall_mem_cons.mp h
    have hle := ih hrest
    rw [List.map_cons, List.sum_cons, Multiset.card_add, List.filter_cons]
    split_ifs with hne
    · have hpos := Multiset.card_pos.mpr (he.kept_ne_zero (of_decide_eq_true hne))
      rw [List.length_cons]
      omega
    · omega

/-- In any sequence of calls of `get` on one object, when a table with this limit has answered
them: no more calls get a socket than there was room for, and once their sockets have filled the
table, every call that asks for an address throws and sends nothing. -/
theorem requests_run_out {limit : ℕ} {table table' : Finset ℕ} (h : Session es st s)
    (ht : HandleCall.replay limit table (es.flatMap Exchange.handleCalls) = some table')
    (hcard : table.card ≤ limit) :
    table.card + (es.filter fun e => e.got.events ≠ []).length ≤ limit ∧
    ∀ before e after, es = before ++ e :: after → e.call.Asks →
      limit ≤ table.card + (before.map Exchange.kept).sum.card →
      e.got.events = [] ∧
        e.got.result = .error (.qyutil (ascii "unknown domain:" ++ urlDomain e.call.url)) := by
  have hkept : ∀ e ∈ es, HandleCall.ledger.Leaves 0 e.handleCalls e.kept := by
    intro e he
    obtain ⟨st, s, hhappens⟩ := h.happens e he
    exact hhappens.leaves
  constructor
  · have hval := HandleCall.replay_flatMap hkept ht
    have hle := HandleCall.replay_card_le ht hcard
    rw [Finset.card_def, hval, Multiset.card_add] at hle
    have hlength := length_le_card h.happens
    exact (Nat.add_le_add_left hlength _).trans hle
  · rintro before e after rfl hasks hfull
    obtain ⟨st, s, hhappens⟩ := h.happens e (by simp)
    have hcalls : e.handleCalls = .take (descriptor e.net.socket) ::
        (e.lookup.events.filterMap Dns.SocketEvent.closeCall ++
          e.got.events.filterMap SocketEvent.handleCall) := by
      rw [Exchange.handleCalls, if_pos hasks]
      rfl
    apply hhappens.refused hasks
    refine descriptor_eq_none.mp (HandleCall.replay_refused (fun e' he' => ?_) ht hfull hcalls)
    exact hkept e' (List.mem_append_left _ he')

def exhaustedNetwork : Dns.Network := { Dns.aliasNetwork with socket := -1 }

def lostCall : Call := { sampleCall "http://q.a/" "" false with dns := ⟨-1, []⟩ }

theorem exists_lookup_found : ∃ r, Dns.socketGethostbyname 60 Dns.aliasNetwork
      (some (ascii "q.a")) (some { Dns.emptyInfo with size := 0 }) 1000 (some publicServer) =
        done r ∧
    resolution r = ⟨0, [ascii "93.184.216.34"]⟩ ∧
    r.calls Dns.aliasNetwork (some (ascii "q.a")) = [.take (some 3), .give (some 3)] :=
  ⟨_, rfl, by decide +kernel, by decide +kernel⟩

theorem exists_lookup_refused : ∃ r, Dns.socketGethostbyname 60 exhaustedNetwork
      (some (ascii "q.a")) (some { Dns.emptyInfo with size := 0 }) 1000 (some publicServer) =
        done r ∧
    resolution r = ⟨-1, []⟩ ∧
    r.calls exhaustedNetwork (some (ascii "q.a")) = [.take none] :=
  ⟨_, rfl, by decide +kernel, by decide +kernel⟩

theorem requests_run_out_refused : ∃ (first second : Exchange) (st : Request)
    (s : TcpSocketStream) (table' : Finset ℕ), Session [first, second] st s ∧
    HandleCall.replay 4 {0, 1, 2} ([first, second].flatMap Exchange.handleCalls) = some table' ∧
    first.got.events = [.created 3] ∧ second.got.events = [] ∧
    second.got.result = .error (.qyutil (ascii "unknown domain:" ++ ascii "q.a")) := by
  obtain ⟨found, hfound, hresolved, hcalls⟩ := exists_lookup_found
  obtain ⟨lost, hlost, hunresolved, hrefused⟩ := exists_lookup_refused
  obtain ⟨got, hgot, hevents⟩ : ∃ r, Returns (fun n => Request.new.getOver n refusing ⟨0⟩
      (sampleCall "http://q.a/" "93.184.216.34" false)) r ∧ r.events = [.created 3] :=
    ⟨_, ⟨0, rfl⟩, rfl⟩
  obtain ⟨got', hgot', hnone⟩ : ∃ r, Returns (fun n => got.request.getOver n exhausted got.stream
      lostCall) r ∧ r.events = [] := ⟨_, ⟨0, rfl⟩, rfl⟩
  let first : Exchange :=
    ⟨sampleCall "http://q.a/" "93.184.216.34" false, Dns.aliasNetwork, refusing, found, got⟩
  let second : Exchange := ⟨lostCall, exhaustedNetwork, exhausted, lost, got'⟩
  have hfirst : first.Happens Request.new ⟨0⟩ :=
    ⟨fun _ => ⟨60, _, 1000, hfound⟩, fun _ => hresolved.symm, hgot⟩
  have hsecond : second.Happens got.request got.stream :=
    ⟨fun _ => ⟨60, _, 1000, hlost⟩, fun _ => hunresolved.symm, hgot'⟩
  have hsession : Session [first, second] got'.request got'.stream :=
    .call (.call (.fresh ⟨0⟩) hfirst) hsecond
  have hfirstCalls : first.handleCalls = [.take (some 3), .give (some 3), .take (some 3)] := by
    have hasks : first.call.Asks := rfl
    have hdomain : first.domain = ascii "q.a" := rfl
    rw [Exchange.handleCalls, if_pos hasks, hdomain, hcalls, hevents]
    rfl
  have hsecondCalls : second.handleCalls = [.take none] := by
    have hasks : second.call.Asks := rfl
    have hdomain : second.domain = ascii "q.a" := rfl
    rw [Exchange.handleCalls, if_pos hasks, hdomain, hrefused, hnone]
    rfl
  obtain ⟨table', ht⟩ : ∃ t, HandleCall.replay 4 {0, 1, 2}
      ([first, second].flatMap Exchange.handleCalls) = some t := by
    rw [List.flatMap_cons, List.flatMap_cons, hfirstCalls, hsecondCalls]
    exact ⟨_, rfl⟩
  obtain ⟨-, hfull⟩ := requests_run_out hsession ht (by decide)
  refine ⟨first, second, _, _, table', hsession, ht, hevents, ?_⟩
  have hkept : first.kept = {3} := by
    rw [Exchange.kept, hevents]
    rfl
  apply hfull [first] second [] rfl rfl
  simp [hkept]

end QyUtil.Http
