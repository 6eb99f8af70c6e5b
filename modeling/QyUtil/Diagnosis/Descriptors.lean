import QyUtil.Diagnosis.Basic
import QyUtil.Dns.Descriptors
import QyUtil.Runs.Table

/-! # The descriptors of a diagnosis

The calls of `socket` and `close` in a lookup, in a pinger and in a whole diagnosis, with the
answers of the system. A pinger gives back what it gets. A lookup keeps its descriptor exactly
when the first server to ask is no address.
-/

namespace QyUtil.Dns

open Loops Outcome Bytes Net Runs

variable {net : Network} {host : Option Bytes} {name : Bytes} {info : SocketIpInfo} {timeout : ℤ}
  {dnsserver : Option Bytes} {r : Lookup} {n : ℕ}

def SocketEvent.closeCall : SocketEvent → Option (HandleCall ℕ)
  | .closed fd => some (.give (descriptor fd))
  | _ => none

/-- The calls of a lookup with a result to fill. A null host is turned away before them. -/
def Lookup.calls (net : Network) (host : Option Bytes) (r : Lookup) : List (HandleCall ℕ) :=
  if host.isSome then .take (descriptor net.socket) :: r.events.filterMap SocketEvent.closeCall
  else []

def keepsSocket (net : Network) (host dnsserver : Option Bytes) : Bool :=
  host.isSome && decide (0 ≤ net.socket) &&
    (dnsServers net dnsserver).head?.any fun server => (inetPton server).isNone

theorem keepsSocket_iff (info : SocketIpInfo) :
    keepsSocket net host dnsserver ↔ InvalidServer net host (some info) dnsserver := by
  constructor
  · intro h
    simp only [keepsSocket, Bool.and_eq_true, decide_eq_true_eq, Option.any_eq_true] at h
    obtain ⟨⟨hhost, hsocket⟩, server, hserver, hnone⟩ := h
    obtain ⟨servers, hservers⟩ := List.head?_eq_some_iff.mp hserver
    exact ⟨hhost, rfl, hsocket, server, servers, hservers, Option.isNone_iff_eq_none.mp hnone⟩
  · rintro ⟨hhost, -, hsocket, server, servers, hservers, hnone⟩
    simp [keepsSocket, hhost, hsocket, hservers, hnone]

def keptSockets (net : Network) (host dnsserver : Option Bytes) : Multiset ℕ :=
  if keepsSocket net host dnsserver then {net.socket.toNat} else 0

theorem lookup_leaves
    (h : socketGethostbyname n net host (some info) timeout dnsserver = done r) :
    HandleCall.ledger.Leaves 0 (r.calls net host) (keptSockets net host dnsserver) := by
  cases host with
  | none => exact .nil
  | some name =>
    simp only [socketGethostbyname] at h
    split_ifs at h with hsocket
    · obtain rfl := done.inj h
      have hkeeps : keepsSocket net (some name) dnsserver = false := by
        simp [keepsSocket, hsocket]
      have hcalls := HandleCall.leaves_take (descriptor net.socket)
      rw [descriptor_eq_none.mpr hsocket] at hcalls
      simpa [Lookup.calls, keptSockets, hkeeps, descriptor_eq_none.mpr hsocket] using hcalls
    split at h
    · rename_i hservers
      obtain rfl := done.inj h
      have hkeeps : keepsSocket net (some name) dnsserver = false := by
        simp [keepsSocket, hservers]
      rw [keptSockets, hkeeps]
      exact HandleCall.balanced_take_give (descriptor net.socket)
    rename_i server servers hservers
    split_ifs at h with haddr
    · obtain ⟨r', hquery, h⟩ := bind_eq_done.mp h
      obtain rfl := done.inj h
      obtain ⟨sendBuf, -, -, hevents⟩ := queryServer_sent hquery
      have hkeeps : keepsSocket net (some name) dnsserver = false := by
        simp [keepsSocket, hservers, haddr]
      rw [keptSockets, hkeeps, Lookup.calls, hevents]
      exact HandleCall.balanced_take_give (descriptor net.socket)
    · obtain rfl := done.inj h
      have hkeeps : keepsSocket net (some name) dnsserver = true :=
        (keepsSocket_iff info).mpr ⟨rfl, rfl, not_lt.mp hsocket, server, servers, hservers,
          Option.not_isSome_iff_eq_none.mp haddr⟩
      have hcalls := HandleCall.leaves_take (descriptor net.socket)
      rw [descriptor, if_pos (not_lt.mp hsocket)] at hcalls
      rw [keptSockets, hkeeps, Lookup.calls, descriptor, if_pos (not_lt.mp hsocket)]
      exact hcalls

theorem lookup_unopened (hsocket : net.socket < 0)
    (h : socketGethostbyname n net (some name) (some info) timeout dnsserver = done r) :
    r.ret = -1 ∧ r.info = some info := by
  simp only [socketGethostbyname, if_pos hsocket] at h
  obtain rfl := done.inj h
  exact ⟨rfl, rfl⟩

end QyUtil.Dns

namespace QyUtil.Ping

open Runs

/-- The calls of a pinger: that of `start`, and that of the destructor, which closes whatever
`socket` has answered. -/
def calls (socket : ℤ) : List (HandleCall ℕ) :=
  [.take (descriptor socket), .give (descriptor socket)]

theorem balanced_calls (socket : ℤ) : HandleCall.ledger.Balanced (calls socket) :=
  HandleCall.balanced_take_give (descriptor socket)

end QyUtil.Ping

namespace QyUtil.Diagnosis

open Loops Outcome Bytes Dns Runs

variable {net : Network} {env : Pings} {garbage : ErrorInfo} {ipInfo : SocketIpInfo}
  {hostName dnsServer : Bytes} {timeout : ℤ} {r : ℤ × List Call} {n : ℕ}

def networkDiagnosisCalls (fuel : ℕ) (net : Network) (env : Pings) (ipInfo : SocketIpInfo)
    (hostName dnsServer : Bytes) (timeout : ℤ) : Outcome Dns.Fault (List (HandleCall ℕ)) := do
  let r ← socketGethostbyname fuel net (some (cString hostName)) (some { ipInfo with size := 0 })
    timeout (some (cString dnsServer))
  pure (r.calls net (some (cString hostName)) ++
    (List.range (r.info.getD ipInfo).size).flatMap fun i => Ping.calls (env.socket i))

theorem networkDiagnosis_leaves
    (h : networkDiagnosis n net env garbage ipInfo hostName dnsServer timeout = done r) :
    ∃ l, networkDiagnosisCalls n net env ipInfo hostName dnsServer timeout =
        done (.take (descriptor net.socket) :: l) ∧
      HandleCall.ledger.Leaves 0 (.take (descriptor net.socket) :: l)
        (keptSockets net (some (cString hostName)) (some (cString dnsServer))) := by
  obtain ⟨found, hfound, -⟩ := bind_eq_done.mp h
  have hpings : HandleCall.ledger.Leaves 0
      ((List.range (found.info.getD ipInfo).size).flatMap fun i => Ping.calls (env.socket i))
      0 := by
    have hping : ∀ i ∈ List.range (found.info.getD ipInfo).size,
        HandleCall.ledger.Leaves 0 (Ping.calls (env.socket i)) 0 :=
      fun i _ => Ping.balanced_calls (env.socket i)
    simpa using Ledger.leaves_flatMap hping
  have hrest := hpings.frame
    (keptSockets net (some (cString hostName)) (some (cString dnsServer)))
  rw [zero_add] at hrest
  refine ⟨_, ?_, (lookup_leaves hfound).append hrest⟩
  rw [networkDiagnosisCalls, hfound]
  rfl

theorem networkDiagnosis_unopened (hsocket : net.socket < 0)
    (h : networkDiagnosis n net env garbage ipInfo hostName dnsServer timeout = done r) :
    r = (-1, callbacks env garbage { ipInfo with size := 0 }) := by
  obtain ⟨found, hfound, h⟩ := bind_eq_done.mp h
  obtain ⟨hret, hinfo⟩ := lookup_unopened hsocket hfound
  obtain rfl := done.inj h
  rw [hret, hinfo]
  rfl

end QyUtil.Diagnosis
