import QyUtil.Dns.Result
import QyUtil.Runs.Ledger

/-! # The descriptor of a lookup

What a lookup does with its socket, on each way out. Every way closes the
descriptor but the one for a server that is no address.
-/

namespace QyUtil.Dns

open Loops Outcome Bytes Net Runs

def descriptors : Ledger SocketEvent ℤ where
  takes
    | .opened fd => {fd}
    | _ => 0
  gives
    | .closed fd => {fd}
    | _ => 0

variable {net : Network} {host : Option Bytes} {info : Option SocketIpInfo} {timeout : ℤ}
  {dnsserver : Option Bytes} {r : Lookup} {n : ℕ}

/-- The lookup gets as far as `inet_pton`, which refuses the server. -/
structure InvalidServer (net : Network) (host : Option Bytes) (info : Option SocketIpInfo)
    (dnsserver : Option Bytes) : Prop where
  host : host.isSome
  info : info.isSome
  socket : 0 ≤ net.socket
  server : ∃ server servers, dnsServers net dnsserver = server :: servers ∧
    inetPton server = none

/-- The lookup has a result to fill, a socket, and a server that is an address. -/
structure Asks (net : Network) (info : Option SocketIpInfo) (dnsserver : Option Bytes) : Prop where
  info : info.isSome
  socket : 0 ≤ net.socket
  server : ∃ server servers, dnsServers net dnsserver = server :: servers ∧
    (inetPton server).isSome

inductive SocketUse (net : Network) (host : Option Bytes) (info : Option SocketIpInfo)
    (dnsserver : Option Bytes) (r : Lookup) : Prop

  | unopened : r.ret = -1 → r.events = [] → SocketUse net host info dnsserver r

  | unasked : r.ret = -1 → r.events = [.opened net.socket, .closed net.socket] →
      SocketUse net host info dnsserver r

  | invalid : InvalidServer net host info dnsserver → r.ret = -1 →
      r.events = [.opened net.socket] → SocketUse net host info dnsserver r

  | asked {name sendBuf : Bytes} : host = some name → Asks net info dnsserver →
      prepareDnsQueryPacket net.pid (cString name) = done sendBuf →
      (net.sendto (sentQuery sendBuf) = -1 → r.ret = -1) →
      r.events = [.opened net.socket, .sent (sentQuery sendBuf), .closed net.socket] →
      SocketUse net host info dnsserver r

theorem queryServer_sent {host : Bytes} {timeout : ℕ} {info : SocketIpInfo}
    (h : queryServer n net host timeout info = done r) :
    ∃ sendBuf, prepareDnsQueryPacket net.pid host = done sendBuf ∧
      (net.sendto (sentQuery sendBuf) = -1 → r.ret = -1) ∧
      r.events = [.sent (sentQuery sendBuf)] := by
  obtain ⟨sendBuf, hprepared, h⟩ := bind_eq_done.mp h
  refine ⟨sendBuf, hprepared, ?_⟩
  dsimp only at h
  split_ifs at h with hsent
  · obtain rfl := done.inj h
    exact ⟨fun _ => rfl, rfl⟩
  split at h
  · obtain rfl := done.inj h
    exact ⟨fun _ => rfl, rfl⟩
  · obtain ⟨⟨info', a⟩, -, h⟩ := bind_eq_done.mp h
    obtain rfl := done.inj h
    exact ⟨fun hfail => absurd hfail hsent, rfl⟩

theorem lookup_socket
    (h : socketGethostbyname n net host info timeout dnsserver = done r) :
    SocketUse net host info dnsserver r := by
  cases host with
  | none =>
    obtain rfl := done.inj h
    exact .unopened rfl rfl
  | some host =>
    cases info with
    | none =>
      obtain rfl := done.inj h
      exact .unopened rfl rfl
    | some info =>
      simp only [socketGethostbyname] at h
      split_ifs at h with hsocket
      · obtain rfl := done.inj h
        exact .unopened rfl rfl
      split at h
      · obtain rfl := done.inj h
        exact .unasked rfl rfl
      rename_i server servers hserver
      split_ifs at h with haddr
      · obtain ⟨r', hquery, h⟩ := bind_eq_done.mp h
        obtain rfl := done.inj h
        obtain ⟨sendBuf, hprepared, hret, hevents⟩ := queryServer_sent hquery
        exact .asked rfl ⟨rfl, not_lt.mp hsocket, server, servers, hserver, haddr⟩ hprepared hret
          (by simp [hevents])
      · obtain rfl := done.inj h
        exact .invalid ⟨rfl, rfl, not_lt.mp hsocket, server, servers, hserver,
          Option.not_isSome_iff_eq_none.mp haddr⟩ rfl rfl

theorem InvalidServer.returns (h : InvalidServer net host info dnsserver) (timeout : ℤ) :
    ∃ r, Returns (fun n => socketGethostbyname n net host info timeout dnsserver) r ∧
      r.events = [.opened net.socket] := by
  obtain ⟨hhost, hinfo, hsocket, server, servers, hserver, haddr⟩ := h
  obtain ⟨host, rfl⟩ := Option.isSome_iff_exists.mp hhost
  obtain ⟨info, rfl⟩ := Option.isSome_iff_exists.mp hinfo
  refine ⟨{ ret := -1, info := some info, events := [.opened net.socket], trace := [] },
    ⟨0, ?_⟩, rfl⟩
  simp only [socketGethostbyname, if_neg (not_lt.mpr hsocket), hserver, haddr]
  rfl

theorem balanced_open_close (fd : ℤ) : descriptors.Balanced [.opened fd, .closed fd] :=
  (Ledger.leaves_take (L := descriptors) (e := .opened fd) rfl 0).append
    (Ledger.leaves_give (L := descriptors) (e := .closed fd) rfl 0)

theorem balanced_asked (fd : ℤ) (d : Bytes) :
    descriptors.Balanced [.opened fd, .sent d, .closed fd] :=
  (Ledger.leaves_take (L := descriptors) (e := .opened fd) rfl 0).append
    ((Ledger.leaves_neutral (L := descriptors) (e := .sent d) rfl rfl _).append
      (Ledger.leaves_give (L := descriptors) (e := .closed fd) rfl 0))

/-- A lookup closes what it opens exactly once on every way out, exactly when it does
not get to a server that is no address. -/
theorem closed_once_iff (net : Network) (host : Option Bytes) (info : Option SocketIpInfo)
    (timeout : ℤ) (dnsserver : Option Bytes) :
    (∀ r, Returns (fun n => socketGethostbyname n net host info timeout dnsserver) r →
        descriptors.Balanced r.events) ↔
      ¬ InvalidServer net host info dnsserver := by
  constructor
  · intro h hinvalid
    obtain ⟨r, hr, hevents⟩ := hinvalid.returns timeout
    have htotal := (h r hr).total
    rw [hevents] at htotal
    simp [descriptors] at htotal
  · rintro h r ⟨n, hn⟩
    cases lookup_socket hn with
    | unopened _ hevents =>
      rw [hevents]
      exact .nil
    | unasked _ hevents =>
      rw [hevents]
      exact balanced_open_close net.socket
    | invalid hinvalid => exact absurd hinvalid h
    | asked _ _ _ _ hevents =>
      rw [hevents]
      exact balanced_asked net.socket _

def unsetProperties : Network where
  pid := 4660
  hostServers := [[], []]
  socket := 3
  sendto _ := -1
  recvWithinTime _ _ := none
  heap := plentiful

theorem unset_property_leaks : ¬ ∀ r, Returns (fun n => socketGethostbyname n unsetProperties
    (some (ascii "qq.com")) (some emptyInfo) 1000 none) r → descriptors.Balanced r.events := by
  intro h
  have htotal := (h _ ⟨0, rfl⟩).total
  simp [descriptors, unsetProperties] at htotal

end QyUtil.Dns
