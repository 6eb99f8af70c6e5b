import QyUtil.Http.Isolation
import QyUtil.Runs.Ledger

/-! # The sockets of a request

`open` takes a new socket and overwrites the handle of the one before. `get` opens a stream
for one address after the other, until one connects, and never calls `close`. What it opens
is closed only when it opens nothing.
-/

namespace QyUtil.Http

open Loops Outcome Bytes Runs

inductive SocketEvent where
  | created (fd : ℤ)
  | sent (bytes : Bytes)
  | received (body : Bytes)
  | closed (fd : ℤ)
  deriving DecidableEq, Repr

/-- The result of the `k`-th `socket`, and of the `connect` that follows it. -/
structure Kernel where
  socket : ℕ → ℤ
  connect : ℕ → ℤ

/-- The values of `StreamError` that `open` returns; `ok` is 0. -/
inductive StreamError where
  | ok
  | sockInvalid
  | connectError
  deriving DecidableEq, Repr

structure TcpSocketStream where
  hsocket : ℤ
  deriving DecidableEq, Repr

/-- `open`, as the `k`-th call. The handle 0 counts as invalid, although it is a socket. -/
def TcpSocketStream.openStream (net : Kernel) (k : ℕ) :
    TcpSocketStream × StreamError × List SocketEvent :=
  let fd := net.socket k
  let events := if fd < 0 then [] else [.created fd]
  if fd ≤ 0 then (⟨fd⟩, .sockInvalid, events)
  else if net.connect k ≠ 0 then (⟨fd⟩, .connectError, events)
  else (⟨fd⟩, .ok, events)

/-- The loop of `get` over the addresses, from the `k`-th on; the flag tells that the
last one has connected. -/
def openFirst (net : Kernel) : ℕ → List Bytes → TcpSocketStream →
    TcpSocketStream × List SocketEvent × Bool
  | _, [], s => (s, [], false)
  | k, _ :: ips, _ =>
    let (s, error, events) := TcpSocketStream.openStream net k
    if error = .ok then (s, events, true)
    else
      let (s, events', connected) := openFirst net (k + 1) ips s
      (s, events ++ events', connected)

/-- What a call of `get` leaves: its members, what it has done with its sockets, and an
exception or the text it prints. -/
structure Got where
  request : Request
  stream : TcpSocketStream
  events : List SocketEvent
  result : Except Thrown Bytes

def Request.getOver (fuel : ℕ) (net : Kernel) (st : Request) (s : TcpSocketStream) (c : Call) :
    Outcome Fault Got :=
  let (st, _, thrown) := st.parseUrl c.url c.dns
  match thrown with
  | some e => pure ⟨st, s, [], .error e⟩
  | none =>
    let st := { st with header := st.header ++ c.text }
    let (s, events, connected) := openFirst net 0 st.ips s
    if connected then
      let events := events ++ [.sent (c.taken st.header)]
      if c.written = 0 then pure ⟨st, s, events, .error (.qyutil (ascii "send error"))⟩
      else do
        let body ← receive fuel c.stream c.garbage
        pure ⟨st, s, events ++ [.received body], .ok body⟩
    else pure ⟨st, s, events, .ok []⟩

variable {net : Kernel} {st : Request} {s : TcpSocketStream} {c : Call} {r : Got}
  {log : List SocketEvent} {ips : List Bytes} {k : ℕ}

/-- The sockets of failed attempts are closed before the next attempt, and the one that has
connected when the body has been read or the request could not be sent. -/
inductive Disciplined : List SocketEvent → Prop

  | unconnected : Disciplined []

  | failed {fd : ℤ} {log : List SocketEvent} : Disciplined log →
      Disciplined (.created fd :: .closed fd :: log)

  | thrown {fd : ℤ} {bytes : Bytes} : Disciplined [.created fd, .sent bytes, .closed fd]

  | finished {fd : ℤ} {bytes body : Bytes} :
      Disciplined [.created fd, .sent bytes, .received body, .closed fd]

def sockets : Ledger SocketEvent ℤ where
  takes
    | .created fd => {fd}
    | _ => 0
  gives
    | .closed fd => {fd}
    | _ => 0

theorem leaves_created (fd : ℤ) : sockets.Leaves 0 [.created fd] {fd} :=
  Ledger.leaves_take (L := sockets) (e := .created fd) rfl 0

theorem leaves_closed (fd : ℤ) : sockets.Leaves {fd} [.closed fd] 0 :=
  Ledger.leaves_give (L := sockets) (e := .closed fd) rfl 0

theorem leaves_sent (bytes : Bytes) (held : Multiset ℤ) :
    sockets.Leaves held [.sent bytes] held := Ledger.leaves_neutral rfl rfl held

theorem leaves_received (body : Bytes) (held : Multiset ℤ) :
    sockets.Leaves held [.received body] held := Ledger.leaves_neutral rfl rfl held

theorem Disciplined.balanced (h : Disciplined log) : sockets.Balanced log := by
  induction h with
  | unconnected => exact .nil
  | @failed fd _ _ ih => exact (leaves_created fd).append ((leaves_closed fd).append ih)
  | @thrown fd bytes =>
    exact (leaves_created fd).append ((leaves_sent bytes _).append (leaves_closed fd))
  | @finished fd bytes body =>
    exact (leaves_created fd).append ((leaves_sent bytes _).append
      ((leaves_received body _).append (leaves_closed fd)))

theorem openStream_ok (h : (TcpSocketStream.openStream net k).2.1 = .ok) :
    0 < net.socket k ∧ net.connect k = 0 := by
  by_cases hfd : net.socket k ≤ 0
  · simp [TcpSocketStream.openStream, hfd] at h
  by_cases hconn : net.connect k = 0
  · exact ⟨not_le.mp hfd, hconn⟩
  · simp [TcpSocketStream.openStream, hfd, hconn] at h

theorem openStream_events (net : Kernel) (k : ℕ) :
    (TcpSocketStream.openStream net k).2.2 =
      if net.socket k < 0 then [] else [.created (net.socket k)] := by
  simp only [TcpSocketStream.openStream]
  split_ifs <;> rfl

theorem openFirst_created (ips : List Bytes) : ∀ k s,
    ∀ e ∈ (openFirst net k ips s).2.1, ∃ fd, e = .created fd := by
  induction ips with
  | nil => simp [openFirst]
  | cons ip ips ih =>
    intro k s e he
    have hopen (h : e ∈ (TcpSocketStream.openStream net k).2.2) : ∃ fd, e = .created fd := by
      rw [openStream_events] at h
      split_ifs at h
      · cases h
      · exact ⟨_, List.mem_singleton.mp h⟩
    simp only [openFirst] at he
    split_ifs at he
    · exact hopen he
    · rcases List.mem_append.mp he with he | he
      · exact hopen he
      · exact ih _ _ e he

theorem openFirst_eq_nil (ips : List Bytes) : ∀ k s,
    (openFirst net k ips s).2.1 = [] ↔ ∀ i < ips.length, net.socket (k + i) < 0 := by
  induction ips with
  | nil => simp [openFirst]
  | cons ip ips ih =>
    intro k s
    have hsplit : (∀ i < (ip :: ips).length, net.socket (k + i) < 0) ↔
        net.socket k < 0 ∧ ∀ i < ips.length, net.socket (k + 1 + i) < 0 := by
      rw [List.length_cons, Nat.forall_lt_succ_left]
      simp only [Nat.add_zero, Nat.add_assoc, Nat.add_comm 1]
    rw [hsplit]
    simp only [openFirst]
    split_ifs with hok
    · have hpos := (openStream_ok hok).1
      rw [openStream_events, if_neg (by omega)]
      exact iff_of_false (List.cons_ne_nil _ _) fun h => by omega
    · simp only [List.append_eq_nil_iff, ih, openStream_events]
      refine and_congr_left fun _ => ?_
      split_ifs with hfd <;> simp [hfd]

theorem openFirst_connected (ips : List Bytes) : ∀ k s,
    (openFirst net k ips s).2.2 = true → (openFirst net k ips s).2.1 ≠ [] := by
  induction ips with
  | nil => simp [openFirst]
  | cons ip ips ih =>
    intro k s
    simp only [openFirst]
    split_ifs with hok
    · have hpos := (openStream_ok hok).1
      rw [openStream_events, if_neg (by omega)]
      simp
    · intro h hnil
      exact ih _ _ h (List.append_eq_nil_iff.mp hnil).2

/-- No address of the call gets a socket. -/
def NoSocket (net : Kernel) (st : Request) (c : Call) : Prop :=
  c.Accepted → ∀ k < (st.ips ++ c.dns.addresses).length, net.socket k < 0

/-- What a call that comes back has done: nothing, or what its loop over the addresses has
done, and then, if that has connected, sent its request and received a body. -/
theorem getOver_cases (h : Returns (fun n => st.getOver n net s c) r) :
    (¬ c.Accepted ∧ r.events = []) ∨ c.Accepted ∧ ∃ more,
      r.events = (openFirst net 0 (st.ips ++ c.dns.addresses) s).2.1 ++ more ∧
      (∀ e ∈ more, sockets.gives e = 0) ∧
      ((openFirst net 0 (st.ips ++ c.dns.addresses) s).2.2 = false → more = []) := by
  obtain ⟨n, hn⟩ := h
  by_cases hacc : c.Accepted
  swap
  · obtain ⟨st', events, e, hthrown⟩ := parseUrl_of_not_accepted hacc st
    simp only [Request.getOver, hthrown] at hn
    obtain rfl := done.inj hn
    exact .inl ⟨hacc, rfl⟩
  refine .inr ⟨hacc, ?_⟩
  simp only [Request.getOver, parseUrl_of_accepted hacc, Request.getIpByDomain, setPort_ips,
    setPort_header] at hn
  split_ifs at hn with hconn hw
  · obtain rfl := done.inj hn
    exact ⟨_, rfl, by simp [sockets], fun h => by simp [h] at hconn⟩
  · obtain ⟨body, -, hn⟩ := bind_eq_done.mp hn
    obtain rfl := done.inj hn
    exact ⟨_, List.append_assoc _ _ _, by simp [sockets], fun h => by simp [h] at hconn⟩
  · obtain rfl := done.inj hn
    exact ⟨[], (List.append_nil _).symm, by simp, fun _ => rfl⟩

theorem getOver_gives (h : Returns (fun n => st.getOver n net s c) r) :
    ∀ e ∈ r.events, sockets.gives e = 0 := by
  rcases getOver_cases h with ⟨-, hnil⟩ | ⟨-, more, hevents, hmore, -⟩
  · simp [hnil]
  · intro e he
    rw [hevents] at he
    rcases List.mem_append.mp he with he | he
    · obtain ⟨fd, rfl⟩ := openFirst_created _ _ _ e he
      rfl
    · exact hmore e he

theorem getOver_eq_nil (h : Returns (fun n => st.getOver n net s c) r) :
    r.events = [] ↔ NoSocket net st c := by
  rcases getOver_cases h with ⟨hacc, hnil⟩ | ⟨hacc, more, hevents, -, hmore⟩
  · exact iff_of_true hnil fun h => absurd h hacc
  · have hloop := @openFirst_eq_nil net (st.ips ++ c.dns.addresses) 0 s
    simp only [Nat.zero_add] at hloop
    rw [hevents, List.append_eq_nil_iff, hloop]
    constructor
    · exact fun h _ => h.1
    · intro h
      refine ⟨h hacc, hmore ?_⟩
      rw [← Bool.not_eq_true]
      exact fun hconn => openFirst_connected _ _ _ hconn (hloop.mpr (h hacc))

theorem getOver_created (h : Returns (fun n => st.getOver n net s c) r) (hne : r.events ≠ []) :
    ∃ fd, .created fd ∈ r.events := by
  rcases getOver_cases h with ⟨-, hnil⟩ | ⟨-, more, hevents, -, hmore⟩
  · exact absurd hnil hne
  · have hloop : (openFirst net 0 (st.ips ++ c.dns.addresses) s).2.1 ≠ [] := by
      intro hnil
      have hconn : (openFirst net 0 (st.ips ++ c.dns.addresses) s).2.2 = false := by
        rw [← Bool.not_eq_true]
        exact fun hconn => openFirst_connected _ _ _ hconn hnil
      exact hne (by rw [hevents, hnil, hmore hconn, List.append_nil])
    obtain ⟨e, he⟩ := List.exists_mem_of_ne_nil _ hloop
    obtain ⟨fd, rfl⟩ := openFirst_created _ _ _ e he
    exact ⟨fd, hevents ▸ List.mem_append_left more he⟩

theorem getOver_not_balanced (h : Returns (fun n => st.getOver n net s c) r)
    (hne : r.events ≠ []) : ¬ sockets.Balanced r.events := by
  intro hbal
  obtain ⟨fd, hmem⟩ := getOver_created h hne
  have htakes := Ledger.takes_eq_zero hbal (getOver_gives h) _ hmem
  exact absurd htakes (Multiset.singleton_ne_zero fd)

/-- A call that comes back, or throws, has closed every socket once, in time or at all,
exactly when it got no socket for any of its addresses. -/
theorem closes_sockets_iff (h : Returns (fun n => st.getOver n net s c) r) :
    (Disciplined r.events ↔ NoSocket net st c) ∧
      (sockets.Balanced r.events ↔ NoSocket net st c) := by
  have hempty (hbal : sockets.Balanced r.events) : NoSocket net st c := by
    rw [← getOver_eq_nil h]
    by_contra hne
    exact getOver_not_balanced h hne hbal
  have hnone (hno : NoSocket net st c) : Disciplined r.events := by
    rw [(getOver_eq_nil h).mpr hno]
    exact .unconnected
  exact ⟨⟨fun hd => hempty hd.balanced, hnone⟩, hempty, fun hno => (hnone hno).balanced⟩

/-- The attempts that succeed with these sockets. -/
def Kernel.opens (net : Kernel) (k : ℕ) : Bool := 0 < net.socket k ∧ net.connect k = 0

theorem openFirst_tryOpen (ips : List Bytes) : ∀ k s,
    (openFirst net k ips s).2.2 = (tryOpen net.opens k ips).2 := by
  induction ips with
  | nil => simp [openFirst, tryOpen]
  | cons ip ips ih =>
    intro k s
    by_cases hopen : 0 < net.socket k ∧ net.connect k = 0
    · have hok : (TcpSocketStream.openStream net k).2.1 = .ok := by
        simp [TcpSocketStream.openStream, not_le.mpr hopen.1, hopen.2]
      simp only [openFirst, tryOpen, if_pos hok, Kernel.opens, decide_eq_true hopen, if_true]
    · have hok : (TcpSocketStream.openStream net k).2.1 ≠ .ok := fun h => hopen (openStream_ok h)
      simp only [openFirst, tryOpen, if_neg hok, Kernel.opens, decide_eq_false hopen,
        Bool.false_eq_true, if_false]
      exact ih _ _

/-- What a call leaves and gives back is what it does when the successes are given. -/
theorem getOver_get (h : Returns (fun n => st.getOver n net s c) r) :
    Returns (fun n => st.get n { c with opens := net.opens })
      (r.request, (st.request { c with opens := net.opens }).2.1, r.result) := by
  obtain ⟨n, hn⟩ := h
  refine ⟨n, ?_⟩
  have htext : Call.text { c with opens := net.opens } = c.text := rfl
  by_cases hacc : c.Accepted
  swap
  · obtain ⟨st', events, e, hthrown⟩ := parseUrl_of_not_accepted hacc st
    simp only [Request.getOver, hthrown] at hn
    obtain rfl := done.inj hn
    simp only [Request.get, Request.request, hthrown, pure_eq]
  simp only [Request.getOver, parseUrl_of_accepted hacc, openFirst_tryOpen] at hn
  simp only [Request.get, Request.request, parseUrl_of_accepted hacc, htext, Request.sendRequest]
  by_cases hconn :
      (tryOpen net.opens 0 ((st.setPort (urlDomain c.url)).getIpByDomain c.dns).ips).2 = true
  swap
  · rw [if_neg hconn] at hn
    obtain rfl := done.inj hn
    simp only [if_neg hconn, pure_eq]
  rw [if_pos hconn] at hn
  by_cases hw : c.written = 0
  · rw [if_pos hw] at hn
    obtain rfl := done.inj hn
    simp only [if_pos hconn, if_pos hw, pure_eq]
  · rw [if_neg hw] at hn
    obtain ⟨body, hbody, hn⟩ := bind_eq_done.mp hn
    obtain rfl := done.inj hn
    simp [hconn, hw, hbody]

def refusing : Kernel := ⟨fun k => 3 + k, fun _ => -1⟩

def exhausted : Kernel := ⟨fun _ => -1, fun _ => -1⟩

theorem closes_sockets_exhausted : ∃ r, Returns (fun n => Request.new.getOver n exhausted ⟨0⟩
    (sampleCall "http://a.b/" "10.0.0.1" false)) r ∧ Disciplined r.events := by
  obtain ⟨r, hr⟩ : ∃ r, Returns (fun n => Request.new.getOver n exhausted ⟨0⟩
      (sampleCall "http://a.b/" "10.0.0.1" false)) r := ⟨_, 0, rfl⟩
  have hno : NoSocket exhausted Request.new (sampleCall "http://a.b/" "10.0.0.1" false) :=
    fun _ _ _ => show (-1 : ℤ) < 0 by decide
  exact ⟨r, hr, (closes_sockets_iff hr).1.mpr hno⟩

/-- The socket of the failed attempt stays open. -/
theorem refused_socket_leaks : ∃ r, Returns (fun n => Request.new.getOver n refusing ⟨0⟩
    (sampleCall "http://a.b/" "10.0.0.1" false)) r ∧ ¬ Disciplined r.events := by
  obtain ⟨r, hr⟩ : ∃ r, Returns (fun n => Request.new.getOver n refusing ⟨0⟩
      (sampleCall "http://a.b/" "10.0.0.1" false)) r := ⟨_, 0, rfl⟩
  refine ⟨r, hr, fun h => ?_⟩
  have hsocket : ¬ NoSocket refusing Request.new (sampleCall "http://a.b/" "10.0.0.1" false) :=
    fun hno => absurd (hno (by decide) 0 (by decide)) (by decide)
  exact getOver_not_balanced hr (mt (getOver_eq_nil hr).mp hsocket) h.balanced

end QyUtil.Http
