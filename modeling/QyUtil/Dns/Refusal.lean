import QyUtil.Dns.Descriptors

/-! # Hosts that cannot be asked for

The encoder stores the length of a label in one byte, whatever it is, and nothing
checks a host before it is sent. A host that is no name is refused only where its
encoding runs over the send buffer, which is undefined, or where the socket refuses
the datagram.
-/

namespace QyUtil.Dns

open Loops Outcome Bytes Net

variable {net : Network} {host d : Bytes} {ls : List Bytes} {info : Option SocketIpInfo}
  {timeout : ℤ} {dnsserver : Option Bytes} {pid : ℕ}

/-- The host is the root, or labels of 1 to 63 bytes, 253 bytes at most, perhaps with a
dot behind the last. -/
def Encodable (host : Bytes) : Prop :=
  ∃ ls trailing, (ls ≠ [] → HostLabels ls) ∧ host = hostName ls trailing

/-- The encoding of what stands between the dots, with lengths modulo 256. -/
def encodedHost (host : Bytes) : Bytes := encodeLabels (host.splitOn 46)

/-- The datagram for a host: the question follows the first zero byte of the name. -/
def hostDatagram (pid : ℕ) (host : Bytes) : Bytes :=
  (queryHeader pid).bytes ++ cString (encodedHost host) ++ 0 :: question

/-- The encoded name fits into the send buffer, and so does the question. -/
structure Fits (host : Bytes) : Prop where
  name : headerSize + ((encodedHost host).length + 1) ≤ bufLen
  question : headerSize + ((cString (encodedHost host)).length + 1) + questionSize ≤ bufLen

theorem changetoDnsNameFormat_eq (h0 : (0 : UInt8) ∉ host) :
    changetoDnsNameFormat host = encodedHost host ++ [0] := by
  have h := changetoDnsNameFormat_intercalate (List.splitOn_ne_nil 46 host)
    (fun l hl hm => h0 ((Pairs.of_mem_splitOn hl).2 0 hm))
    (fun l hl => (Pairs.of_mem_splitOn hl).1)
  rwa [List.intercalate_splitOn] at h

theorem exists_encoded (h0 : (0 : UInt8) ∉ host) :
    ∃ t, changetoDnsNameFormat host ++
      List.replicate (bufLen - (headerSize + (changetoDnsNameFormat host).length)) 0 =
        cString (encodedHost host) ++ 0 :: t := by
  rw [changetoDnsNameFormat_eq h0, List.append_assoc]
  exact exists_cString_append _ _

theorem length_changeto (h0 : (0 : UInt8) ∉ host) :
    (changetoDnsNameFormat host).length = (encodedHost host).length + 1 := by
  rw [changetoDnsNameFormat_eq h0, List.length_append, List.length_singleton]

theorem Fits.prepare (h : Fits host) (h0 : (0 : UInt8) ∉ host) (pid : ℕ) :
    ∃ sendBuf, prepareDnsQueryPacket pid host = done sendBuf ∧
      sentQuery sendBuf = hostDatagram pid host := by
  obtain ⟨t, ht⟩ := exists_encoded h0
  have hname := h.name
  have hquestion := h.question
  rw [← length_changeto h0] at hname
  have hlen : questionSize ≤ t.length := by
    have := congrArg List.length ht
    simp only [List.length_append, List.length_replicate, List.length_cons] at this
    omega
  have hz := zero_notMem_cString (encodedHost host)
  have hdone := prepareDnsQueryPacket_done pid (t.take questionSize) (t.drop questionSize) hz
    (by rw [List.take_append_drop]; exact ht) hname (List.length_take_of_le hlen)
  refine ⟨_, hdone, ?_⟩
  have hcut : sendPacklen (hostDatagram pid host ++ t.drop questionSize) =
      (hostDatagram pid host).length := by
    rw [sendPacklen, hostDatagram, List.append_assoc, List.cons_append, qnameLength_append hz]
    simp only [List.length_append, List.length_cons, length_header]
    rfl
  rw [sentQuery, ← hostDatagram, hcut, List.take_left]

theorem Fits.queryDatagram (h : Fits host) (h0 : (0 : UInt8) ∉ host) (pid : ℕ) :
    queryDatagram pid host = done (hostDatagram pid host) := by
  obtain ⟨sendBuf, hprepare, hsent⟩ := h.prepare h0 pid
  rw [Dns.queryDatagram, hprepare, done_bind, ← sentQuery, hsent, pure_eq]

theorem prepare_overflows (h : ¬ Fits host) (h0 : (0 : UInt8) ∉ host) (pid : ℕ) :
    ∃ i, prepareDnsQueryPacket pid host = fault (.sendOutside i) := by
  have hlen := length_changeto h0
  by_cases hname : headerSize + ((encodedHost host).length + 1) ≤ bufLen
  · have hquestion : ¬ headerSize + ((cString (encodedHost host)).length + 1) + questionSize ≤
        bufLen := fun hq => h ⟨hname, hq⟩
    rw [← hlen] at hname
    obtain ⟨t, ht⟩ := exists_encoded h0
    have hbuf := named_buffer pid hname
    rw [ht, ← List.append_assoc] at hbuf
    refine ⟨headerSize + ((cString (encodedHost host)).length + 1) + questionSize, ?_⟩
    simp only [prepareDnsQueryPacket, hbuf, qnameLength_append (zero_notMem_cString _)]
    rw [guard_true hname, done_bind, guard_false hquestion, fault_bind]
  · rw [← hlen] at hname
    refine ⟨headerSize + (changetoDnsNameFormat host).length, ?_⟩
    simp only [prepareDnsQueryPacket]
    rw [guard_false hname, fault_bind]

/-- The lookup hands the datagram `d` to `sendto`, which takes it. -/
structure Sends (net : Network) (host : Bytes) (info : Option SocketIpInfo)
    (dnsserver : Option Bytes) (d : Bytes) : Prop where
  asks : Asks net info dnsserver
  built : queryDatagram net.pid (cString host) = done d
  taken : net.sendto d ≠ -1

/-- The lookup returns -1, has written nothing outside the send buffer and sent nothing. -/
structure Refuses (net : Network) (host : Bytes) (info : Option SocketIpInfo) (timeout : ℤ)
    (dnsserver : Option Bytes) : Prop where
  returns : ∃ r, Returns (fun n => socketGethostbyname n net (some host) info timeout dnsserver) r ∧
    r.ret = -1
  inside : ∀ i, ¬ Faults (fun n => socketGethostbyname n net (some host) info timeout dnsserver)
    (.sendOutside i)
  silent : ∀ d, ¬ Sends net host info dnsserver d

/-- The datagram is a standard question for exactly the given host. -/
def QuestionFor (host d : Bytes) : Prop :=
  ∃ ls trailing, (ls ≠ [] → HostLabels ls) ∧ host = hostName ls trailing ∧
    ∃ id < 65536, parseQuery d = some (standardQuery id ls)

theorem Encodable.question (h : Encodable host) (hs : queryDatagram pid host = done d) :
    QuestionFor host d := by
  obtain ⟨ls, trailing, hl, rfl⟩ := h
  obtain ⟨sendBuf, hprepare, -, htake⟩ := prepare_hostName hl pid trailing
  have hd : queryDatagram pid (hostName ls trailing) = done (hostQuery pid ls) := by
    rw [queryDatagram, hprepare, done_bind, htake, pure_eq]
  obtain rfl := done.inj (hd.symm.trans hs)
  refine ⟨ls, trailing, hl, rfl, _, be16_lt _ _, parseQuery_eq pid fun l hm => ?_⟩
  exact (hl (List.ne_nil_of_mem hm)).size l hm

theorem Refuses.of_done {r : Lookup} (hret : r.ret = -1)
    (h : ∀ n, socketGethostbyname n net (some host) info timeout dnsserver = done r)
    (hs : ∀ d, ¬ Sends net host info dnsserver d) : Refuses net host info timeout dnsserver where
  returns := ⟨r, ⟨0, h 0⟩, hret⟩
  inside := by
    rintro i ⟨n, hn⟩
    cases (h n).symm.trans hn
  silent := hs

theorem refuses_of_not_asks (h : ¬ Asks net info dnsserver) :
    Refuses net host info timeout dnsserver := by
  have hs : ∀ d, ¬ Sends net host info dnsserver d := fun d hd => h hd.asks
  cases info with
  | none => exact .of_done (r := ⟨-1, none, [], []⟩) rfl (fun n => rfl) hs
  | some info =>
    by_cases hsocket : net.socket < 0
    · refine .of_done (r := ⟨-1, some info, [], []⟩) rfl (fun n => ?_) hs
      simp only [socketGethostbyname, if_pos hsocket, pure_eq]
    · cases hserver : dnsServers net dnsserver with
      | nil =>
        refine .of_done (r := ⟨-1, some info, [.opened net.socket, .closed net.socket], []⟩) rfl
          (fun n => ?_) hs
        simp only [socketGethostbyname, if_neg hsocket, hserver, pure_eq]
      | cons server servers =>
        have haddr : ¬ (inetPton server).isSome = true := fun haddr =>
          h ⟨rfl, not_lt.mp hsocket, server, servers, hserver, haddr⟩
        refine .of_done (r := ⟨-1, some info, [.opened net.socket], []⟩) rfl (fun n => ?_) hs
        simp only [socketGethostbyname, if_neg hsocket, hserver, if_neg haddr, pure_eq]

theorem Asks.lookup_eq (h : Asks net info dnsserver) (host : Bytes) (timeout : ℤ) : ∃ info', ∀ n,
    socketGethostbyname n net (some host) info timeout dnsserver =
      queryServer n net (cString host) (effectiveTimeout timeout) info' >>= fun r =>
        pure { r with events := .opened net.socket :: r.events ++ [.closed net.socket] } := by
  obtain ⟨hinfo, hsocket, server, servers, hserver, haddr⟩ := h
  obtain ⟨info, rfl⟩ := Option.isSome_iff_exists.mp hinfo
  exact ⟨info, socketGethostbyname_eq hserver haddr hsocket host⟩

theorem Asks.refuses (h : Asks net info dnsserver) (hf : Fits (cString host))
    (ht : net.sendto (hostDatagram net.pid (cString host)) = -1) :
    Refuses net host info timeout dnsserver := by
  obtain ⟨info', heq⟩ := h.lookup_eq host timeout
  obtain ⟨sendBuf, hprepare, hsent⟩ := hf.prepare (zero_notMem_cString host) net.pid
  refine .of_done (r := ⟨-1, some info', [.opened net.socket, .sent (sentQuery sendBuf),
    .closed net.socket], []⟩) rfl (fun n => ?_) ?_
  · rw [heq, queryServer, hprepare, done_bind]
    dsimp only
    rw [← sentQuery, hsent, if_pos ht]
    rfl
  · rintro d ⟨-, hbuilt, htaken⟩
    rw [hf.queryDatagram (zero_notMem_cString host)] at hbuilt
    exact htaken (done.inj hbuilt ▸ ht)

theorem Asks.overflows (h : Asks net info dnsserver) (hf : ¬ Fits (cString host)) :
    ∃ i, Faults (fun n => socketGethostbyname n net (some host) info timeout dnsserver)
      (.sendOutside i) := by
  obtain ⟨info', heq⟩ := h.lookup_eq host timeout
  obtain ⟨i, hi⟩ := prepare_overflows hf (zero_notMem_cString host) net.pid
  refine ⟨i, 0, ?_⟩
  dsimp only
  rw [heq, queryServer, hi]
  rfl

/-- Hosts that are no names are refused, and what is sent is a question for exactly the
host, if and only if the host is a name, or nothing is asked, or the datagram fits into
the send buffer and `sendto` does not take it. -/
theorem refused_iff (net : Network) (host : Bytes) (info : Option SocketIpInfo) (timeout : ℤ)
    (dnsserver : Option Bytes) :
    ((¬ Encodable (cString host) → Refuses net host info timeout dnsserver) ∧
        ∀ d, Sends net host info dnsserver d → QuestionFor (cString host) d) ↔
      Encodable (cString host) ∨ ¬ Asks net info dnsserver ∨
        (Fits (cString host) ∧ net.sendto (hostDatagram net.pid (cString host)) = -1) := by
  constructor
  · rintro ⟨hrefuses, -⟩
    by_contra hnot
    obtain ⟨hencodable, hasks, hsend⟩ : ¬ Encodable (cString host) ∧ Asks net info dnsserver ∧
        ¬ (Fits (cString host) ∧ net.sendto (hostDatagram net.pid (cString host)) = -1) := by
      simpa only [not_or, not_not] using hnot
    have hr := hrefuses hencodable
    by_cases hf : Fits (cString host)
    · exact hr.silent _ ⟨hasks, hf.queryDatagram (zero_notMem_cString host) net.pid,
        fun ht => hsend ⟨hf, ht⟩⟩
    · obtain ⟨i, hi⟩ := hasks.overflows hf
      exact hr.inside i hi
  · rintro (hencodable | hasks | ⟨hf, ht⟩)
    · exact ⟨fun hn => absurd hencodable hn, fun d hd => hencodable.question hd.built⟩
    · exact ⟨fun _ => refuses_of_not_asks hasks, fun d hd => absurd hd.asks hasks⟩
    · have hr : Refuses net host info timeout dnsserver := by
        by_cases hasks : Asks net info dnsserver
        · exact hasks.refuses hf ht
        · exact refuses_of_not_asks hasks
      exact ⟨fun _ => hr, fun d hd => absurd hd (hr.silent d)⟩

def silentNetwork : Network where
  pid := 4660
  hostServers := [ascii "8.8.8.8"]
  socket := 3
  sendto _ := 20
  recvWithinTime _ _ := none
  heap := plentiful

theorem HostLabels.splitOn_hostName (h : HostLabels ls) (trailing : Bool) :
    (hostName ls trailing).splitOn 46 = ls ++ if trailing then [[]] else [] := by
  cases trailing with
  | false =>
    have hs := List.splitOn_intercalate 46 h.no_dot h.ne_nil
    simpa [hostName] using hs
  | true =>
    rw [hostName_trailing h.ne_nil, if_pos rfl]
    exact List.splitOn_intercalate 46 (by simpa [or_imp, forall_and] using h.no_dot) (by simp)

theorem not_encodable (hne : host.splitOn 46 ≠ [[], []])
    (h : [] ∈ (host.splitOn 46).dropLast) : ¬ Encodable host := by
  rintro ⟨ls, trailing, hl, rfl⟩
  by_cases hnil : ls = []
  · subst hnil
    cases trailing
    · exact absurd h (by decide)
    · exact hne (by decide)
  · have hls := hl hnil
    rw [hls.splitOn_hostName] at h
    have hmem : [] ∈ ls := by
      cases trailing
      · exact List.dropLast_subset ls (by simpa using h)
      · simpa using h
    exact absurd (hls.size [] hmem).1 (by decide)

theorem empty_label_asked :
    ¬ ((¬ Encodable (cString (ascii "a..b")) →
          Refuses silentNetwork (ascii "a..b") (some emptyInfo) 1000 none) ∧
        ∀ d, Sends silentNetwork (ascii "a..b") (some emptyInfo) none d →
          QuestionFor (cString (ascii "a..b")) d) := by
  rintro ⟨h, -⟩
  have hr := h (not_encodable (by decide) (by decide))
  have hf : Fits (cString (ascii "a..b")) := ⟨by decide, by decide⟩
  exact hr.silent _ ⟨⟨rfl, by decide, _, _, rfl, by decide⟩, hf.queryDatagram (by decide) 4660,
    by decide⟩

end QyUtil.Dns
