import QyUtil.Dns.Message

/-! # Resolution

A response of address and alias records, read by the models from end to end. The
result holds the addresses of the first twenty records in record order, and the
call succeeds exactly when there is one.
-/

namespace QyUtil.Dns

open Loops Outcome Bytes Net

variable {ls : List Bytes} {info : SocketIpInfo} {as : List Address}

theorem push_take {a : Bytes} (h : info.size < socketMaxIpCount) :
    (info.push a).ip.take (info.size + 1) = info.ip.take info.size ++ [a] := by
  have hlen : info.size < info.ip.length := by rwa [info.ip_length]
  rw [SocketIpInfo.push, List.take_add_one, List.take_set_of_le le_rfl,
    List.getElem?_set_self hlen]
  rfl

theorem pushAll_take (info : SocketIpInfo) (as : List Address)
    (h : info.size + as.length ≤ socketMaxIpCount) :
    (pushAll info as).size = info.size + as.length ∧
      (pushAll info as).ip.take (info.size + as.length) =
        info.ip.take info.size ++ as.map Address.dotted := by
  induction as generalizing info with
  | nil => simp [pushAll]
  | cons a as ih =>
    rw [List.length_cons] at h
    have hsize : (info.push a.dotted).size = info.size + 1 := rfl
    obtain ⟨h1, h2⟩ := ih (info.push a.dotted) (by rw [hsize]; omega)
    rw [hsize, Nat.add_assoc, Nat.add_comm 1] at h1 h2
    refine ⟨h1, ?_⟩
    rw [push_take (by omega), List.append_assoc] at h2
    exact h2

theorem take_recordCount {rs : List (Option Address)} {buf : RecvBuf}
    (h : buf.be16 6 = rs.length) : rs.take (recordCount buf) = rs.take socketMaxIpCount := by
  rw [recordCount, h]
  rcases Nat.le_total socketMaxIpCount rs.length with hle | hle
  · rw [min_eq_left hle]
  · rw [min_eq_right hle, List.take_length, List.take_of_length_le hle]

theorem cString_hostName (h : ls ≠ [] → HostLabels ls) :
    cString (hostName ls false) = hostName ls false := by
  apply cString_eq_self
  intro hm
  by_cases hne : ls = []
  · subst hne
    simp [hostName] at hm
  · have hdot : (0 : UInt8) ∈ [46].intercalate ls ++ [46] :=
      List.mem_append_left _ (by simpa [hostName] using hm)
    rw [intercalate_append_dot hne] at hdot
    exact zero_not_mem_dotted (h hne).no_nul hdot

/-- Also the empty host has a query, for the root. -/
theorem prepare_hostName (h : ls ≠ [] → HostLabels ls) (pid : ℕ) (trailing : Bool) :
    ∃ sendBuf, prepareDnsQueryPacket pid (hostName ls trailing) = done sendBuf ∧
      sendPacklen sendBuf = (hostQuery pid ls).length ∧
      sendBuf.take (sendPacklen sendBuf) = hostQuery pid ls := by
  by_cases hne : ls = []
  · subst hne
    have hroot : changetoDnsNameFormat (hostName [] trailing) =
        encodeLabels [] ++ 0 :: if trailing then [0, 0] else [0] := by
      cases trailing <;> decide
    exact prepareDnsQueryPacket_host (by simp) hroot (by cases trailing <;> decide) (by decide)
  · exact (h hne).prepare pid trailing

theorem inBounds_freeAll (records : List ResRecord) : InBounds (freeAll records) := by
  simp only [InBounds, freeAll, List.mem_flatMap, List.mem_map]
  rintro e ⟨_, _, _, _, rfl⟩
  trivial

variable {net : Network} {dnsserver : Option Bytes} {server : Bytes} {servers : List Bytes}
  {timeout : ℤ} {buf : RecvBuf}

theorem socketGethostbyname_eq (hserver : dnsServers net dnsserver = server :: servers)
    (haddr : (inetPton server).isSome) (hsocket : 0 ≤ net.socket) (host : Bytes) (n : ℕ) :
    socketGethostbyname n net (some host) (some info) timeout dnsserver =
      queryServer n net (cString host) (effectiveTimeout timeout) info >>= fun r =>
        pure { r with events := .opened net.socket :: r.events ++ [.closed net.socket] } := by
  simp only [socketGethostbyname, if_neg (not_lt.mpr hsocket), hserver, if_pos haddr]

def sentQuery (sendBuf : Bytes) : Bytes := sendBuf.take (sendPacklen sendBuf)

/-- The lookup sends the query in `sendBuf` and receives the datagram in `buf`. -/
structure Exchange (net : Network) (host : Bytes) (timeout : ℤ) (dnsserver : Option Bytes)
    (sendBuf : Bytes) (buf : RecvBuf) : Prop where
  socket : 0 ≤ net.socket
  server : ∃ server servers, dnsServers net dnsserver = server :: servers ∧
    (inetPton server).isSome
  prepared : prepareDnsQueryPacket net.pid (cString host) = done sendBuf
  sent : net.sendto (sentQuery sendBuf) ≠ -1
  received : net.recvWithinTime (effectiveTimeout timeout / 1000)
    (effectiveTimeout timeout % 1000 * 1000) = some buf

theorem lookup_cases {host : Bytes} {r : Lookup} {n : ℕ}
    (h : socketGethostbyname n net (some host) (some info) timeout dnsserver = done r) :
    (r.ret = -1 ∧ r.info = some info ∧ r.trace = []) ∨ ∃ sendBuf buf info' a,
      Exchange net host timeout dnsserver sendBuf buf ∧
      readResponse n net.heap buf (answerStart sendBuf) info = done (info', a) ∧
      r.info = some info' ∧ (r.ret = if info'.size = 0 then -1 else 0) ∧
      r.trace = a.trace ++ freeAll a.records := by
  simp only [socketGethostbyname] at h
  split_ifs at h with hsocket
  · obtain rfl := done.inj h
    exact .inl ⟨rfl, rfl, rfl⟩
  split at h
  · obtain rfl := done.inj h
    exact .inl ⟨rfl, rfl, rfl⟩
  rename_i server servers hserver
  split_ifs at h with haddr
  swap
  · obtain rfl := done.inj h
    exact .inl ⟨rfl, rfl, rfl⟩
  obtain ⟨r', hquery, h⟩ := bind_eq_done.mp h
  obtain rfl := done.inj h
  obtain ⟨sendBuf, hprepared, hquery⟩ := bind_eq_done.mp hquery
  dsimp only at hquery
  split_ifs at hquery with hsent
  · obtain rfl := done.inj hquery
    exact .inl ⟨rfl, rfl, rfl⟩
  split at hquery
  · obtain rfl := done.inj hquery
    exact .inl ⟨rfl, rfl, rfl⟩
  rename_i buf hreceived
  obtain ⟨⟨info', a⟩, hread, hquery⟩ := bind_eq_done.mp hquery
  obtain rfl := done.inj hquery
  exact .inr ⟨sendBuf, buf, info', a, ⟨not_lt.mp hsocket, ⟨server, servers, hserver, haddr⟩,
    hprepared, hsent, hreceived⟩, hread, rfl, rfl, rfl⟩

def answered (net : Network) (ls : List Bytes) (info : SocketIpInfo) (a : Answers) : Lookup where
  ret := if info.size = 0 then -1 else 0
  info := some info
  events := [.opened net.socket, .sent (hostQuery net.pid ls), .closed net.socket]
  trace := a.trace ++ freeAll a.records

theorem answered_ret_iff {a : Answers} : (answered net ls info a).ret = 0 ↔ 0 < info.size := by
  simp only [answered]
  split_ifs with h0
  · simp [h0]
  · simpa using Nat.pos_of_ne_zero h0

theorem lookup_returns (hl : ls ≠ [] → HostLabels ls)
    (hserver : dnsServers net dnsserver = server :: servers) (haddr : (inetPton server).isSome)
    (hsocket : 0 ≤ net.socket) (hsend : net.sendto (hostQuery net.pid ls) ≠ -1)
    (hrecv : net.recvWithinTime (effectiveTimeout timeout / 1000)
      (effectiveTimeout timeout % 1000 * 1000) = some buf)
    {info' : SocketIpInfo} {a : Answers} (hr : Returns
      (fun n => readResponse n net.heap buf (hostQuery net.pid ls).length info) (info', a)) :
    Returns (fun n => socketGethostbyname n net (some (hostName ls false)) (some info) timeout
      dnsserver) (answered net ls info' a) := by
  obtain ⟨sendBuf, hprepare, hcut, htake⟩ := prepare_hostName hl net.pid false
  rw [hcut] at htake
  obtain ⟨n, hn⟩ := hr
  refine ⟨n, ?_⟩
  simp only [socketGethostbyname_eq hserver haddr hsocket, cString_hostName hl, queryServer,
    hprepare, done_bind, htake, if_neg hsend, hrecv, answerStart_eq, hcut, hn, pure_eq]
  rfl

/-- Well-formed address and alias records are read, and their addresses stored. -/
theorem RecordsAt.readResponse {heap : Heap} (hh : heap.Reliable) {q : ℕ}
    {rs : List (Option Address)}
    (hrs : RecordsAt buf.datagram q rs) (hcount : buf.be16 6 = rs.length) (info : SocketIpInfo) :
    ∃ a, Returns (fun n => Dns.readResponse n heap buf q info)
        (pushAll { info with size := 0 } ((rs.take socketMaxIpCount).filterMap id), a) ∧
      InBounds a.trace := by
  have hle : recordCount buf ≤ rs.length := by rw [recordCount, hcount]; exact min_le_right _ _
  obtain ⟨hends, hall, hcopy⟩ := hrs.reads (recordCount buf) hle
  rw [take_recordCount hcount] at hcopy
  rcases readResponse_fate hh buf q info with
    ⟨-, -, a, hr, hb⟩ | ⟨-, hl, -⟩ | ⟨hi, -⟩ | ⟨-, he, -⟩
  · rw [hcopy] at hr
    exact ⟨a, hr, hb.mpr fun s hs => (hall s hs).1⟩
  · exact absurd (fun s hs => (hall s hs).2) hl
  · exact absurd hends.inside hi
  · exact absurd hends he

/-- A lookup whose response holds well-formed address and alias records behind a
question of the length of the query's stores the addresses of the first twenty
records, in record order, and succeeds exactly when there is one. -/
theorem lookup_addresses (net : Network) (hh : net.heap.Reliable) (hl : ls ≠ [] → HostLabels ls)
    (hserver : dnsServers net dnsserver = server :: servers) (haddr : (inetPton server).isSome)
    (hsocket : 0 ≤ net.socket) (hsend : net.sendto (hostQuery net.pid ls) ≠ -1)
    (hrecv : net.recvWithinTime (effectiveTimeout timeout / 1000)
      (effectiveTimeout timeout % 1000 * 1000) = some buf)
    {rs : List (Option Address)} (hcount : buf.be16 6 = rs.length)
    (hrs : RecordsAt buf.datagram (hostQuery net.pid ls).length rs) (info : SocketIpInfo) :
    ∃ r info', Returns (fun n => socketGethostbyname n net (some (hostName ls false)) (some info)
        timeout dnsserver) r ∧ r.info = some info' ∧
      info'.size = ((rs.take socketMaxIpCount).filterMap id).length ∧
      info'.ip.take info'.size = ((rs.take socketMaxIpCount).filterMap id).map Address.dotted ∧
      (r.ret = 0 ↔ 0 < ((rs.take socketMaxIpCount).filterMap id).length) ∧
      InBounds r.trace := by
  have hmax : ((rs.take socketMaxIpCount).filterMap id).length ≤ socketMaxIpCount :=
    (List.length_filterMap_le _ _).trans (List.length_take_le _ _)
  obtain ⟨hsize, hip⟩ := pushAll_take { info with size := 0 }
    ((rs.take socketMaxIpCount).filterMap id) (by simpa using hmax)
  simp only [Nat.zero_add, List.take_zero, List.nil_append] at hsize hip
  rw [← hsize] at hip
  obtain ⟨a, hr, hb⟩ := hrs.readResponse hh hcount info
  refine ⟨_, _, lookup_returns hl hserver haddr hsocket hsend hrecv hr, rfl, hsize, hip, ?_, ?_⟩
  · rw [← hsize]
    exact answered_ret_iff
  · exact inBounds_append.mpr ⟨hb, inBounds_freeAll _⟩

def aliasResponse : RecvBuf where
  datagram := [18, 52, 129, 128, 0, 1, 0, 2, 0, 0, 0, 0, 1, 113, 1, 97, 0, 0, 1, 0, 1,
    192, 12, 0, 5, 0, 1, 0, 0, 0, 60, 0, 4, 1, 98, 192, 14,
    192, 33, 0, 1, 0, 1, 0, 0, 0, 60, 0, 4, 93, 184, 216, 34]
  fits := by decide

def aliasNetwork : Network where
  pid := 4660
  hostServers := [ascii "8.8.8.8"]
  socket := 3
  sendto _ := 21
  recvWithinTime _ _ := some aliasResponse
  heap := plentiful

theorem aliasResponse_records : RecordsAt aliasResponse.datagram 21
    [none, some ⟨93, 184, 216, 34⟩] := by
  have ha : WireName aliasResponse.datagram 14 [ascii "a"] 3 :=
    .label (l := [97]) ⟨by decide, by decide⟩ (by simp) (by decide) (.root (by decide))
  have hq : WireName aliasResponse.datagram 12 [ascii "q", ascii "a"] 5 :=
    .label (l := [113]) ⟨by decide, by decide⟩ (by simp) (by decide) ha
  have hb : WireName aliasResponse.datagram 33 [ascii "b", ascii "a"] 4 := by
    have hptr : [192, 14] <+: aliasResponse.datagram.drop 35 := by decide
    exact .label (l := [98]) ⟨by decide, by decide⟩ (by simp) (by decide)
      (.pointer hptr (by decide) ha)
  have hname : [192, 12] <+: aliasResponse.datagram.drop 21 := by decide
  have hname' : [192, 33] <+: aliasResponse.datagram.drop 37 := by decide
  have hfields : [0, 5, 0, 1, 0, 0, 0, 60, 0, 4] <+: aliasResponse.datagram.drop 23 := by decide
  have hfields' : [0, 1, 0, 1, 0, 0, 0, 60, 0, 4, 93, 184, 216, 34] <+:
      aliasResponse.datagram.drop 39 := by decide
  exact .cname ⟨.pointer hname (by decide) hq, by decide, by decide⟩ hfields
    ⟨hb, by decide, by decide⟩
    (.address ⟨.pointer hname' (by decide) hb, by decide, by decide⟩ hfields' .nil)

theorem reading_ends_alias :
    (∀ heap : Heap, ∃ r, Returns (fun n => loop (readTurn heap aliasResponse) n (.start 21 0)) r) ∧
      ∃ a, Returns (fun n => readRecvAnswer n plentiful aliasResponse 21 0) a := by
  obtain ⟨hname, hrecords⟩ := reading_ends_iff aliasResponse
  have hends : RecordsEnd aliasResponse (recordCount aliasResponse) 21 :=
    (aliasResponse_records.reads (recordCount aliasResponse) (by decide)).1
  exact ⟨(hname 21 0).mpr hends.1.1, (hrecords plentiful plentiful_reliable 21 0).mpr hends⟩

theorem aliasLabels : HostLabels [ascii "q", ascii "a"] where
  ne_nil := by decide
  size := by simp only [LabelSize]; decide
  no_nul := by decide
  no_dot := by decide
  length_le := by decide

theorem lookup_addresses_alias : ∃ r info', Returns (fun n => socketGethostbyname n aliasNetwork
      (some (hostName [ascii "q", ascii "a"] false)) (some emptyInfo) 0 none) r ∧
    r.info = some info' ∧ info'.size = 1 ∧
    info'.ip.take info'.size = [ascii "93.184.216.34"] ∧ (r.ret = 0 ↔ 0 < 1) ∧
    InBounds r.trace :=
  lookup_addresses aliasNetwork plentiful_reliable (fun _ => aliasLabels) rfl (by decide)
    (by decide) (by decide) rfl (by decide) aliasResponse_records emptyInfo

end QyUtil.Dns
