import QyUtil.Net.Grammar
import QyUtil.Ping.Requests
import QyUtil.Ping.Times

/-! # An answering host

The other end of a ping: a host that answers each echo request with a verifying checksum
by an echo reply, as RFC 792 says. When every request of a run is answered before the next
one is sent, nothing is lost, the times are those of the attempts, and each line of the log
shows the reply to its own request.
-/

namespace QyUtil.Ping

open Bytes Net

variable {c : Config} {a : Attempt} {s : Pinger} {env : ℕ → Attempt} {d m : Bytes} {n : ℕ}

/-- How a host writes the IPv4 header, with options or without, in front of `n` bytes. -/
structure IpSender where
  header : ℕ → Bytes
  version : ∀ n, ((header n).getD 0 0).toNat / 16 = 4
  ihl_eq : ∀ n, ihl (header n) = (header n).length
  min_length : ∀ n, 20 ≤ (header n).length
  protocol : ∀ n, (header n).getD 9 0 = 1
  totalLength_eq : ∀ n ≤ sendLen, totalLength (header n) = (header n).length + n

def internetChecksum (m : Bytes) : UInt16 :=
  UInt16.ofNat (65535 - Checksum.sum 65536 (words (pad m)))

/-- The message with another type, and with the checksum that goes with it. -/
def echoReply (m : Bytes) : Bytes :=
  let sum := internetChecksum (IcmpHeader.echoReply :: m.getD 1 0 :: 0 :: 0 :: m.drop 4)
  IcmpHeader.echoReply :: m.getD 1 0 :: (sum >>> 8).toUInt8 :: (sum &&& 0xFF).toUInt8 :: m.drop 4

/-- What the host sends back for an ICMP message. -/
def IpSender.answer (host : IpSender) (m : Bytes) : Option Bytes :=
  if 8 ≤ m.length ∧ m.getD 0 0 = IcmpHeader.echoRequest ∧
      Checksum.sum 65536 (words (pad m)) = 0xFFFF then
    some (host.header m.length ++ echoReply m)
  else none

def message (c : Config) (s : Pinger) : Bytes := (packet c s).1.take (packet c s).2

/-- The first `n` attempts send their requests, and each reads the answer of the host. -/
def Echoed (host : IpSender) (c : Config) (env : ℕ → Attempt) (n : ℕ) : Prop :=
  ∀ i < n, 0 < (env i).sendto ∧ (env i).recvfrom = host.answer (message c (attempts c env i))

def shownLine (d : Bytes) (duration : ℕ) : Bytes :=
  let ipv4 := ipv4Fields (d.take (ihl d))
  let icmp := icmpFields ((d.drop (ihl d)).take 8)
  decimal ipv4.headerLength ++ ascii " bytes from " ++ intText ipv4.sourceAddress ++
    ascii ": icmp_seq=" ++ decimal icmp.sequenceNumber ++ ascii ", ttl=" ++
    decimal ipv4.timeToLive ++ ascii ", time=" ++ decimal duration ++ ascii "ms"

theorem message_eq (hsize : c.packageSize ≤ 1016) (s : Pinger) :
    message c s = write (request c s) ++ List.replicate c.packageSize 0 :=
  fillSendBuf_take _ (Nat.add_le_add_left hsize 8)

theorem length_message (hsize : c.packageSize ≤ 1016) (s : Pinger) :
    (message c s).length = 8 + c.packageSize := by
  rw [message_eq hsize, List.length_append, List.length_replicate, write, Rep.size]

theorem answer_message (host : IpSender) (hsize : c.packageSize ≤ 1016) (s : Pinger) :
    host.answer (message c s) =
      some (host.header (8 + c.packageSize) ++ echoReply (message c s)) := by
  have hlen := length_message hsize s
  have htype : (message c s).getD 0 0 = IcmpHeader.echoRequest := by
    rw [message_eq hsize]
    rfl
  rw [IpSender.answer, if_pos ⟨by omega, htype, packet_verifies (Nat.add_le_add_left hsize 8) s⟩,
    hlen]

theorem ihl_append (host : IpSender) (n : ℕ) (l : Bytes) :
    ihl (host.header n ++ l) = (host.header n).length := by
  have hmin := host.min_length n
  rw [← host.ihl_eq n, ihl, ihl, List.getD_append _ _ _ _ (by omega)]

theorem length_echoReply (h : 8 ≤ m.length) : (echoReply m).length = m.length := by
  simp only [echoReply, List.length_cons, List.length_drop]
  omega

def reply (host : IpSender) (c : Config) (s : Pinger) : Bytes :=
  host.header (8 + c.packageSize) ++ echoReply (message c s)

theorem ihl_reply (host : IpSender) (c : Config) (s : Pinger) :
    ihl (reply host c s) = (host.header (8 + c.packageSize)).length := ihl_append host _ _

theorem length_reply (host : IpSender) (hsize : c.packageSize ≤ 1016) (s : Pinger) :
    (reply host c s).length = ihl (reply host c s) + (8 + c.packageSize) := by
  have hlen := length_message hsize s
  rw [ihl_reply, reply, List.length_append, length_echoReply (by omega), hlen]

theorem reply_wellFormed (host : IpSender) (hsize : c.packageSize ≤ 1016) (s : Pinger) :
    WellFormed (reply host c s) := by
  have hmin := host.min_length (8 + c.packageSize)
  have hlen := length_reply host hsize s
  constructor
  · rw [reply, List.getD_append _ _ _ _ (by omega)]
    exact host.version _
  · rw [ihl_reply]
    exact hmin
  · omega

theorem reply_taken (host : IpSender) (hsize : c.packageSize ≤ 1016) (s : Pinger) (k : ℕ) :
    Taken c.pid k (reply host c s) := by
  have hmin := host.min_length (8 + c.packageSize)
  have htotal : totalLength (reply host c s) =
      (host.header (8 + c.packageSize)).length + (8 + c.packageSize) := by
    rw [← host.totalLength_eq _ (Nat.add_le_add_left hsize 8), totalLength, totalLength, reply,
      List.getD_append _ _ _ _ (by omega), List.getD_append _ _ _ _ (by omega)]
  refine ⟨List.ne_nil_of_length_pos ?_, fun h => ?_⟩
  · rw [length_reply host hsize]
    omega
  · have := h.2
    omega

theorem sendData_info (c : Config) (a : Attempt) (s : Pinger) :
    (sendData c a s).2.info = s.info := by
  simp only [sendData]
  cases inetPton c.host <;> rfl

theorem readData_headers (ha : a.datagram = some d) :
    (readData c a s).2.info = s.info ∧
      (readData c a s).2.recvIpv4Hdr = (readHeaders s.recvIpv4Hdr s.recvIcmpHdr d).1 ∧
      (readData c a s).2.recvIcmpHdr = (readHeaders s.recvIpv4Hdr s.recvIcmpHdr d).2.1 := by
  simp only [readData, ha]
  split <;> exact ⟨rfl, rfl, rfl⟩

theorem replyLine_shown (ha : a.datagram = some d) (hw : WellFormed d) (duration : ℕ) :
    replyLine (readData c a s).2 duration = shownLine d duration := by
  obtain ⟨-, hip, hicmp⟩ := readData_headers (c := c) (s := s) ha
  rcases readHeaders_cases s.recvIpv4Hdr s.recvIcmpHdr d with ⟨hn, -⟩ | ⟨-, -, ht, hb⟩
  · exact absurd hw hn
  · simp only [replyLine, shownLine, hip, hicmp, ← Ipv4Header.fields_eq hw.header ht,
      ← IcmpHeader.fields_eq hb]
    rfl

theorem attempt_taken (hd : Reads c a d) (hw : WellFormed d)
    (ht : Taken c.pid (s.sequenceNumber + 1) d) :
    (attempt c a s).result = s.result ++ [⟨a.duration, true, true⟩] ∧
      (attempt c a s).info = s.info ++ [shownLine d a.duration] := by
  obtain ⟨hhost, hsent, hread⟩ := hd
  obtain ⟨hseq, hres⟩ := sendData_frame (c := c) (a := a) (s := s)
  obtain ⟨-, hres'⟩ := readData_frame (c := c) (a := a) (s := (sendData c a s).2)
  obtain ⟨hinfo, -⟩ := readData_headers (c := c) (s := (sendData c a s).2) hread
  have hline := replyLine_shown (c := c) (s := (sendData c a s).2) hread hw a.duration
  rw [← hseq] at ht
  simp only [attempt, if_pos (sendData_pos.mpr ⟨hhost, hsent⟩),
    if_pos ((readData_pos hread).mpr ht)]
  constructor
  · rw [← hres, ← hres']
    rfl
  · rw [← sendData_info c a s, ← hinfo, ← hline]
    rfl

variable {host : IpSender}

theorem Echoed.reads (h : Echoed host c env n) (hhost : (inetPton c.host).isSome)
    (hsize : c.packageSize ≤ 1016) {i : ℕ} (hi : i < n) :
    Reads c (env i) (reply host c (attempts c env i)) := by
  obtain ⟨hsent, hrecv⟩ := h i hi
  have hlen := length_reply host hsize (attempts c env i)
  have hle : ihl (reply host c (attempts c env i)) ≤ 60 := by
    unfold ihl
    omega
  refine ⟨hhost, hsent, ?_⟩
  rw [Attempt.datagram, hrecv, answer_message host hsize, Option.map_some, ← reply,
    List.take_of_length_le]
  rw [hlen, recvLen]
  omega

theorem Echoed.attempts (h : Echoed host c env n) (hhost : (inetPton c.host).isSome)
    (hsize : c.packageSize ≤ 1016) :
    (attempts c env n).result = (List.range n).map (fun i => ⟨(env i).duration, true, true⟩) ∧
    (Ping.attempts c env n).info = (List.range n).map fun i =>
      shownLine (reply host c (Ping.attempts c env i)) (env i).duration := by
  induction n with
  | zero => exact ⟨rfl, rfl⟩
  | succ n ih =>
    obtain ⟨hres, hinfo⟩ := ih fun i hi => h i (Nat.lt_succ_of_lt hi)
    obtain ⟨hres', hinfo'⟩ := attempt_taken (h.reads hhost hsize n.lt_succ_self)
      (reply_wellFormed host hsize _) (reply_taken host hsize _ _)
    rw [Ping.attempts, hres', hinfo', hres, hinfo, List.range_succ, List.map_append,
      List.map_append]
    exact ⟨rfl, rfl⟩

def durations (c : Config) (env : ℕ → Attempt) : List ℕ :=
  (List.range (effectiveTimes c.times)).map fun i => (env i).duration

variable {interval socket : ℤ}

theorem Echoed.replyTimes (h : Echoed host c env (effectiveTimes c.times))
    (hhost : (inetPton c.host).isSome) (hsize : c.packageSize ≤ 1016) (hs : socket ≠ 0) :
    Ping.replyTimes (start c socket env) = durations c env := by
  rw [Ping.replyTimes, start, if_neg hs, (h.attempts hhost hsize).1, List.filter_eq_self.mpr]
  · rw [List.map_map]
    rfl
  · simp

theorem rttRight_of_all {h : durations c env ≠ []}
    (ht : replyTimes (start c socket env) = durations c env)
    (hsum : (durations c env).sum < 2 ^ 64) (hfast : ∃ t ∈ durations c env, t ≤ startMin interval) :
    RttRight (durations c env) h (pingStatus c interval socket env) := by
  obtain ⟨hmax, hmin, havg⟩ :
      _ ∧ (pingStatus c interval socket env).minrtt = _ ∧ _ := pingStatus_times ht
  have hlen : (durations c env).length = effectiveTimes c.times := by simp [durations]
  have hleast : (durations c env).min h ≤ startMin interval := by
    obtain ⟨t, hmem, hle⟩ := hfast
    exact (List.min_le_of_mem hmem).trans hle
  rw [List.foldl_max_eq_max h, Nat.zero_max] at hmax
  rw [List.foldl_min_eq_min h, min_eq_right hleast] at hmin
  rw [Nat.mod_eq_of_lt hsum, timesOf_eq (by rw [← hlen]; exact List.length_pos_iff.mpr h),
    ← hlen] at havg
  exact ⟨hmin, hmax, havg, by rw [hmin, havg, hmax]; exact mean_between h⟩

theorem Echoed.status (h : Echoed host c env (effectiveTimes c.times))
    (hhost : (inetPton c.host).isSome) (hsize : c.packageSize ≤ 1016) (hs : socket ≠ 0)
    (hpos : 0 < effectiveTimes c.times) (interval : ℤ) :
    (pingStatus c interval socket env).lossRate = 0 ∧
    ((durations c env).sum < 2 ^ 64 → (∃ t ∈ durations c env, t ≤ startMin interval) →
      ∃ hne, RttRight (durations c env) hne (pingStatus c interval socket env)) := by
  have htimes := h.replyTimes hhost hsize hs
  have hlen : (durations c env).length = effectiveTimes c.times := by simp [durations]
  have hne : durations c env ≠ [] := List.length_pos_iff.mp (hlen ▸ hpos)
  refine ⟨?_, fun hsum hfast => ⟨hne, rttRight_of_all htimes hsum hfast⟩⟩
  rw [pingStatus_lossRate, ← length_replyTimes, htimes, hlen, timesOf_eq hpos, sub_self,
    mul_zero, zero_div]

def plainHeader (n : ℕ) : Bytes :=
  [69, 0, UInt8.ofNat ((20 + n) / 256), UInt8.ofNat (20 + n), 0, 0, 0, 0, 64, 1, 0, 0,
    10, 0, 0, 1, 10, 0, 0, 2]

theorem plainHeader_totalLength {n : ℕ} (hn : n ≤ sendLen) :
    totalLength (plainHeader n) = (plainHeader n).length + n := by
  simp only [sendLen] at hn
  simp only [plainHeader, totalLength, be16, List.getD_cons_succ, List.getD_cons_zero,
    UInt8.toNat_ofNat', List.length_cons, List.length_nil]
  omega

def plainSender : IpSender where
  header := plainHeader
  version _ := by simp [plainHeader]
  ihl_eq _ := by simp [plainHeader, ihl]
  min_length _ := by simp [plainHeader]
  protocol _ := by simp [plainHeader]
  totalLength_eq _ := plainHeader_totalLength

def echoing (host : IpSender) (c : Config) (i : ℕ) : Attempt :=
  ⟨8 + c.packageSize, host.answer (message c { Pinger.new with sequenceNumber := i }), 1⟩

end QyUtil.Ping
