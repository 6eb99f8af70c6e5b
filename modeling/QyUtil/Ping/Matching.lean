import QyUtil.Ping.Pinger

/-! # Matching replies to requests

An attempt is recorded as received for every datagram that is not empty, because
`read_data` returns a positive length also when nothing matches. The runs in which
only replies are recorded are therefore those in which nothing else arrives.
-/

namespace QyUtil.Ping

open Bytes Net

variable {c : Config} {a : Attempt} {s : Pinger} {d : Bytes} {k n : ℕ}

/-- An ICMP echo reply to request `k` of the process, in a well-formed IPv4 packet. -/
structure EchoReply (pid : UInt16) (k : ℕ) (d : Bytes) : Prop where
  wellFormed : WellFormed d
  protocol : d.getD 9 0 = 1
  type : d.getD (ihl d) 0 = 0
  identifier : be16 (d.getD (ihl d + 4) 0) (d.getD (ihl d + 5) 0) = pid.toNat
  sequence : be16 (d.getD (ihl d + 6) 0) (d.getD (ihl d + 7) 0) = k % 65536

/-- The test of `read_data`, which does not look at the protocol and compares
with the whole number of the attempt. -/
structure Matches (pid : UInt16) (k : ℕ) (d : Bytes) : Prop where
  wellFormed : WellFormed d
  type : d.getD (ihl d) 0 = 0
  identifier : be16 (d.getD (ihl d + 4) 0) (d.getD (ihl d + 5) 0) = pid.toNat
  sequence : be16 (d.getD (ihl d + 6) 0) (d.getD (ihl d + 7) 0) = k

def totalLength (d : Bytes) : ℕ := be16 (d.getD 2 0) (d.getD 3 0)

/-- The attempt sends its request and reads a datagram. -/
def Reads (c : Config) (a : Attempt) (d : Bytes) : Prop :=
  (inetPton c.host).isSome ∧ 0 < a.sendto ∧ a.datagram = some d

theorem icmp_get {h : Ipv4Header} {m : IcmpHeader} (hw : WellFormed d)
    (hb : (readHeaders h m d).2.1.rep.bytes = (d.drop (ihl d)).take 8) (i : Fin 8) :
    (readHeaders h m d).2.1.rep.get i = d.getD (ihl d + i) 0 := by
  have hlen := hw.length
  have ht : (readHeaders h m d).2.1.rep.bytes.take 8 = (d.drop (ihl d)).take 8 := by
    rw [hb, List.take_take, min_self]
  rw [Rep.get_eq_getD ht i.isLt]
  simp [List.getD_eq_getElem?_getD, List.getElem?_drop]

/-- The match condition of `read_data`. -/
def Recognises (c : Config) (s : Pinger) (d : Bytes) : Prop :=
  let r := readHeaders s.recvIpv4Hdr s.recvIcmpHdr d
  r.2.2.good ∧ r.2.1.type = IcmpHeader.echoReply ∧ r.2.1.identifier = c.pid.toNat ∧
    r.2.1.sequenceNumber = s.sequenceNumber

/-- The headers of earlier datagrams have no part in the match condition. -/
theorem recognises_iff : Recognises c s d ↔ Matches c.pid s.sequenceNumber d := by
  unfold Recognises
  rcases readHeaders_cases s.recvIpv4Hdr s.recvIcmpHdr d with ⟨hn, hf⟩ | ⟨hw, hg, -, hb⟩
  · simp only [hf, Bool.false_eq_true, false_and, false_iff]
    exact fun h => hn h.wellFormed
  · simp only [IcmpHeader.type, IcmpHeader.identifier, IcmpHeader.sequenceNumber, Rep.decode,
      icmp_get hw hb, hg, true_and]
    exact ⟨fun h => ⟨hw, h.1, h.2.1, h.2.2⟩, fun h => ⟨h.type, h.identifier, h.sequence⟩⟩

theorem totalLength_eq {h : Ipv4Header} {m : IcmpHeader} (hw : WellFormed d) :
    (readHeaders h m d).1.totalLength = totalLength d := by
  have h20 := hw.header
  rcases readHeaders_cases h m d with ⟨hn, -⟩ | ⟨-, -, ht, -⟩
  · exact absurd hw hn
  · rw [Ipv4Header.totalLength, Rep.decode, Rep.get_eq_getD ht (lt_of_lt_of_le (by decide) h20),
      Rep.get_eq_getD ht (lt_of_lt_of_le (by decide) h20)]
    rfl

theorem readData_eq (ha : a.datagram = some d) :
    (Matches c.pid s.sequenceNumber d ∧ (readData c a s).1 = totalLength d) ∨
    ¬ Matches c.pid s.sequenceNumber d ∧ (readData c a s).1 = d.length := by
  rw [← recognises_iff]
  simp only [readData, ha]
  split
  · rename_i hm
    have hm : Recognises c s d := hm
    exact .inl ⟨hm, congrArg Nat.cast (totalLength_eq (recognises_iff.mp hm).wellFormed)⟩
  · rename_i hm
    exact .inr ⟨hm, rfl⟩

theorem sendData_pos : 0 < (sendData c a s).1 ↔ (inetPton c.host).isSome ∧ 0 < a.sendto := by
  simp only [sendData]
  cases inetPton c.host <;> simp

theorem sendData_frame : (sendData c a s).2.sequenceNumber = s.sequenceNumber + 1 ∧
    (sendData c a s).2.result = s.result := by
  simp only [sendData]
  cases inetPton c.host <;> simp

theorem readData_frame : (readData c a s).2.sequenceNumber = s.sequenceNumber ∧
    (readData c a s).2.result = s.result := by
  simp only [readData]
  cases a.datagram with
  | none => exact ⟨rfl, rfl⟩
  | some d =>
    dsimp only
    split <;> exact ⟨rfl, rfl⟩

/-- The datagram is taken for a reply to request `k`. -/
def Taken (pid : UInt16) (k : ℕ) (d : Bytes) : Prop :=
  d ≠ [] ∧ ¬ (Matches pid k d ∧ totalLength d = 0)

theorem readData_pos (ha : a.datagram = some d) :
    0 < (readData c a s).1 ↔ Taken c.pid s.sequenceNumber d := by
  rcases readData_eq (c := c) (s := s) ha with ⟨hm, hr⟩ | ⟨hm, hr⟩
  · have hne : d ≠ [] := by
      rintro rfl
      have := hm.wellFormed.length
      simp at this
    rw [hr, Nat.cast_pos, Nat.pos_iff_ne_zero, Taken]
    exact ⟨fun h => ⟨hne, fun hz => h hz.2⟩, fun h hz => h.2 ⟨hm, hz⟩⟩
  · rw [hr, Nat.cast_pos, List.length_pos_iff, Taken]
    exact ⟨fun h => ⟨h, fun hz => hm hz.1⟩, fun h => h.1⟩

theorem attempt_result (c : Config) (a : Attempt) (s : Pinger) :
    (attempt c a s).sequenceNumber = s.sequenceNumber + 1 ∧
    ∃ st, (attempt c a s).result = s.result ++ [st] ∧
      (st.brecv = true ↔ ∃ d, Reads c a d ∧ Taken c.pid (s.sequenceNumber + 1) d) := by
  obtain ⟨hseq, hres⟩ := sendData_frame (c := c) (a := a) (s := s)
  obtain ⟨hseq', hres'⟩ := readData_frame (c := c) (a := a) (s := (sendData c a s).2)
  simp only [attempt]
  split
  · rename_i hsend
    have hok := sendData_pos.mp hsend
    split
    · rename_i hread
      refine ⟨by rw [← hseq, ← hseq']; rfl, ⟨a.duration, true, true⟩, ?_, ?_⟩
      · rw [← hres, ← hres']
        rfl
      · cases hd : a.datagram with
        | none => simp [readData, hd] at hread
        | some d =>
          rw [readData_pos hd, hseq] at hread
          exact ⟨fun _ => ⟨d, ⟨hok.1, hok.2, hd⟩, hread⟩, fun _ => rfl⟩
    · rename_i hread
      refine ⟨by rw [← hseq, ← hseq']; rfl, ⟨0, false, false⟩, ?_, ?_⟩
      · rw [← hres, ← hres']
        rfl
      · refine ⟨fun h => absurd h (by decide), ?_⟩
        rintro ⟨d, ⟨-, -, hd⟩, ht⟩
        rw [readData_pos hd, hseq] at hread
        exact absurd ht hread
  · rename_i hsend
    refine ⟨by rw [← hseq]; rfl, ⟨0, false, false⟩, by rw [← hres]; rfl, ?_⟩
    refine ⟨fun h => absurd h (by decide), ?_⟩
    rintro ⟨d, ⟨hp, hs, -⟩, -⟩
    exact absurd (sendData_pos.mpr ⟨hp, hs⟩) hsend

theorem attempts_result (c : Config) (env : ℕ → Attempt) (n : ℕ) :
    (attempts c env n).sequenceNumber = n ∧ (attempts c env n).result.length = n ∧
    ∀ k st, (attempts c env n).result[k]? = some st →
      (st.brecv = true ↔ ∃ d, Reads c (env k) d ∧ Taken c.pid (k + 1) d) := by
  induction n with
  | zero => exact ⟨rfl, rfl, fun k st h => by simp [attempts, Pinger.new] at h⟩
  | succ n ih =>
    obtain ⟨hseq, hlen, hall⟩ := ih
    obtain ⟨hseq', st', hres, hiff⟩ := attempt_result c (env n) (attempts c env n)
    refine ⟨by rw [attempts, hseq', hseq], by rw [attempts, hres]; simp [hlen], ?_⟩
    intro k st hk
    rw [attempts, hres, List.getElem?_append] at hk
    split at hk
    · exact hall k st hk
    · rename_i hn
      rw [hlen] at hk hn
      obtain rfl : k = n := by
        by_contra hne
        rw [List.getElem?_eq_none (by simp; omega)] at hk
        cases hk
      rw [hseq] at hiff
      simp only [Nat.sub_self, List.getElem?_cons_zero, Option.some.injEq] at hk
      exact hk ▸ hiff

/-- Every attempt recorded as received has read a reply to its own request. -/
def OnlyReplies (c : Config) (socket : ℤ) (env : ℕ → Attempt) : Prop :=
  ∀ k st, (start c socket env).result[k]? = some st → st.brecv = true →
    ∃ d, (env k).datagram = some d ∧ EchoReply c.pid (k + 1) d

/-- Exactly the runs in which each request that is sent and followed by a datagram
gets a reply to it, an empty datagram, or a match of which the length field is zero. -/
theorem onlyReplies_iff (c : Config) (socket : ℤ) (env : ℕ → Attempt) :
    OnlyReplies c socket env ↔
      (socket ≠ 0 → ∀ k < effectiveTimes c.times, ∀ d, Reads c (env k) d →
        EchoReply c.pid (k + 1) d ∨ d = [] ∨ Matches c.pid (k + 1) d ∧ totalLength d = 0) := by
  by_cases hs : socket = 0
  · simp [OnlyReplies, start, hs, Pinger.new]
  · obtain ⟨-, hlen, hall⟩ := attempts_result c env (effectiveTimes c.times)
    simp only [OnlyReplies, start, if_neg hs]
    constructor
    · intro honly _ k hk d hd
      by_contra hno
      push Not at hno
      obtain ⟨hne, hnil, hz⟩ := hno
      obtain ⟨st, hst⟩ : ∃ st, (attempts c env (effectiveTimes c.times)).result[k]? = some st :=
        ⟨_, List.getElem?_eq_getElem (by omega)⟩
      have hrec := (hall k st hst).mpr ⟨d, hd, hnil, fun hm => hz hm.1 hm.2⟩
      obtain ⟨d', hd', hreply⟩ := honly k st hst hrec
      obtain rfl : d = d' := Option.some.inj (hd.2.2.symm.trans hd')
      exact hne hreply
    · intro hcond k st hst hrec
      have hk : k < effectiveTimes c.times := by
        by_contra hge
        rw [List.getElem?_eq_none (by omega)] at hst
        cases hst
      obtain ⟨d, hd, hnil, hz⟩ := (hall k st hst).mp hrec
      rcases hcond (by simpa using hs) k hk d hd with hr | he | hm
      · exact ⟨d, hd.2.2, hr⟩
      · exact absurd he hnil
      · exact absurd hm hz

def firstReply : Bytes :=
  [69, 0, 0, 28, 0, 0, 0, 0, 64, 1, 0, 0, 10, 0, 0, 1, 10, 0, 0, 2, 0, 0, 0, 0, 0, 7, 0, 1]

/-- The reply to the first request arrives twice, and the second copy is taken for
a reply to the second request. -/
theorem late_reply_received :
    ¬ OnlyReplies ⟨ascii "10.0.0.1", 2, 0, 7⟩ 3 (fun _ => ⟨8, some firstReply, 1⟩) := by
  intro h
  have hstart : ∃ st, (start ⟨ascii "10.0.0.1", 2, 0, 7⟩ 3
      (fun _ => ⟨8, some firstReply, 1⟩)).result[1]? = some st ∧ st.brecv = true :=
    ⟨⟨1, true, true⟩, by decide, rfl⟩
  obtain ⟨st, hst, hrec⟩ := hstart
  obtain ⟨d, hd, hreply⟩ := h 1 st hst hrec
  obtain rfl : firstReply = d := Option.some.inj hd
  exact absurd hreply.sequence (by decide)

end QyUtil.Ping
