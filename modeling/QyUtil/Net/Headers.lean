import QyUtil.Bytes.Basic

/-! # Packet headers

`ipv4_header` and `icmp_header` keep the bytes of a header in an array and read
them from an `istream`. A packet is accepted exactly when it has version 4, at
least the length its first byte announces and eight bytes more, and the arrays
then hold the bytes of the packet, whatever they held before.
-/

namespace QyUtil.Net

open Bytes

/-- What is left in an `istream` over a `stringbuf`, and that no failure bit is set. -/
structure IStream where
  rest : Bytes
  good : Bool
  deriving DecidableEq, Repr

def IStream.fail (is : IStream) : IStream := { is with good := false }

/-- `istream::read`. A stream that is too short fails, and a failed stream is not read. -/
def IStream.read (is : IStream) (k : ℕ) : Bytes × IStream :=
  if is.good then (is.rest.take k, ⟨is.rest.drop k, k ≤ is.rest.length⟩) else ([], is)

theorem IStream.length_read (is : IStream) (k : ℕ) : (is.read k).1.length ≤ k := by
  unfold IStream.read
  split
  · exact List.length_take_le _ _
  · exact Nat.zero_le _

theorem IStream.read_fail {is : IStream} (h : is.good = false) (k : ℕ) : is.read k = ([], is) := by
  simp [IStream.read, h]

structure Rep (n : ℕ) where
  bytes : Bytes
  size : bytes.length = n

namespace Rep

variable {n o k : ℕ} {d : Bytes} {r : Rep n} {is : IStream}

def zero (n : ℕ) : Rep n := ⟨List.replicate n 0, List.length_replicate⟩

def get (r : Rep n) (i : Fin n) : UInt8 := r.bytes.get (i.cast r.size.symm)

def set (r : Rep n) (i : Fin n) (b : UInt8) : Rep n :=
  ⟨r.bytes.set i b, by rw [List.length_set, r.size]⟩

def store (r : Rep n) (off : ℕ) (bs : Bytes) (h : off + bs.length ≤ n) : Rep n :=
  ⟨writeAt r.bytes off bs, by rw [length_writeAt (by rwa [r.size]), r.size]⟩

def decode (r : Rep n) (a b : Fin n) : ℕ := be16 (r.get a) (r.get b)

def encode (r : Rep n) (a b : Fin n) (v : UInt16) : Rep n :=
  (r.set a (v >>> 8).toUInt8).set b (v &&& 0xFF).toUInt8

/-- `is.read(rep_ + off, k)`. The stored bytes are inside the array. -/
def readFrom (r : Rep n) (off k : ℕ) (h : off + k ≤ n) (is : IStream) : Rep n × IStream :=
  (r.store off (is.read k).1 (by have := is.length_read k; omega), (is.read k).2)

theorem readFrom_fail {h : o + k ≤ n} (hf : is.good = false) :
    (r.readFrom o k h is).2.good = false := by
  simp [readFrom, IStream.read_fail hf, hf]

theorem readFrom_short {h : o + k ≤ n} (hd : d.length < k) :
    (r.readFrom o k h ⟨d, true⟩).2.good = false := by
  simpa [readFrom, IStream.read] using hd

theorem readFrom_done {h : o + k ≤ n} (hd : k ≤ d.length) :
    (r.readFrom o k h ⟨d, true⟩).2 = ⟨d.drop k, true⟩ := by
  simpa [readFrom, IStream.read] using hd

theorem readFrom_take {h : o + k ≤ n} (hd : o + k ≤ d.length)
    (hr : r.bytes.take o = d.take o) :
    (r.readFrom o k h ⟨d.drop o, true⟩).1.bytes.take (o + k) = d.take (o + k) := by
  have hk : ((d.drop o).take k).length = k := by
    rw [List.length_take, List.length_drop]
    omega
  have hlen : (r.bytes.take o ++ (d.drop o).take k).length = o + k := by
    rw [List.length_append, hk, List.length_take, r.size]
    omega
  have hread : (r.readFrom o k h ⟨d.drop o, true⟩).1.bytes =
      r.bytes.take o ++ (d.drop o).take k ++ r.bytes.drop (o + k) := by
    simp only [readFrom, store, IStream.read, if_true, writeAt, hk]
  rw [hread, ← hlen, List.take_left, hlen, hr, List.take_add]

theorem readFrom_start {h : 0 + k ≤ n} (hd : k ≤ d.length) :
    (r.readFrom 0 k h ⟨d, true⟩).1.bytes.take k = d.take k := by
  simpa using readFrom_take (r := r) (d := d) (h := h) (by simpa using hd) rfl

theorem get_eq_getD {i : Fin n} {m : ℕ} (h : r.bytes.take m = d.take m) (hi : i.val < m) :
    r.get i = d.getD i 0 := by
  have hb : r.get i = r.bytes.getD i 0 := by
    rw [get, List.getD_eq_getElem _ _ (by rw [r.size]; exact i.isLt)]
    rfl
  have hg := congrArg (fun l : Bytes => l.getD i 0) h
  simpa [hb, List.getD_eq_getElem?_getD, List.getElem?_take, hi] using hg

theorem be16_halves (v : UInt16) : be16 (v >>> 8).toUInt8 (v &&& 0xFF).toUInt8 = v.toNat := by
  have hv := v.toNat_lt
  have hlo : (v &&& 0xFF).toNat = v.toNat % 256 := by
    rw [UInt16.toNat_and]
    show v.toNat &&& 2 ^ 8 - 1 = _
    rw [Nat.and_two_pow_sub_one_eq_mod]
  have hhi : (v >>> 8).toNat = v.toNat / 256 := by
    rw [UInt16.toNat_shiftRight]
    show v.toNat >>> 8 = _
    rw [Nat.shiftRight_eq_div_pow]
  rw [be16, UInt16.toNat_toUInt8, UInt16.toNat_toUInt8, hlo, hhi]
  omega

end Rep

structure Ipv4Header where
  rep : Rep 60

namespace Ipv4Header

def new : Ipv4Header := ⟨.zero 60⟩

def version (h : Ipv4Header) : UInt8 := (h.rep.get 0 >>> 4) &&& 0xF

def headerLength (h : Ipv4Header) : ℕ := (h.rep.get 0 &&& 0xF).toNat * 4

def typeOfService (h : Ipv4Header) : UInt8 := h.rep.get 1

def totalLength (h : Ipv4Header) : ℕ := h.rep.decode 2 3

def identification (h : Ipv4Header) : ℕ := h.rep.decode 4 5

def dontFragment (h : Ipv4Header) : Bool := (h.rep.get 6 &&& 0x40) != 0

def moreFragments (h : Ipv4Header) : Bool := (h.rep.get 6 &&& 0x20) != 0

def fragmentOffset (h : Ipv4Header) : ℕ := h.rep.decode 6 7 &&& 0x1FFF

def timeToLive (h : Ipv4Header) : ℕ := (h.rep.get 8).toNat

def protocol (h : Ipv4Header) : UInt8 := h.rep.get 9

def headerChecksum (h : Ipv4Header) : ℕ := h.rep.decode 10 11

/-- The four bytes of the address as an `int` of a little-endian machine. -/
def sourceAddress (h : Ipv4Header) : ℤ :=
  ((h.rep.get 15).toBitVec ++ (h.rep.get 14).toBitVec ++ (h.rep.get 13).toBitVec ++
    (h.rep.get 12).toBitVec).toInt

theorem headerLength_le (h : Ipv4Header) : h.headerLength ≤ 60 := by
  have hb : h.rep.get 0 &&& 0xF ≤ 0xF := UInt8.and_le_right
  have := UInt8.le_iff_toNat_le.mp hb
  simp only [headerLength]
  have h15 : (0xF : UInt8).toNat = 15 := rfl
  omega

/-- The options that `operator>>` reads behind the first 20 bytes. -/
def readOptions (h : Ipv4Header) (is : IStream) : Ipv4Header × IStream :=
  let optionsLength : ℤ := h.headerLength - 20
  if hopt : optionsLength < 0 ∨ 40 < optionsLength then (h, is.fail)
  else
    let r := h.rep.readFrom 20 optionsLength.toNat (by omega) is
    (⟨r.1⟩, r.2)

def extract (h : Ipv4Header) (is : IStream) : Ipv4Header × IStream :=
  let r := h.rep.readFrom 0 20 (by decide) is
  let h : Ipv4Header := ⟨r.1⟩
  h.readOptions (if h.version ≠ 4 then r.2.fail else r.2)

end Ipv4Header

structure IcmpHeader where
  rep : Rep 8

namespace IcmpHeader

def echoReply : UInt8 := 0

def echoRequest : UInt8 := 8

def new : IcmpHeader := ⟨.zero 8⟩

def type (h : IcmpHeader) : UInt8 := h.rep.get 0

def code (h : IcmpHeader) : UInt8 := h.rep.get 1

def checksum (h : IcmpHeader) : ℕ := h.rep.decode 2 3

def identifier (h : IcmpHeader) : ℕ := h.rep.decode 4 5

def sequenceNumber (h : IcmpHeader) : ℕ := h.rep.decode 6 7

def setType (h : IcmpHeader) (n : UInt8) : IcmpHeader := ⟨h.rep.set 0 n⟩

def setCode (h : IcmpHeader) (n : UInt8) : IcmpHeader := ⟨h.rep.set 1 n⟩

def setChecksum (h : IcmpHeader) (n : UInt16) : IcmpHeader := ⟨h.rep.encode 2 3 n⟩

def setIdentifier (h : IcmpHeader) (n : UInt16) : IcmpHeader := ⟨h.rep.encode 4 5 n⟩

def setSequenceNumber (h : IcmpHeader) (n : UInt16) : IcmpHeader := ⟨h.rep.encode 6 7 n⟩

def extract (h : IcmpHeader) (is : IStream) : IcmpHeader × IStream :=
  let r := h.rep.readFrom 0 8 (by decide) is
  (⟨r.1⟩, r.2)

theorem exists_bytes (h : IcmpHeader) :
    ∃ b0 b1 b2 b3 b4 b5 b6 b7, h = ⟨⟨[b0, b1, b2, b3, b4, b5, b6, b7], rfl⟩⟩ := by
  obtain ⟨bytes, hsize⟩ := h
  match bytes, hsize with
  | [b0, b1, b2, b3, b4, b5, b6, b7], _ => exact ⟨b0, b1, b2, b3, b4, b5, b6, b7, rfl⟩

@[simp] theorem identifier_setIdentifier (h : IcmpHeader) (n : UInt16) :
    (h.setIdentifier n).identifier = n.toNat := by
  obtain ⟨_, _, _, _, _, _, _, _, rfl⟩ := h.exists_bytes
  exact Rep.be16_halves n

@[simp] theorem sequenceNumber_setSequenceNumber (h : IcmpHeader) (n : UInt16) :
    (h.setSequenceNumber n).sequenceNumber = n.toNat := by
  obtain ⟨_, _, _, _, _, _, _, _, rfl⟩ := h.exists_bytes
  exact Rep.be16_halves n

@[simp] theorem identifier_setSequenceNumber (h : IcmpHeader) (n : UInt16) :
    (h.setSequenceNumber n).identifier = h.identifier := by
  obtain ⟨_, _, _, _, _, _, _, _, rfl⟩ := h.exists_bytes
  rfl

@[simp] theorem identifier_setChecksum (h : IcmpHeader) (n : UInt16) :
    (h.setChecksum n).identifier = h.identifier := by
  obtain ⟨_, _, _, _, _, _, _, _, rfl⟩ := h.exists_bytes
  rfl

@[simp] theorem sequenceNumber_setChecksum (h : IcmpHeader) (n : UInt16) :
    (h.setChecksum n).sequenceNumber = h.sequenceNumber := by
  obtain ⟨_, _, _, _, _, _, _, _, rfl⟩ := h.exists_bytes
  rfl

end IcmpHeader

def ihl (d : Bytes) : ℕ := (d.getD 0 0).toNat % 16 * 4

/-- An IPv4 header, options included, followed by at least an ICMP header. -/
structure WellFormed (d : Bytes) : Prop where
  version : (d.getD 0 0).toNat / 16 = 4
  header : 20 ≤ ihl d
  length : ihl d + 8 ≤ d.length

/-- `stream >> ipv4_hdr >> icmp_hdr` on a stream that holds a packet. -/
def readHeaders (h : Ipv4Header) (c : IcmpHeader) (d : Bytes) :
    Ipv4Header × IcmpHeader × IStream :=
  let r := h.extract ⟨d, true⟩
  let q := c.extract r.2
  (r.1, q.1, q.2)

variable {h : Ipv4Header} {c : IcmpHeader} {d : Bytes} {is : IStream}

theorem shiftRight_four_eq_four (b : UInt8) : (b >>> 4) &&& 0xF = 4 ↔ b.toNat / 16 = 4 := by
  have hb := b.toNat_lt
  have hs : ((b >>> 4) &&& 0xF).toNat = b.toNat / 16 := by
    rw [UInt8.toNat_and, UInt8.toNat_shiftRight]
    show b.toNat >>> 4 &&& 2 ^ 4 - 1 = _
    rw [Nat.and_two_pow_sub_one_eq_mod, Nat.shiftRight_eq_div_pow]
    omega
  rw [← UInt8.toNat_inj, hs]
  rfl

theorem and_fifteen (b : UInt8) : (b &&& 0xF).toNat = b.toNat % 16 := by
  rw [UInt8.toNat_and]
  show b.toNat &&& 2 ^ 4 - 1 = _
  rw [Nat.and_two_pow_sub_one_eq_mod]

theorem Ipv4Header.readOptions_fail (hf : is.good = false) :
    (h.readOptions is).2.good = false := by
  unfold readOptions
  dsimp only
  split
  · rfl
  · rw [Rep.readFrom_fail hf]

theorem Ipv4Header.headerLength_eq (hr : h.rep.bytes.take 20 = d.take 20) :
    h.headerLength = ihl d := by
  rw [headerLength, Rep.get_eq_getD hr (by decide), and_fifteen]
  rfl

theorem Ipv4Header.version_eq_four (hr : h.rep.bytes.take 20 = d.take 20) :
    h.version = 4 ↔ (d.getD 0 0).toNat / 16 = 4 := by
  rw [version, Rep.get_eq_getD hr (by decide)]
  exact shiftRight_four_eq_four _

theorem Ipv4Header.readOptions_cases (hr : h.rep.bytes.take 20 = d.take 20)
    (hd : 20 ≤ d.length) :
    (¬ (20 ≤ ihl d ∧ ihl d ≤ d.length) ∧ (h.readOptions ⟨d.drop 20, true⟩).2.good = false) ∨
    20 ≤ ihl d ∧ ihl d ≤ d.length ∧ (h.readOptions ⟨d.drop 20, true⟩).2 = ⟨d.drop (ihl d), true⟩ ∧
      (h.readOptions ⟨d.drop 20, true⟩).1.rep.bytes.take (ihl d) = d.take (ihl d) := by
  have hl := headerLength_eq hr
  have hle := h.headerLength_le
  unfold readOptions
  dsimp only
  split
  · left
    refine ⟨?_, rfl⟩
    omega
  · have hk : ((h.headerLength : ℤ) - 20).toNat = ihl d - 20 := by omega
    by_cases hshort : (d.drop 20).length < ((h.headerLength : ℤ) - 20).toNat
    · left
      refine ⟨?_, by rw [Rep.readFrom_short hshort]⟩
      rw [List.length_drop] at hshort
      omega
    · right
      have hdone := not_lt.mp hshort
      rw [List.length_drop] at hshort
      have hsum : 20 + ((h.headerLength : ℤ) - 20).toNat = ihl d := by omega
      refine ⟨by omega, by omega, ?_, ?_⟩
      · rw [Rep.readFrom_done hdone, List.drop_drop, hsum]
      · rw [← hsum]
        exact Rep.readFrom_take (h := by omega) (by omega) hr

theorem Ipv4Header.extract_cases (h : Ipv4Header) (d : Bytes) :
    (¬ ((d.getD 0 0).toNat / 16 = 4 ∧ 20 ≤ ihl d ∧ ihl d ≤ d.length) ∧
      (h.extract ⟨d, true⟩).2.good = false) ∨
    ((d.getD 0 0).toNat / 16 = 4 ∧ 20 ≤ ihl d ∧ ihl d ≤ d.length) ∧
      (h.extract ⟨d, true⟩).2 = ⟨d.drop (ihl d), true⟩ ∧
      (h.extract ⟨d, true⟩).1.rep.bytes.take (ihl d) = d.take (ihl d) := by
  by_cases hd : 20 ≤ d.length
  · have hr : (h.rep.readFrom 0 20 (by decide) ⟨d, true⟩).1.bytes.take 20 = d.take 20 :=
      Rep.readFrom_start hd
    have hs : (h.rep.readFrom 0 20 (by decide) ⟨d, true⟩).2 = ⟨d.drop 20, true⟩ :=
      Rep.readFrom_done hd
    have hv := version_eq_four (h := ⟨_⟩) hr
    unfold extract
    dsimp only
    split
    · exact .inl ⟨fun hn => ‹¬ _› (hv.mpr hn.1), readOptions_fail rfl⟩
    · rw [hs]
      have h4 := hv.mp (not_not.mp ‹_›)
      rcases readOptions_cases (h := ⟨_⟩) hr hd with ⟨hn, hf⟩ | ⟨h20, hlen, his, ht⟩
      · exact .inl ⟨fun ho => hn ho.2, hf⟩
      · exact .inr ⟨⟨h4, h20, hlen⟩, his, ht⟩
  · left
    refine ⟨by omega, readOptions_fail ?_⟩
    have hs : (h.rep.readFrom 0 20 (by decide) ⟨d, true⟩).2.good = false :=
      Rep.readFrom_short (not_le.mp hd)
    split
    · rfl
    · exact hs

/-- The stream is good after both headers exactly when the packet is well formed. -/
theorem readHeaders_cases (h : Ipv4Header) (c : IcmpHeader) (d : Bytes) :
    (¬ WellFormed d ∧ (readHeaders h c d).2.2.good = false) ∨
    WellFormed d ∧ (readHeaders h c d).2.2.good = true ∧
      (readHeaders h c d).1.rep.bytes.take (ihl d) = d.take (ihl d) ∧
      (readHeaders h c d).2.1.rep.bytes = (d.drop (ihl d)).take 8 := by
  unfold readHeaders IcmpHeader.extract
  dsimp only
  rcases h.extract_cases d with ⟨hn, hf⟩ | ⟨⟨hv, h20, hlen⟩, his, ht⟩
  · refine .inl ⟨fun hw => hn ⟨hw.version, hw.header, ?_⟩, Rep.readFrom_fail hf⟩
    have := hw.length
    omega
  · rw [his]
    have hsize := Rep.size (c.rep.readFrom 0 8 (by decide) ⟨d.drop (ihl d), true⟩).1
    by_cases h8 : (d.drop (ihl d)).length < 8
    · refine .inl ⟨fun hw => ?_, Rep.readFrom_short h8⟩
      have := hw.length
      rw [List.length_drop] at h8
      omega
    · have hd : ihl d + 8 ≤ d.length := by
        rw [List.length_drop] at h8
        omega
      have hb : (c.rep.readFrom 0 8 (by decide) ⟨d.drop (ihl d), true⟩).1.bytes.take 8 =
          (d.drop (ihl d)).take 8 := Rep.readFrom_start (not_lt.mp h8)
      refine .inr ⟨⟨hv, h20, hd⟩, ?_, ht, ?_⟩
      · rw [Rep.readFrom_done (not_lt.mp h8)]
      · rwa [List.take_of_length_le hsize.le] at hb

end QyUtil.Net
