import QyUtil.Bytes.Checksum
import QyUtil.Ping.Pinger

/-! # The checksum of requests

`compute_checksum` adds the words of the message in 32 bits, folds the carries
twice and stores the complement. A receiver that adds the words of the message
with end-around carry gets all ones.
-/

namespace QyUtil.Ping

open Bytes Net

variable {header : IcmpHeader} {body : Bytes}

def write (header : IcmpHeader) : Bytes := header.rep.bytes

def accumulated (header : IcmpHeader) (body : Bytes) : UInt32 :=
  sumBody ((header.type.toUInt32 <<< 8) + header.code.toUInt32 +
    UInt32.ofNat header.identifier + UInt32.ofNat header.sequenceNumber) body

def folded (sum : UInt32) : UInt32 :=
  let sum := (sum >>> 16) + (sum &&& 0xFFFF)
  sum + (sum >>> 16)

theorem computeChecksum_eq (header : IcmpHeader) (body : Bytes) :
    computeChecksum header body =
      header.setChecksum (~~~ folded (accumulated header body)).toUInt16 := rfl

/-- The words of the message without the checksum, added up. -/
def total (header : IcmpHeader) (body : Bytes) : ℕ :=
  be16 header.type header.code + header.identifier + header.sequenceNumber +
    (words (pad body)).sum

theorem toNat_shiftLeft_eight (a : UInt8) : (a.toUInt32 <<< 8).toNat = a.toNat * 256 := by
  have ha := a.toNat_lt
  rw [UInt32.toNat_shiftLeft, UInt8.toNat_toUInt32]
  show a.toNat <<< 8 % 2 ^ 32 = _
  rw [Nat.shiftLeft_eq, Nat.mod_eq_of_lt (by omega)]

theorem sumBody_toNat (s : UInt32) (body : Bytes)
    (h : s.toNat + (words (pad body)).sum < 2 ^ 32) :
    (sumBody s body).toNat = s.toNat + (words (pad body)).sum := by
  induction s, body using sumBody.induct with
  | case1 s => simp [sumBody, words]
  | case2 s a =>
    have hw : (words (pad [a])).sum = a.toNat * 256 := by simp [words, be16]
    rw [hw] at h ⊢
    rw [sumBody, UInt32.toNat_add, toNat_shiftLeft_eight, Nat.mod_eq_of_lt h]
  | case3 s a b rest ih =>
    simp only [pad_cons_cons, words_cons_cons, List.sum_cons, be16] at h ⊢
    have hs : (s + (a.toUInt32 <<< 8) + b.toUInt32).toNat = s.toNat + a.toNat * 256 + b.toNat := by
      have hlt : s.toNat + a.toNat * 256 + b.toNat < 2 ^ 32 := by omega
      rw [UInt32.toNat_add, UInt32.toNat_add, toNat_shiftLeft_eight, UInt8.toNat_toUInt32,
        Nat.mod_add_mod, Nat.mod_eq_of_lt hlt]
    rw [sumBody, ih (by omega), hs]
    omega

theorem total_lt (header : IcmpHeader) (hl : body.length ≤ 65535) :
    total header body < 2 ^ 32 := by
  have h0 := be16_lt header.type header.code
  have h1 : header.identifier < 65536 := be16_lt _ _
  have h2 : header.sequenceNumber < 65536 := be16_lt _ _
  have h3 := sum_words_pad_le body
  unfold total
  omega

theorem accumulated_toNat (header : IcmpHeader) (hl : body.length ≤ 65535) :
    (accumulated header body).toNat = total header body := by
  have hlt := total_lt header hl
  have h1 : header.identifier < 65536 := be16_lt _ _
  have h2 : header.sequenceNumber < 65536 := be16_lt _ _
  have ht := header.type.toNat_lt
  have hc := header.code.toNat_lt
  have hs : ((header.type.toUInt32 <<< 8) + header.code.toUInt32 +
      UInt32.ofNat header.identifier + UInt32.ofNat header.sequenceNumber).toNat =
      be16 header.type header.code + header.identifier + header.sequenceNumber := by
    simp only [UInt32.toNat_add, toNat_shiftLeft_eight, UInt8.toNat_toUInt32, UInt32.toNat_ofNat',
      be16]
    omega
  rw [accumulated, sumBody_toNat _ _ (by rw [hs]; exact hlt), hs, total]

theorem folded_toNat (sum : UInt32) :
    (folded sum).toUInt16.toNat = Checksum.residue 65536 sum.toNat := by
  have hlt := sum.toNat_lt
  have hhi (s : UInt32) : (s >>> 16).toNat = s.toNat / 65536 := by
    rw [UInt32.toNat_shiftRight]
    show s.toNat >>> 16 = _
    rw [Nat.shiftRight_eq_div_pow]
  have hlo : (sum &&& 0xFFFF).toNat = sum.toNat % 65536 := by
    rw [UInt32.toNat_and]
    show sum.toNat &&& 2 ^ 16 - 1 = _
    rw [Nat.and_two_pow_sub_one_eq_mod]
  have hfirst : ((sum >>> 16) + (sum &&& 0xFFFF)).toNat = Checksum.fold 65536 sum.toNat := by
    rw [UInt32.toNat_add, hhi, hlo, Checksum.fold, Nat.mod_eq_of_lt (by omega)]
  have hfold :=
    Checksum.fold_twice (show 2 ≤ 65536 by decide) (show sum.toNat < 65536 * 65536 from hlt)
  rw [← hfold, folded, UInt32.toNat_toUInt16, UInt32.toNat_add, hhi, hfirst,
    Nat.mod_mod_of_dvd _ (by decide)]

theorem toNat_complement (s : UInt32) : (~~~ s).toUInt16.toNat = 65535 - s.toUInt16.toNat := by
  have hs := s.toNat_lt
  rw [UInt32.toNat_toUInt16, UInt32.toNat_not, UInt32.toNat_toUInt16]
  simp only [UInt32.size]
  omega

theorem words_setChecksum (header : IcmpHeader) (v : UInt16) (l : Bytes) :
    words (write (header.setChecksum v) ++ l) =
      be16 header.type header.code :: v.toNat :: header.identifier :: header.sequenceNumber ::
        words l := by
  obtain ⟨_, _, _, _, _, _, _, _, rfl⟩ := header.exists_bytes
  rw [← Rep.be16_halves v]
  rfl

theorem words_computeChecksum (header : IcmpHeader) (hl : body.length ≤ 65535) :
    Checksum.sum 65536 (words (write (computeChecksum header body) ++ pad body)) = 0xFFFF := by
  have hsum : (words (write (computeChecksum header body) ++ pad body)).sum =
      65536 - 1 - Checksum.residue 65536 (total header body) + total header body := by
    rw [computeChecksum_eq, words_setChecksum, toNat_complement, folded_toNat,
      accumulated_toNat header hl]
    simp only [List.sum_cons, total]
    omega
  rw [Checksum.sum_eq (by decide) (words_lt _), hsum, Checksum.residue_complement (by decide)]

/-- The receiver's check of a message succeeds. The accumulator does not wrap, and the
folding steps reach the residue of every sum. -/
theorem checksum_verifies (header : IcmpHeader) (body : Bytes) (hl : body.length ≤ 65535) :
    Checksum.sum 65536 (words (write (computeChecksum header body) ++ pad body)) = 0xFFFF ∧
    total header body < 2 ^ 32 ∧ (accumulated header body).toNat = total header body ∧
    ∀ sum : UInt32, (folded sum).toUInt16.toNat = Checksum.residue 65536 sum.toNat :=
  ⟨words_computeChecksum header hl, total_lt header hl, accumulated_toNat header hl, folded_toNat⟩

theorem checksum_verifies_odd :
    Checksum.sum 65536 (words (write (computeChecksum (IcmpHeader.new.setType 8) [1, 2, 3]) ++
      pad [1, 2, 3])) = 0xFFFF ∧
    total (IcmpHeader.new.setType 8) [1, 2, 3] < 2 ^ 32 ∧
    (accumulated (IcmpHeader.new.setType 8) [1, 2, 3]).toNat =
      total (IcmpHeader.new.setType 8) [1, 2, 3] ∧
    ∀ sum : UInt32, (folded sum).toUInt16.toNat = Checksum.residue 65536 sum.toNat :=
  checksum_verifies _ _ (by decide)

theorem fillSendBuf_take (header : IcmpHeader) {n : ℕ} (hn : 8 + n ≤ sendLen) :
    (fillSendBuf header (List.replicate n 0)).take (8 + n) =
      write header ++ List.replicate n 0 := by
  have hbody : cString (List.replicate n 0) = [] := by
    cases n <;> simp [cString, List.replicate_succ]
  have hsplit : List.replicate sendLen (0 : UInt8) = List.replicate 8 0 ++
      (List.replicate n 0 ++ List.replicate (sendLen - 8 - n) 0) := by
    rw [List.replicate_append_replicate, List.replicate_append_replicate]
    congr 1
    omega
  have hheader := writeAt_append header.rep.bytes [] (List.replicate 8 0)
    (List.replicate n 0 ++ List.replicate (sendLen - 8 - n) 0) (by simp [header.rep.size])
  have hzero (m : ℕ) (hm : 1 ≤ m) : writeAt (header.rep.bytes ++ List.replicate m 0) 8 [0] =
      header.rep.bytes ++ List.replicate m 0 := by
    obtain ⟨m, rfl⟩ := Nat.exists_eq_add_of_le' hm
    have := writeAt_append [0] header.rep.bytes [0] (List.replicate m 0) rfl
    rw [header.rep.size, List.append_assoc] at this
    simpa [List.replicate_succ] using this
  simp only [List.nil_append, List.length_nil] at hheader
  rw [fillSendBuf, hbody, List.nil_append, hsplit, hheader, List.replicate_append_replicate,
    hzero _ (by simp only [sendLen] at hn ⊢; omega), ← List.replicate_append_replicate,
    ← List.append_assoc, List.take_left' (by simp [header.rep.size]), write]

end QyUtil.Ping
