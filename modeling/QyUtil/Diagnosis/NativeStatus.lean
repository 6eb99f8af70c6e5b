import QyUtil.Bytes.Slices
import QyUtil.Diagnosis.Protocol

/-! # The status for Objective-C

`OC_Callback::ping` fills a structure on the stack. `ZeroPingStatus` clears 16 bytes of it,
counted from its beginning and not from the address, and the copy of the address stores 15
bytes. The last byte of the address is never written.
-/

namespace QyUtil.Diagnosis

open Bytes Ping

def maxIpBufLen : ℕ := 16

inductive NumberField where
  | lossRate
  | minrtt
  | avgrtt
  | maxrtt
  deriving DecidableEq, Repr

def NumberField.offset : NumberField → ℕ
  | .lossRate => 0
  | .minrtt => 8
  | .avgrtt => 16
  | .maxrtt => 24

def ipOffset : ℕ := 32

def ocStatusSize : ℕ := 48

/-- How numbers of type `double` lie in memory. -/
structure DoubleFormat where
  bytes : ℚ → Bytes
  size : ∀ q, (bytes q).length = 8

/-- `OC_PingStatus`, as the bytes of its storage. -/
structure OcPingStatus where
  mem : Bytes
  size : mem.length = ocStatusSize

def OcPingStatus.store (s : OcPingStatus) (off : ℕ) (bs : Bytes)
    (h : off + bs.length ≤ ocStatusSize) : OcPingStatus :=
  ⟨writeAt s.mem off bs, by rw [length_writeAt (s.size ▸ h), s.size]⟩

theorem NumberField.offset_le (f : NumberField) : f.offset + 8 ≤ ipOffset := by
  cases f <;> decide

def OcPingStatus.setNumber (s : OcPingStatus) (d : DoubleFormat) (f : NumberField) (q : ℚ) :
    OcPingStatus :=
  s.store f.offset (d.bytes q) (by rw [d.size]; exact f.offset_le.trans (by decide))

/-- `memset(status, 0, MAX_IP_BUF_LEN)` -/
def OcPingStatus.clear (s : OcPingStatus) : OcPingStatus :=
  s.store 0 (List.replicate maxIpBufLen 0) (by decide)

def zeroPingStatus (d : DoubleFormat) (status : OcPingStatus) : OcPingStatus :=
  let status := status.setNumber d .lossRate 0
  let status := status.setNumber d .minrtt 0
  let status := status.setNumber d .avgrtt 0
  let status := status.setNumber d .maxrtt 0
  status.clear

def strncpyBytes (src : Bytes) (n : ℕ) : Bytes := (cString src ++ List.replicate n 0).take n

theorem length_strncpyBytes (src : Bytes) (n : ℕ) : (strncpyBytes src n).length = n := by
  simp [strncpyBytes]

def OcPingStatus.setIp (s : OcPingStatus) (ip : Bytes) : OcPingStatus :=
  s.store ipOffset (strncpyBytes ip (maxIpBufLen - 1)) (by rw [length_strncpyBytes]; decide)

/-- The structure `oc_statue` of `OC_Callback::ping`, which lies in `storage`. -/
def ocStatue (d : DoubleFormat) (storage : OcPingStatus) (state : PingStatus) : OcPingStatus :=
  let status := zeroPingStatus d storage
  let status := status.setNumber d .lossRate state.lossRate
  let status := status.setNumber d .minrtt state.minrtt
  let status := status.setNumber d .avgrtt state.avgrtt
  let status := status.setNumber d .maxrtt state.maxrtt
  status.setIp state.ip

/-- `OC_Callback::ping`: what the callback of the user gets, if there is one. -/
def ocPing (d : DoubleFormat) (hasCallback : Bool) (storage : OcPingStatus) (state : PingStatus)
    (error : ErrorInfo) : Option (OcPingStatus × ℤ × Bytes) :=
  if hasCallback then some (ocStatue d storage state, error.errorCode, error.msg) else none

def OcPingStatus.number (s : OcPingStatus) (f : NumberField) : Bytes := slice s.mem f.offset 8

def OcPingStatus.ip (s : OcPingStatus) : Bytes := slice s.mem ipOffset maxIpBufLen

def OcPingStatus.ipLast (s : OcPingStatus) : Bytes :=
  slice s.mem (ipOffset + (maxIpBufLen - 1)) 1

def stateNumber (state : PingStatus) : NumberField → ℚ
  | .lossRate => state.lossRate
  | .minrtt => state.minrtt
  | .avgrtt => state.avgrtt
  | .maxrtt => state.maxrtt

/-- The structure has the numbers of the status, and its address as a C string. -/
structure HandsOver (d : DoubleFormat) (state : PingStatus) (s : OcPingStatus) : Prop where
  numbers : ∀ f, s.number f = d.bytes (stateNumber state f)
  terminated : (0 : UInt8) ∈ s.ip
  address : cString s.ip = cString state.ip

variable {d : DoubleFormat} {s storage : OcPingStatus} {state : PingStatus} {error : ErrorInfo}
  {f f' : NumberField} {q : ℚ} {off n : ℕ} {bs : Bytes}

theorem number_setNumber : (s.setNumber d f q).number f = d.bytes q := by
  refine slice_writeAt (d.size q) ?_
  rw [s.size]
  cases f <;> decide

theorem number_setNumber_of_ne (hne : f ≠ f') :
    (s.setNumber d f' q).number f = s.number f := by
  have hoff : f.offset + 8 ≤ f'.offset ∨ f'.offset + 8 ≤ f.offset := by
    cases f <;> cases f' <;> simp_all [NumberField.offset]
  have hle : f'.offset + 8 ≤ s.mem.length := by
    rw [s.size]
    exact f'.offset_le.trans (by decide)
  rcases hoff with hoff | hoff
  · exact slice_writeAt_before hoff (by omega)
  · exact slice_writeAt_behind (by rwa [d.size]) (by rwa [d.size])

theorem number_setIp (ip : Bytes) : (s.setIp ip).number f = s.number f :=
  slice_writeAt_before f.offset_le (by rw [s.size]; decide)

theorem ipLast_setNumber : (s.setNumber d f q).ipLast = s.ipLast := by
  have hle := f.offset_le
  refine slice_writeAt_behind ?_ ?_
  · rw [d.size]
    exact hle.trans (by decide)
  · rw [d.size, s.size]
    exact hle.trans (by decide)

theorem ipLast_clear : s.clear.ipLast = s.ipLast :=
  slice_writeAt_behind (by decide) (by rw [s.size]; decide)

/-- Clearing the structure does not get as far as the last byte of the address. -/
theorem ipLast_zeroPingStatus : (zeroPingStatus d s).ipLast = s.ipLast := by
  simp only [zeroPingStatus, ipLast_clear, ipLast_setNumber]

theorem ip_setIp (ip : Bytes) :
    (s.setIp ip).ip = strncpyBytes ip (maxIpBufLen - 1) ++ s.ipLast := by
  have hcopied : slice (s.setIp ip).mem ipOffset (maxIpBufLen - 1) =
      strncpyBytes ip (maxIpBufLen - 1) :=
    slice_writeAt (length_strncpyBytes _ _) (by rw [s.size]; decide)
  have hkept : (s.setIp ip).ipLast = s.ipLast :=
    slice_writeAt_behind (by rw [length_strncpyBytes])
      (by rw [length_strncpyBytes, s.size]; decide)
  rw [← hcopied, ← hkept]
  exact slice_add _ _ (maxIpBufLen - 1) 1

theorem exists_ipLast (s : OcPingStatus) : ∃ x, s.ipLast = [x] := by
  have hlen : s.ipLast.length = 1 := by
    rw [OcPingStatus.ipLast, slice, List.length_take, List.length_drop, s.size]
    decide
  exact List.length_eq_one_iff.mp hlen

/-- A text that `strncpy` has copied is read back in front of one more byte exactly when it
left room for a terminator, or that byte is one. -/
theorem cString_strncpyBytes_iff {src : Bytes} {x : UInt8} (hle : (cString src).length ≤ n) :
    (0 ∈ strncpyBytes src n ++ [x] ∧ cString (strncpyBytes src n ++ [x]) = cString src) ↔
      (cString src).length < n ∨ x = 0 := by
  have hcopy : strncpyBytes src n =
      cString src ++ List.replicate (n - (cString src).length) 0 := by
    rw [strncpyBytes, List.take_append, List.take_of_length_le hle, List.take_replicate,
      min_eq_left (Nat.sub_le _ _)]
  have hnul := zero_notMem_cString src
  rw [hcopy, List.append_assoc, cString_append hnul]
  rcases hle.lt_or_eq with hlt | heq
  · obtain ⟨k, hk⟩ : ∃ k, n - (cString src).length = k + 1 := ⟨_, (Nat.succ_pred (by omega)).symm⟩
    refine iff_of_true ?_ (.inl hlt)
    rw [hk, List.replicate_succ]
    exact ⟨by simp, by simp [cString]⟩
  · rw [heq, Nat.sub_self, List.replicate_zero, List.nil_append]
    by_cases hx : x = 0
    · exact iff_of_true ⟨by simp [hx], by simp [hx, cString]⟩ (.inr hx)
    · refine iff_of_false (fun h => ?_) (by simp [hx])
      simpa [hnul, Ne.symm hx] using h.1

theorem number_ocStatue (f : NumberField) :
    (ocStatue d storage state).number f = d.bytes (stateNumber state f) := by
  cases f <;> simp [ocStatue, number_setIp, number_setNumber, number_setNumber_of_ne, stateNumber]

theorem ip_ocStatue : (ocStatue d storage state).ip =
    strncpyBytes state.ip (maxIpBufLen - 1) ++ storage.ipLast := by
  simp only [ocStatue, ip_setIp, ipLast_setNumber, ipLast_zeroPingStatus]

/-- For every storage, the callback gets the numbers of the status; it gets the address as a
C string exactly when the address has fewer than 15 characters or the last byte of the storage
was 0 before. -/
theorem ocPing_handsOver_iff (d : DoubleFormat) (storage : OcPingStatus) (error : ErrorInfo)
    (hip : (cString state.ip).length ≤ 15) :
    ∃ s, ocPing d true storage state error = some (s, error.errorCode, error.msg) ∧
      (∀ f, s.number f = d.bytes (stateNumber state f)) ∧
      (HandsOver d state s ↔ (cString state.ip).length < 15 ∨ storage.ipLast = [0]) := by
  obtain ⟨x, hx⟩ := exists_ipLast storage
  have hfield := @ip_ocStatue d storage state
  rw [hx] at hfield
  refine ⟨ocStatue d storage state, rfl, number_ocStatue, ?_⟩
  rw [hx, List.singleton_inj, ← cString_strncpyBytes_iff hip]
  constructor
  · intro h
    have hterm := h.terminated
    have haddr := h.address
    rw [hfield] at hterm haddr
    exact ⟨hterm, haddr⟩
  · rintro ⟨hterm, haddr⟩
    exact ⟨number_ocStatue, by rw [hfield]; exact hterm, by rw [hfield]; exact haddr⟩

def zeroFormat : DoubleFormat := ⟨fun _ => List.replicate 8 0, fun _ => List.length_replicate⟩

def filledWith (b : UInt8) : OcPingStatus := ⟨List.replicate ocStatusSize b, List.length_replicate⟩

def statusOf (ip : Bytes) : PingStatus :=
  { PingStatus.new with ip := strncpy PingStatus.new.ip ip 15 }

theorem ocPing_handsOver_short : ∃ s, ocPing zeroFormat true (filledWith 1)
    (statusOf (ascii "10.0.0.1")) ⟨0, []⟩ = some (s, 0, []) ∧
      HandsOver zeroFormat (statusOf (ascii "10.0.0.1")) s := by
  obtain ⟨s, hs, -, hiff⟩ := @ocPing_handsOver_iff (statusOf (ascii "10.0.0.1")) zeroFormat
    (filledWith 1) ⟨0, []⟩ (by decide)
  exact ⟨s, hs, hiff.mpr (.inl (by decide))⟩

/-- An address of full length in a storage that is not zero. -/
theorem ocPing_unterminated : ∃ s, ocPing zeroFormat true (filledWith 1)
    (statusOf (ascii "255.255.255.255")) ⟨0, []⟩ = some (s, 0, []) ∧
      ¬ HandsOver zeroFormat (statusOf (ascii "255.255.255.255")) s := by
  refine ⟨_, rfl, fun h => ?_⟩
  have hterm := h.terminated
  rw [ip_ocStatue] at hterm
  exact absurd hterm (by decide)

end QyUtil.Diagnosis
