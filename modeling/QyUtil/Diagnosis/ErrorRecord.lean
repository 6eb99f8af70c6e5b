import QyUtil.Diagnosis.Protocol

/-! # The text of the error record

`set` copies the bytes of its message and no terminator. The buffer holds zeros after
`recover`, and a text in front of zeros ever after: a message overwrites the beginning of
this text, and what it does not reach is still read behind it. The text is that of the last
message as long as no message is shorter than the one it overwrites.
-/

namespace QyUtil.Diagnosis

open Bytes Ping

structure CMessage where
  text : Bytes
  noNul : (0 : UInt8) ∉ text

/-- A call on an error record; `none` is the null pointer. -/
inductive ErrorCall where
  | set (nerr : ℤ) (msg : Option CMessage)
  | recover

def ErrorInfo.call (e : ErrorInfo) : ErrorCall → ErrorInfo
  | .set nerr msg => e.set nerr (msg.map CMessage.text)
  | .recover => e.recover

def record (garbage : ErrorInfo) (calls : List ErrorCall) : ErrorInfo :=
  calls.foldl ErrorInfo.call (ErrorInfo.new garbage)

def ErrorCall.code : ErrorCall → ℤ
  | .set nerr _ => nerr
  | .recover => 0

/-- The message that a call sets, as far as there is room for it. -/
def ErrorCall.message : ErrorCall → Bytes
  | .set _ (some m) => m.text.take (maxMsgBuf - 1)
  | _ => []

def ErrorCall.Clears : ErrorCall → Prop
  | .set _ (some _) => False
  | _ => True

/-- The record reads as what the last call has set, or else as nothing. -/
structure Exact (calls : List ErrorCall) (e : ErrorInfo) : Prop where
  code : e.errorCode = (calls.getLast?.map ErrorCall.code).getD 0
  text : cString e.msg = (calls.getLast?.map ErrorCall.message).getD []

/-- A message is not shorter than the one that it overwrites. -/
def Covers (before after : ErrorCall) : Prop :=
  after.Clears ∨ before.message.length ≤ after.message.length

variable {e garbage : ErrorInfo} {c : ErrorCall} {calls : List ErrorCall} {t : Bytes}

structure HoldsText (e : ErrorInfo) (t : Bytes) : Prop where
  noNul : (0 : UInt8) ∉ t
  fits : t.length < maxMsgBuf
  msg : e.msg = t ++ List.replicate (maxMsgBuf - t.length) 0

theorem HoldsText.cString_eq (h : HoldsText e t) : cString e.msg = t := by
  rw [h.msg, cString_append h.noNul, cString_zeros, List.append_nil]

theorem new_holdsText (garbage : ErrorInfo) : HoldsText (ErrorInfo.new garbage) [] :=
  ⟨List.not_mem_nil, by decide, rfl⟩

theorem call_code (e : ErrorInfo) (c : ErrorCall) : (e.call c).errorCode = c.code := by
  cases c with
  | set nerr msg => cases msg <;> rfl
  | recover => rfl

theorem ErrorCall.message_of_clears (h : c.Clears) : c.message = [] := by
  rcases c with ⟨nerr, _ | m⟩ | _
  · rfl
  · exact h.elim
  · rfl

theorem call_clears (h : c.Clears) (e : ErrorInfo) : HoldsText (e.call c) [] := by
  rcases c with ⟨nerr, _ | m⟩ | _
  · exact ⟨List.not_mem_nil, by decide, rfl⟩
  · exact h.elim
  · exact ⟨List.not_mem_nil, by decide, rfl⟩

theorem call_set (e : ErrorInfo) (nerr : ℤ) (m : CMessage) :
    (e.call (.set nerr (some m))).msg = writeAt e.msg 0 (m.text.take (maxMsgBuf - 1)) := by
  have hsize : (if maxMsgBuf ≤ m.text.length then maxMsgBuf - 1 else m.text.length) =
      min (maxMsgBuf - 1) m.text.length := by
    split_ifs <;> omega
  have hcopy : (cString m.text ++ List.replicate (min (maxMsgBuf - 1) m.text.length) 0).take
      (min (maxMsgBuf - 1) m.text.length) = m.text.take (maxMsgBuf - 1) := by
    rw [cString_eq_self m.noNul, List.take_append_of_le_length (min_le_right _ _),
      ← List.take_take, List.take_length]
  simp only [ErrorInfo.call, ErrorInfo.set, Option.map_some, hsize, strncpy, hcopy]

theorem ErrorCall.message_noNul (c : ErrorCall) : (0 : UInt8) ∉ c.message := by
  rcases c with ⟨nerr, _ | m⟩ | _
  · exact List.not_mem_nil
  · exact fun h => m.noNul (List.mem_of_mem_take h)
  · exact List.not_mem_nil

theorem ErrorCall.length_message_lt (c : ErrorCall) : c.message.length < maxMsgBuf := by
  rcases c with ⟨nerr, _ | m⟩ | _
  · exact Nat.zero_lt_succ _
  · exact (List.length_take_le _ _).trans_lt (by decide)
  · exact Nat.zero_lt_succ _

theorem call_message (h : HoldsText e t) (hc : ¬ c.Clears) :
    HoldsText (e.call c) (c.message ++ t.drop c.message.length) := by
  have hfits := h.fits
  have hlen := c.length_message_lt
  refine ⟨?_, ?_, ?_⟩
  · rw [List.mem_append, not_or]
    exact ⟨c.message_noNul, fun hmem => h.noNul (List.mem_of_mem_drop hmem)⟩
  · rw [List.length_append, List.length_drop]
    omega
  · have hwrite : (e.call c).msg = writeAt e.msg 0 c.message := by
      rcases c with ⟨nerr, _ | m⟩ | _
      · exact absurd trivial hc
      · exact call_set e nerr m
      · exact absurd trivial hc
    rw [hwrite, writeAt, h.msg, List.take_zero, List.nil_append, Nat.zero_add, List.drop_append,
      List.drop_replicate, List.append_assoc, List.length_append, List.length_drop]
    congr 3
    omega

/-- What is read after a call is its message exactly when it clears the buffer, or is not
shorter than the text before. -/
theorem call_exact_iff (h : HoldsText e t) (c : ErrorCall) :
    ∃ t', HoldsText (e.call c) t' ∧
      (t' = c.message ↔ c.Clears ∨ t.length ≤ c.message.length) := by
  by_cases hc : c.Clears
  · exact ⟨[], call_clears hc e,
      iff_of_true (ErrorCall.message_of_clears hc).symm (.inl hc)⟩
  · refine ⟨_, call_message h hc, ?_⟩
    rw [List.append_right_eq_self, List.drop_eq_nil_iff]
    exact (or_iff_right hc).symm

theorem record_holdsText (garbage : ErrorInfo) (calls : List ErrorCall) :
    ∃ t, HoldsText (record garbage calls) t := by
  induction calls using List.reverseRecOn with
  | nil => exact ⟨[], new_holdsText garbage⟩
  | append_singleton calls c ih =>
    obtain ⟨t, ht⟩ := ih
    obtain ⟨t', ht', -⟩ := call_exact_iff ht c
    exact ⟨t', by rwa [record, List.foldl_concat]⟩

theorem record_concat_exact_iff (h : Exact calls (record garbage calls)) (c : ErrorCall) :
    Exact (calls ++ [c]) (record garbage (calls ++ [c])) ↔
      ∀ before ∈ calls.getLast?, Covers before c := by
  obtain ⟨t, ht⟩ := record_holdsText garbage calls
  obtain ⟨t', ht', hiff⟩ := call_exact_iff ht c
  have hstep : record garbage (calls ++ [c]) = (record garbage calls).call c := by
    rw [record, List.foldl_concat, record]
  have htext : t = (calls.getLast?.map ErrorCall.message).getD [] := by
    rw [← h.text, ht.cString_eq]
  have hexact : Exact (calls ++ [c]) (record garbage (calls ++ [c])) ↔ t' = c.message := by
    constructor
    · intro h'
      simpa [hstep, ht'.cString_eq] using h'.text
    · intro h'
      exact ⟨by simp [hstep, call_code], by simp [hstep, ht'.cString_eq, h']⟩
  rw [hexact, hiff, htext]
  cases calls.getLast? <;> simp [Covers]

/-- In every sequence of calls on a new record, it reads as the last call says after each of
them exactly when no message is shorter than the one it overwrites. -/
theorem record_exact_iff (garbage : ErrorInfo) (calls : List ErrorCall) :
    (∀ calls', calls' <+: calls → Exact calls' (record garbage calls')) ↔
      calls.IsChain Covers := by
  induction calls using List.reverseRecOn with
  | nil =>
    refine iff_of_true (fun calls' h => ?_) .nil
    obtain rfl := List.prefix_nil.mp h
    exact ⟨rfl, (new_holdsText garbage).cString_eq⟩
  | append_singleton calls c ih =>
    have hstarts : (∀ calls', calls' <+: calls ++ [c] → Exact calls' (record garbage calls')) ↔
        (∀ calls', calls' <+: calls → Exact calls' (record garbage calls')) ∧
          Exact (calls ++ [c]) (record garbage (calls ++ [c])) := by
      simp only [List.prefix_concat_iff, forall_eq_or_imp, and_comm]
    rw [hstarts, ih, List.isChain_append]
    constructor
    · rintro ⟨hchain, hlast⟩
      have hbefore := ih.mpr hchain calls (List.prefix_refl calls)
      refine ⟨hchain, .singleton c, fun x hx y hy => ?_⟩
      obtain rfl : c = y := by simpa using hy
      exact (record_concat_exact_iff hbefore c).mp hlast x hx
    · rintro ⟨hchain, -, hcovers⟩
      have hbefore := ih.mpr hchain calls (List.prefix_refl calls)
      exact ⟨hchain, (record_concat_exact_iff hbefore c).mpr fun x hx => hcovers x hx c rfl⟩

def twoErrors : List ErrorCall :=
  [.set (-1) (some ⟨ascii "unknown host", by decide⟩), .set 2 (some ⟨ascii "timeout", by decide⟩)]

theorem short_message_keeps_residue :
    cString (record ⟨0, []⟩ twoErrors).msg = ascii "timeout host" ∧
      ¬ Exact twoErrors (record ⟨0, []⟩ twoErrors) := by
  have hread : cString (record ⟨0, []⟩ twoErrors).msg = ascii "timeout host" := by decide +kernel
  refine ⟨hread, fun h => ?_⟩
  have htext := h.text
  rw [hread] at htext
  exact absurd htext (by decide)

end QyUtil.Diagnosis
