import QyUtil.Dns.ReadName
import QyUtil.Loops.Finite

/-! # The walk along a name

Where the reading loop goes depends on the buffer alone: each byte leads to the
next position or to the target of a pointer. The walk from a position either
comes to a zero byte, and then spells a string of bytes, or leaves the buffer, or
comes back to a position it has already been at.
-/

namespace QyUtil.Dns

open Loops Outcome Turn Relation

variable {buf : RecvBuf} {q q' : ℕ} {w w' : Bytes}

theorem byte_eq_zero_of_le (h : buf.datagram.length ≤ q) : buf.byte q = 0 :=
  List.getD_eq_default _ _ h

theorem load_of_lt (h : q < bufLen) : buf.load q = done (buf.byte q) := by
  simp [RecvBuf.load, guard_true h]

theorem load_of_le (h : bufLen ≤ q) : buf.load q = fault (.readOutside q) := by
  simp [RecvBuf.load, guard_false (not_lt.mpr h)]

/-- The position that follows `q` on the walk along a name. -/
inductive Successor (buf : RecvBuf) : ℕ → ℕ → Prop
  | byte {q : ℕ} : q < bufLen → buf.byte q ≠ 0 → buf.byte q < 192 → Successor buf q (q + 1)
  | pointer {q : ℕ} : q + 1 < bufLen → 192 ≤ buf.byte q →
      Successor buf q (pointerOffset (buf.byte q) (buf.byte (q + 1)))

/-- The bytes that decide where the walk goes from `q` are inside the buffer. -/
def InBuffer (buf : RecvBuf) (q : ℕ) : Prop :=
  q < bufLen ∧ (192 ≤ buf.byte q → q + 1 < bufLen)

/-- The string of bytes that the walk from `q` to a zero byte collects. -/
inductive Spells (buf : RecvBuf) : ℕ → Bytes → Prop
  | nil {q : ℕ} : q < bufLen → buf.byte q = 0 → Spells buf q []
  | byte {q : ℕ} {w : Bytes} : q < bufLen → buf.byte q ≠ 0 → buf.byte q < 192 →
      Spells buf (q + 1) w → Spells buf q (buf.byte q :: w)
  | pointer {q : ℕ} {w : Bytes} : q + 1 < bufLen → 192 ≤ buf.byte q →
      Spells buf (pointerOffset (buf.byte q) (buf.byte (q + 1))) w → Spells buf q w

theorem not_lt_zero_of_le {b : UInt8} (h : 192 ≤ b) : b ≠ 0 := by
  rintro rfl
  exact absurd h (by decide)

theorem Spells.functional (h : Spells buf q w) (h' : Spells buf q w') : w = w' := by
  induction h generalizing w' with
  | nil _ h0 =>
    cases h' with
    | nil => rfl
    | byte _ hn => exact absurd h0 hn
    | pointer _ hp => exact absurd h0 (not_lt_zero_of_le hp)
  | byte _ hn hl _ ih =>
    cases h' with
    | nil _ h0 => exact absurd h0 hn
    | byte _ _ _ h' => rw [ih h']
    | pointer _ hp => exact absurd hp (UInt8.not_le.mpr hl)
  | pointer _ hp _ ih =>
    cases h' with
    | nil _ h0 => exact absurd h0 (not_lt_zero_of_le hp)
    | byte _ _ hl => exact absurd hp (UInt8.not_le.mpr hl)
    | pointer _ _ h' => exact ih h'

theorem Spells.mem (h : Spells buf q w) : ∀ b ∈ w, b ≠ 0 ∧ b < 192 := by
  induction h with
  | nil => simp
  | byte _ hn hl _ ih => simpa [hn, hl] using ih
  | pointer _ _ _ ih => exact ih

def walkTurn (buf : RecvBuf) (q : ℕ) : Outcome Fault (Turn ℕ Unit) := do
  let b ← buf.load q
  if b = 0 then
    pure (.exit ())
  else if 192 ≤ b then do
    let lo ← buf.load (q + 1)
    pure (.again (pointerOffset b lo))
  else
    pure (.again (q + 1))

theorem walkTurn_zero (hq : q < bufLen) (h0 : buf.byte q = 0) :
    walkTurn buf q = done (exit ()) := by
  simp [walkTurn, load_of_lt hq, h0]

theorem walkTurn_byte (hq : q < bufLen) (hn : buf.byte q ≠ 0) (hl : buf.byte q < 192) :
    walkTurn buf q = done (again (q + 1)) := by
  simp [walkTurn, load_of_lt hq, hn, UInt8.not_le.mpr hl]

theorem walkTurn_pointer (hq : q + 1 < bufLen) (hp : 192 ≤ buf.byte q) :
    walkTurn buf q = done (again (pointerOffset (buf.byte q) (buf.byte (q + 1)))) := by
  simp [walkTurn, load_of_lt (show q < bufLen by omega), load_of_lt hq, hp, not_lt_zero_of_le hp]

theorem walkTurn_fault (h : ¬ InBuffer buf q) : ∃ e, walkTurn buf q = fault e := by
  by_cases hq : q < bufLen
  · obtain ⟨hp, hle⟩ : 192 ≤ buf.byte q ∧ bufLen ≤ q + 1 := by
      simpa [InBuffer, hq] using h
    exact ⟨_, by simp [walkTurn, load_of_lt hq, load_of_le hle, hp, not_lt_zero_of_le hp]; rfl⟩
  · exact ⟨_, by simp [walkTurn, load_of_le (not_lt.mp hq)]; rfl⟩

theorem InBuffer.cases (h : InBuffer buf q) :
    (q < bufLen ∧ buf.byte q = 0) ∨ ∃ q', Successor buf q q' := by
  by_cases h0 : buf.byte q = 0
  · exact .inl ⟨h.1, h0⟩
  · by_cases hp : 192 ≤ buf.byte q
    · exact .inr ⟨_, .pointer (h.2 hp) hp⟩
    · exact .inr ⟨_, .byte h.1 h0 (UInt8.not_le.mp hp)⟩

theorem walkTurn_next_iff : Next (walkTurn buf) q q' ↔ Successor buf q q' := by
  constructor
  · intro h
    by_cases hb : InBuffer buf q
    · rcases hb.cases with ⟨hq, h0⟩ | ⟨q'', hs⟩
      · rw [Next, walkTurn_zero hq h0] at h
        cases h
      · cases hs with
        | byte hq hn hl =>
          rw [Next, walkTurn_byte hq hn hl] at h
          obtain rfl := again.inj (done.inj h)
          exact .byte hq hn hl
        | pointer hq hp =>
          rw [Next, walkTurn_pointer hq hp] at h
          obtain rfl := again.inj (done.inj h)
          exact .pointer hq hp
    · obtain ⟨e, he⟩ := walkTurn_fault hb
      rw [Next, he] at h
      cases h
  · rintro (⟨hq, hn, hl⟩ | ⟨hq, hp⟩)
    · exact walkTurn_byte hq hn hl
    · exact walkTurn_pointer hq hp

theorem walkTurn_next : Next (walkTurn buf) = Successor buf := by
  funext q q'
  exact propext walkTurn_next_iff

theorem Successor.le (h : Successor buf q q') : q' ≤ bufLen := by
  cases h with
  | byte hq => exact hq
  | pointer =>
    have := Bytes.be16_lt (buf.byte q) (buf.byte (q + 1))
    unfold pointerOffset bufLen
    omega

theorem reach_finite (buf : RecvBuf) (q : ℕ) :
    {q' | Reach (walkTurn buf) q q'}.Finite := by
  apply (Set.finite_Iic (max q bufLen)).subset
  intro q' hq
  rw [Set.mem_Iic]
  exact Reach.invariant (I := fun t => t ≤ max q bufLen) (le_max_left _ _)
    (fun _ _ _ hn => le_max_of_le_right (walkTurn_next_iff.mp hn).le) hq

theorem exists_spells_iff_returns :
    (∃ w, Spells buf q w) ↔ Returns (fun n => loop (walkTurn buf) n q) () := by
  rw [loop_returns_iff]
  constructor
  · rintro ⟨w, h⟩
    induction h with
    | nil hq h0 => exact ⟨_, .refl, walkTurn_zero hq h0⟩
    | byte hq hn hl _ ih =>
      obtain ⟨t, ht, he⟩ := ih
      exact ⟨t, .head (walkTurn_byte hq hn hl) ht, he⟩
    | pointer hq hp _ ih =>
      obtain ⟨t, ht, he⟩ := ih
      exact ⟨t, .head (walkTurn_pointer hq hp) ht, he⟩
  · rintro ⟨t, ht, he⟩
    induction ht using ReflTransGen.head_induction_on with
    | refl =>
      by_cases hb : InBuffer buf t
      · rcases hb.cases with ⟨hq, h0⟩ | ⟨q', hs⟩
        · exact ⟨[], .nil hq h0⟩
        · rw [walkTurn_next_iff.mpr hs] at he
          cases he
      · obtain ⟨e, hf⟩ := walkTurn_fault hb
        rw [hf] at he
        cases he
    | head hs _ ih =>
      obtain ⟨w, ih⟩ := ih
      cases walkTurn_next_iff.mp hs with
      | byte hq hn hl => exact ⟨_, .byte hq hn hl ih⟩
      | pointer hq hp => exact ⟨w, .pointer hq hp ih⟩

/-- The walk stays in the buffer and never comes back to a position. -/
def Acyclic (buf : RecvBuf) (q : ℕ) : Prop :=
  ∀ q', ReflTransGen (Successor buf) q q' →
    InBuffer buf q' ∧ ¬ TransGen (Successor buf) q' q'

/-- The walk comes to a zero byte exactly when it stays in the buffer and never
comes back to a position. -/
theorem exists_spells_iff_acyclic : (∃ w, Spells buf q w) ↔ Acyclic buf q := by
  have hb : ∀ t, walkTurn buf t ≠ running := by
    intro t h
    by_cases hi : InBuffer buf t
    · rcases hi.cases with ⟨hq, h0⟩ | ⟨q', hs⟩
      · simp [walkTurn_zero hq h0] at h
      · rw [walkTurn_next_iff.mpr hs] at h
        cases h
    · obtain ⟨e, he⟩ := walkTurn_fault hi
      simp [he] at h
  have hstop := stops_iff_no_cycle (reach_finite buf q) hb
  simp only [Reach, Cyclic, walkTurn_next] at hstop
  rw [exists_spells_iff_returns]
  constructor
  · intro hr q' hq'
    refine ⟨?_, fun hc => hstop.mp (.inl ⟨(), hr⟩) ⟨q', hq', hc⟩⟩
    by_contra hi
    obtain ⟨e, he⟩ := walkTurn_fault hi
    refine hr.not_faults (loop_progressive _ _) (loop_faults_iff.mpr ⟨q', ?_, he⟩)
    rwa [Reach, walkTurn_next]
  · intro ha
    have hnone := hstop.mpr (by
      rintro ⟨q', hq', hc⟩
      exact (ha q' hq').2 hc)
    rcases hnone with ⟨_, hr⟩ | ⟨e, hf⟩
    · exact hr
    · obtain ⟨t, ht, he⟩ := loop_faults_iff.mp hf
      rw [Reach, walkTurn_next] at ht
      rcases (ha t ht).1.cases with ⟨hq, h0⟩ | ⟨q', hs⟩
      · rw [walkTurn_zero hq h0] at he
        cases he
      · rw [walkTurn_next_iff.mpr hs] at he
        cases he

def inlineLength (buf : RecvBuf) (q : ℕ) : ℕ :=
  ((buf.datagram.drop q).takeWhile fun b => b ≠ 0 ∧ b < 192).length

def wireLength (buf : RecvBuf) (q : ℕ) : ℕ :=
  inlineLength buf q + if buf.byte (q + inlineLength buf q) = 0 then 1 else 2

theorem inlineLength_byte (hn : buf.byte q ≠ 0) (hl : buf.byte q < 192) :
    inlineLength buf q = inlineLength buf (q + 1) + 1 := by
  have hq : q < buf.datagram.length := by
    by_contra h
    exact hn (byte_eq_zero_of_le (not_lt.mp h))
  have hb : buf.byte q = buf.datagram[q] := List.getD_eq_getElem _ _ hq
  rw [hb] at hn hl
  rw [inlineLength, List.drop_eq_getElem_cons hq, List.takeWhile_cons_of_pos (by simp [hn, hl])]
  rfl

theorem inlineLength_stop (h : buf.byte q = 0 ∨ 192 ≤ buf.byte q) : inlineLength buf q = 0 := by
  by_cases hq : q < buf.datagram.length
  · have hb : buf.byte q = buf.datagram[q] := List.getD_eq_getElem _ _ hq
    rw [hb] at h
    have hnot : ¬ (buf.datagram[q] ≠ 0 ∧ buf.datagram[q] < 192) := by
      rcases h with h | h
      · exact fun hc => hc.1 h
      · exact fun hc => absurd hc.2 (UInt8.not_lt.mpr h)
    rw [inlineLength, List.drop_eq_getElem_cons hq,
      List.takeWhile_cons_of_neg (by simpa using hnot)]
    rfl
  · rw [inlineLength, List.drop_eq_nil_of_le (not_lt.mp hq)]
    rfl

theorem wireLength_zero (h : buf.byte q = 0) : wireLength buf q = 1 := by
  simp [wireLength, inlineLength_stop (.inl h), h]

theorem wireLength_pointer (h : 192 ≤ buf.byte q) : wireLength buf q = 2 := by
  simp [wireLength, inlineLength_stop (.inr h), not_lt_zero_of_le h]

theorem wireLength_byte (hn : buf.byte q ≠ 0) (hl : buf.byte q < 192) :
    wireLength buf q = wireLength buf (q + 1) + 1 := by
  have hi := inlineLength_byte hn hl
  simp only [wireLength, hi, show q + (inlineLength buf (q + 1) + 1) =
    q + 1 + inlineLength buf (q + 1) by omega]
  omega

theorem Spells.stop (h : Spells buf q w) :
    buf.byte (q + inlineLength buf q) = 0 ∨ 192 ≤ buf.byte (q + inlineLength buf q) := by
  induction h with
  | nil _ h0 => exact .inl (by rw [inlineLength_stop (.inl h0)]; exact h0)
  | byte _ hn hl _ ih =>
    rwa [inlineLength_byte hn hl, ← Nat.add_assoc, Nat.add_right_comm]
  | pointer _ hp => exact .inr (by rw [inlineLength_stop (.inr hp)]; exact hp)

end QyUtil.Dns
