import QyUtil.Dns.Walk

/-! # What `ReadName` returns

The reading loop follows the walk from its start: it collects the spelled bytes,
and its count ends as the number of bytes the name takes up there. The conversion
pass stores to consecutive indices up to the end of the last label, whatever the
length bytes are. Together they give the result of `ReadName` and decide when
all of its stores are inside the buffer.
-/

namespace QyUtil.Dns

open Loops Outcome Turn Relation

/-- Every call of the allocator succeeds. -/
def Heap.Reliable (heap : Heap) : Prop := ∀ k, heap.succeeds k = true

/-- A store is inside its block; the heap calls store nothing. -/
def HeapEvent.InBounds : HeapEvent → Prop
  | .store _ k cap => 0 ≤ k ∧ k < cap
  | _ => True

/-- Every store of a trace is inside its block. -/
def InBounds (trace : List HeapEvent) : Prop := ∀ e ∈ trace, e.InBounds

@[simp] theorem inBounds_append {l m : List HeapEvent} :
    InBounds (l ++ m) ↔ InBounds l ∧ InBounds m := List.forall_mem_append

@[simp] theorem inBounds_singleton {e : HeapEvent} : InBounds [e] ↔ e.InBounds := by
  simp [InBounds]

@[simp] theorem inBounds_store {block cap : ℕ} {k : ℤ} :
    (HeapEvent.store block k cap).InBounds ↔ 0 ≤ k ∧ k < cap := Iff.rfl

variable {heap : Heap} {buf : RecvBuf} {q q' : ℕ} {w : Bytes} {s s' : Scan}

/-- The capacity of the buffer once the count has been reached without a jump. -/
def capacityFor (count : ℕ) : ℕ := capacity ((count - 192) / increment)

def Scan.Sized (s : Scan) : Prop := s.timesForRealloc = (s.count - 192) / increment

theorem Scan.Sized.capacity_eq (h : s.Sized) :
    capacity s.timesForRealloc = capacityFor s.count := by rw [h, capacityFor]

theorem lt_capacityFor (count : ℕ) : count < capacityFor count := by
  simp only [capacityFor, capacity, initSize, increment]
  omega

theorem capacityFor_mono {m n : ℕ} (h : m ≤ n) : capacityFor m ≤ capacityFor n := by
  simp only [capacityFor, capacity, initSize, increment]
  omega

theorem start_sized (q calls : ℕ) : (Scan.start q calls).Sized := by
  simp [Scan.Sized, Scan.start, increment]

/-- The two scans differ at most in the count and in the block that holds the name. -/
structure SameName (s s' : Scan) : Prop where
  reader : s'.reader = s.reader
  name : s'.name = s.name
  jumped : s'.jumped = s.jumped
  inBounds : InBounds s'.trace ↔ InBounds s.trace

theorem grow_jumped (hs : s.Sized) (hj : s.jumped = true) :
    s.countUp.grow heap = again s := by
  have := lt_capacityFor s.count
  rw [Scan.countUp, if_pos hj, Scan.grow, if_neg (by rw [hs.capacity_eq]; omega)]

def Scan.grown (s : Scan) : Scan :=
  { s with
    timesForRealloc := s.timesForRealloc + 1
    block := s.calls
    calls := s.calls + 1
    trace := s.trace ++ [.realloc s.block s.calls] }

def Scan.given (s : Scan) : Scan :=
  { s with
    calls := s.calls + 1
    trace := s.trace ++ [.free s.block] }

theorem grow_cases (heap : Heap) (s : Scan) :
    (s.count < capacity s.timesForRealloc ∧ s.grow heap = again s) ∨
    (capacity s.timesForRealloc ≤ s.count ∧ heap.succeeds s.calls = true ∧
      s.grow heap = again s.grown) ∨
    (capacity s.timesForRealloc ≤ s.count ∧ heap.succeeds s.calls = false ∧
      s.grow heap = exit (s.given, false)) := by
  by_cases hc : capacity s.timesForRealloc ≤ s.count
  · cases hb : heap.succeeds s.calls with
    | true => exact .inr (.inl ⟨hc, rfl, by rw [Scan.grow, if_pos hc, if_pos hb]; rfl⟩)
    | false =>
      exact .inr (.inr ⟨hc, rfl, by rw [Scan.grow, if_pos hc, if_neg (by simp [hb])]; rfl⟩)
  · exact .inl ⟨not_le.mp hc, by rw [Scan.grow, if_neg hc]⟩

theorem grow_counted (heap : Heap) (hs : s.Sized) (hj : s.jumped = false) :
    (∃ s', s.countUp.grow heap = again s' ∧ SameName s s' ∧ s'.count = s.count + 1 ∧ s'.Sized) ∨
    (heap.succeeds s.calls = false ∧ ∃ s', s.countUp.grow heap = exit (s', false) ∧
      (InBounds s'.trace ↔ InBounds s.trace)) := by
  have hcount : s.countUp = { s with count := s.count + 1 } := by simp [Scan.countUp, hj]
  rw [hcount]
  rcases grow_cases heap { s with count := s.count + 1 } with
    ⟨hc, hg⟩ | ⟨hc, -, hg⟩ | ⟨-, hb, hg⟩
  · refine .inl ⟨_, hg, ⟨rfl, rfl, rfl, Iff.rfl⟩, rfl, ?_⟩
    simp only [Scan.Sized, capacity, initSize, increment] at hs hc ⊢
    omega
  · refine .inl ⟨_, hg, ⟨rfl, rfl, rfl, ?_⟩, rfl, ?_⟩
    · simp [Scan.grown, HeapEvent.InBounds]
    · simp only [Scan.Sized, Scan.grown, capacity, initSize, increment] at hs hc ⊢
      omega
  · exact .inr ⟨hb, _, hg, by simp [Scan.given, HeapEvent.InBounds]⟩

def Scan.take (b : UInt8) (s : Scan) : Scan :=
  { s with
    reader := s.reader + 1
    name := s.name ++ [b]
    trace := s.trace ++ [.store s.block s.name.length (capacity s.timesForRealloc)] }

def Scan.jump (q : ℕ) (s : Scan) : Scan := { s with reader := q, jumped := true }

theorem Scan.Sized.take (h : s.Sized) (b : UInt8) : (s.take b).Sized := h

theorem Scan.Sized.jump (h : s.Sized) (q : ℕ) : (s.jump q).Sized := h

theorem take_inBounds {b : UInt8} : InBounds (s.take b).trace ↔
    InBounds s.trace ∧ s.name.length < capacity s.timesForRealloc := by
  simp [Scan.take]

theorem readTurn_zero (hq : s.reader < bufLen) (h0 : buf.byte s.reader = 0) :
    readTurn heap buf s = done (exit (s, true)) := by
  simp [readTurn, load_of_lt hq, h0]

theorem readTurn_byte (hq : s.reader < bufLen) (hn : buf.byte s.reader ≠ 0)
    (hl : buf.byte s.reader < 192) :
    readTurn heap buf s = done ((s.take (buf.byte s.reader)).countUp.grow heap) := by
  simp [readTurn, load_of_lt hq, hn, Scan.advance, UInt8.not_le.mpr hl, Scan.take]

theorem readTurn_pointer (hq : s.reader + 1 < bufLen) (hp : 192 ≤ buf.byte s.reader) :
    readTurn heap buf s = done ((s.jump (pointerOffset (buf.byte s.reader)
      (buf.byte (s.reader + 1)))).countUp.grow heap) := by
  simp [readTurn, load_of_lt (show s.reader < bufLen by omega), load_of_lt hq, hp,
    not_lt_zero_of_le hp, Scan.advance, Scan.jump]

theorem readTurn_fault (heap : Heap) (h : ¬ InBuffer buf s.reader) :
    ∃ i, readTurn heap buf s = fault (.readOutside i) := by
  by_cases hq : s.reader < bufLen
  · obtain ⟨hp, hle⟩ : 192 ≤ buf.byte s.reader ∧ bufLen ≤ s.reader + 1 := by
      simpa [InBuffer, hq] using h
    exact ⟨_, by
      simp [readTurn, load_of_lt hq, load_of_le hle, hp, not_lt_zero_of_le hp, Scan.advance]; rfl⟩
  · exact ⟨_, by simp [readTurn, load_of_le (not_lt.mp hq)]; rfl⟩

inductive Advance (buf : RecvBuf) (s : Scan) : Scan → Prop
  | take : s.reader < bufLen → buf.byte s.reader ≠ 0 → buf.byte s.reader < 192 →
      Advance buf s (s.take (buf.byte s.reader))
  | jump : s.reader + 1 < bufLen → 192 ≤ buf.byte s.reader →
      Advance buf s (s.jump (pointerOffset (buf.byte s.reader) (buf.byte (s.reader + 1))))

theorem readTurn_done {r : Turn Scan (Scan × Bool)} (h : readTurn heap buf s = done r) :
    (s.reader < bufLen ∧ buf.byte s.reader = 0 ∧ r = exit (s, true)) ∨
    ∃ t, Advance buf s t ∧ r = t.countUp.grow heap := by
  by_cases hb : InBuffer buf s.reader
  · by_cases h0 : buf.byte s.reader = 0
    · rw [readTurn_zero hb.1 h0] at h
      exact .inl ⟨hb.1, h0, (done.inj h).symm⟩
    · by_cases hp : 192 ≤ buf.byte s.reader
      · rw [readTurn_pointer (hb.2 hp) hp] at h
        exact .inr ⟨_, .jump (hb.2 hp) hp, (done.inj h).symm⟩
      · rw [readTurn_byte hb.1 h0 (UInt8.not_le.mp hp)] at h
        exact .inr ⟨_, .take hb.1 h0 (UInt8.not_le.mp hp), (done.inj h).symm⟩
  · obtain ⟨i, hi⟩ := readTurn_fault heap hb
    rw [hi] at h
    cases h

theorem readTurn_next (hn : Next (readTurn heap buf) s s') :
    ∃ t, Advance buf s t ∧ (s' = t.countUp ∨ s' = t.countUp.grown) := by
  rcases readTurn_done hn with ⟨-, -, h⟩ | ⟨t, ht, h⟩
  · cases h
  · rcases grow_cases heap t.countUp with ⟨-, hg⟩ | ⟨-, -, hg⟩ | ⟨-, -, hg⟩ <;> rw [hg] at h
    · exact ⟨t, ht, .inl (again.inj h)⟩
    · exact ⟨t, ht, .inr (again.inj h)⟩
    · cases h

theorem readTurn_successor (heap : Heap) (hs : s.Sized) (hq : Successor buf s.reader q') :
    (∃ s', readTurn heap buf s = done (again s') ∧ s'.reader = q' ∧ s'.Sized) ∨
    ((∃ k, heap.succeeds k = false) ∧
      ∃ s', readTurn heap buf s = done (exit (s', false))) := by
  generalize hr : s.reader = r at hq
  cases hq with
  | byte hq hn hl =>
    subst hr
    rw [readTurn_byte hq hn hl]
    cases hj : (s.take (buf.byte s.reader)).jumped with
    | true =>
      rw [grow_jumped (hs.take _) hj]
      exact .inl ⟨_, rfl, rfl, hs.take _⟩
    | false =>
      rcases grow_counted heap (hs.take (buf.byte s.reader)) hj with
        ⟨s', he, hn', _, hz⟩ | ⟨hf, s', he, _⟩
      · exact .inl ⟨s', by rw [he], hn'.reader, hz⟩
      · exact .inr ⟨⟨_, hf⟩, s', by rw [he]⟩
  | pointer hq hp =>
    subst hr
    rw [readTurn_pointer hq hp, grow_jumped (hs.jump _) rfl]
    exact .inl ⟨_, rfl, rfl, hs.jump _⟩

structure Collected (buf : RecvBuf) (s : Scan) (w : Bytes) (s' : Scan) : Prop where
  name : s'.name = s.name ++ w
  sized : s'.Sized
  count : s'.count = if s.jumped then s.count else s.count + inlineLength buf s.reader
  jumped : s'.jumped =
    (s.jumped || decide (192 ≤ buf.byte (s.reader + inlineLength buf s.reader)))
  inBounds : (s.jumped = false → s.count = s.name.length + 1) →
    (InBounds s'.trace ↔ InBounds s.trace ∧
      (w = [] ∨ s'.name.length ≤ capacity s'.timesForRealloc))

theorem Collected.nil (hs : s.Sized) (h0 : buf.byte s.reader = 0) : Collected buf s [] s where
  name := by simp
  sized := hs
  count := by simp [inlineLength_stop (.inl h0)]
  jumped := by simp [inlineLength_stop (.inl h0), h0]
  inBounds := by simp

theorem Collected.jump (hp : 192 ≤ buf.byte s.reader)
    (h : Collected buf (s.jump q) w s') : Collected buf s w s' where
  name := h.name
  sized := h.sized
  count := by
    rw [h.count, inlineLength_stop (.inr hp)]
    simp [Scan.jump]
  jumped := by
    rw [h.jumped, inlineLength_stop (.inr hp)]
    simp [Scan.jump, hp]
  inBounds _ := h.inBounds (by simp [Scan.jump])

theorem Collected.take_jumped (hs : s.Sized) (hj : s.jumped = true)
    (h : Collected buf (s.take (buf.byte s.reader)) w s') :
    Collected buf s (buf.byte s.reader :: w) s' where
  name := by rw [h.name]; simp [Scan.take]
  sized := h.sized
  count := by
    rw [h.count]
    simp [Scan.take, hj]
  jumped := by
    rw [h.jumped]
    simp [Scan.take, hj]
  inBounds _ := by
    have hcount : s'.count = s.count := by rw [h.count]; simp [Scan.take, hj]
    have hcap : capacity s'.timesForRealloc = capacity s.timesForRealloc := by
      rw [h.sized.capacity_eq, hs.capacity_eq, hcount]
    have hlen : s'.name.length = s.name.length + 1 + w.length := by
      rw [h.name]
      simp [Scan.take]
      omega
    rw [h.inBounds (by simp [Scan.take, hj]), take_inBounds, hcap, hlen]
    simp only [reduceCtorEq, false_or, ← List.length_eq_zero_iff]
    constructor
    · rintro ⟨⟨hb, hlt⟩, hw⟩
      exact ⟨hb, by omega⟩
    · rintro ⟨hb, hle⟩
      exact ⟨⟨hb, by omega⟩, by omega⟩

theorem Collected.take_counted {t : Scan} (hs : s.Sized) (hj : s.jumped = false)
    (hn : buf.byte s.reader ≠ 0) (hl : buf.byte s.reader < 192)
    (hname : SameName (s.take (buf.byte s.reader)) t) (hcount : t.count = s.count + 1)
    (h : Collected buf t w s') : Collected buf s (buf.byte s.reader :: w) s' := by
  have hr : t.reader = s.reader + 1 := hname.reader
  have hlen : t.name = s.name ++ [buf.byte s.reader] := hname.name
  have htj : t.jumped = false := hname.jumped.trans hj
  have hi := inlineLength_byte hn hl
  have hc : s'.count = s.count + inlineLength buf s.reader := by
    rw [h.count, htj, hr, hcount, hi]
    simp only [Bool.false_eq_true, if_false]
    omega
  refine ⟨by rw [h.name, hlen]; simp, h.sized, by simp [hc, hj], ?_, fun hcn => ?_⟩
  · rw [h.jumped, htj, hj, hr, hi]
    simp only [Bool.false_or, show s.reader + (inlineLength buf (s.reader + 1) + 1) =
      s.reader + 1 + inlineLength buf (s.reader + 1) by omega]
  · have hcn := hcn hj
    have hlt := lt_capacityFor s.count
    have hmono : capacityFor (s.count + 1) ≤ capacityFor s'.count :=
      capacityFor_mono (by omega)
    have hlt' := lt_capacityFor (s.count + 1)
    have hlen' : s'.name.length = s.name.length + 1 + w.length := by
      rw [h.name, hlen]
      simp
      omega
    rw [h.inBounds (fun _ => by rw [hcount, hcn, hlen]; simp), hname.inBounds, take_inBounds,
      hs.capacity_eq, h.sized.capacity_eq, hlen']
    simp only [reduceCtorEq, false_or, ← List.length_eq_zero_iff]
    constructor
    · rintro ⟨⟨hb, _⟩, hw⟩
      exact ⟨hb, by omega⟩
    · rintro ⟨hb, hle⟩
      exact ⟨⟨hb, by omega⟩, by omega⟩

/-- Before a jump, the count is one ahead of the collected bytes. -/
def Scan.Counted (s : Scan) : Prop := s.jumped = false → s.count = s.name.length + 1

inductive ReadEnd (heap : Heap) (buf : RecvBuf) (s : Scan) (w : Bytes) : Scan × Bool → Prop
  | collected {s' : Scan} : Collected buf s w s' → ReadEnd heap buf s w (s', true)
  | refused {s' : Scan} : (∃ k, heap.succeeds k = false) → s.jumped = false →
      (InBounds s.trace → InBounds s'.trace) → ReadEnd heap buf s w (s', false)

theorem ReadEnd.jump {r : Scan × Bool} (hp : 192 ≤ buf.byte s.reader)
    (h : ReadEnd heap buf (s.jump q) w r) : ReadEnd heap buf s w r := by
  cases h with
  | collected hc => exact .collected (hc.jump hp)
  | refused _ hj => simp [Scan.jump] at hj

theorem ReadEnd.take_jumped {r : Scan × Bool} (hs : s.Sized) (hj : s.jumped = true)
    (h : ReadEnd heap buf (s.take (buf.byte s.reader)) w r) :
    ReadEnd heap buf s (buf.byte s.reader :: w) r := by
  cases h with
  | collected hc => exact .collected (hc.take_jumped hs hj)
  | refused _ h => simp [Scan.take, hj] at h

theorem take_fits {b : UInt8} (hs : s.Sized) (hcn : s.Counted) (hj : s.jumped = false)
    (hb : InBounds s.trace) : InBounds (s.take b).trace := by
  have hlt := lt_capacityFor s.count
  have hcount := hcn hj
  rw [take_inBounds, hs.capacity_eq]
  exact ⟨hb, by omega⟩

theorem jump_counted : (s.jump q).Counted := by simp [Scan.Counted, Scan.jump]

theorem SameName.counted {b : UInt8} {t : Scan} (h : SameName (s.take b) t)
    (hcount : t.count = s.count + 1) (hcn : s.Counted) (hj : s.jumped = false) : t.Counted := by
  intro _
  have hname : t.name = s.name ++ [b] := h.name
  rw [hcount, hcn hj, hname, List.length_append, List.length_singleton]

/-- On a name that ends, the reading loop ends, whatever the allocator does. -/
theorem read_returns (heap : Heap) (h : Spells buf q w) :
    ∀ s : Scan, s.reader = q → s.Sized → s.Counted →
      ∃ r, Returns (fun n => loop (readTurn heap buf) n s) r ∧ ReadEnd heap buf s w r := by
  induction h with
  | nil hq h0 =>
    rintro s rfl hs -
    exact ⟨_, returns_of_exit (readTurn_zero hq h0), .collected (.nil hs h0)⟩
  | byte hq hn hl _ ih =>
    rintro s rfl hs hcn
    have ht : readTurn heap buf s = _ := readTurn_byte hq hn hl
    cases hj : s.jumped with
    | true =>
      rw [grow_jumped (hs.take _) hj] at ht
      obtain ⟨r, hr, he⟩ := ih _ rfl (hs.take _) (by simp [Scan.Counted, Scan.take, hj])
      exact ⟨r, Next.returns ht hr, he.take_jumped hs hj⟩
    | false =>
      have hfit := take_fits (b := buf.byte s.reader) hs hcn hj
      rcases grow_counted heap (hs.take (buf.byte s.reader)) hj with
        ⟨t, he, hname, hcount, hz⟩ | ⟨hf, t, he, hb⟩
      · rw [he] at ht
        obtain ⟨r, hr, he⟩ := ih t hname.reader hz (hname.counted hcount hcn hj)
        refine ⟨r, Next.returns ht hr, ?_⟩
        cases he with
        | collected hc => exact .collected (hc.take_counted hs hj hn hl hname hcount)
        | refused hf _ hi => exact .refused hf hj fun hb => hi (hname.inBounds.mpr (hfit hb))
      · rw [he] at ht
        exact ⟨_, returns_of_exit ht, .refused ⟨_, hf⟩ hj fun h => hb.mpr (hfit h)⟩
  | pointer hq hp _ ih =>
    rintro s rfl hs -
    have ht : readTurn heap buf s = _ := readTurn_pointer hq hp
    rw [grow_jumped (hs.jump _) rfl] at ht
    obtain ⟨r, hr, he⟩ := ih (s.jump (pointerOffset _ _)) rfl (hs.jump _) jump_counted
    exact ⟨r, Next.returns ht hr, he.jump hp⟩

end QyUtil.Dns
