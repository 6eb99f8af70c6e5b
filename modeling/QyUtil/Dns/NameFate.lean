import QyUtil.Dns.Convert

/-! # The fate of a name

A name is read to its end exactly when its walk stays in the buffer and never
comes back to a position. `ReadName` then returns the number of bytes that the
name takes up, and the string it spells decides whether its stores fit.
-/

namespace QyUtil.Dns

open Loops Outcome Turn Relation

variable {heap : Heap} {buf : RecvBuf} {q q' calls i n : ℕ} {w : Bytes} {s s' : Scan}

theorem Successor.spells (hq : Successor buf q q') (h : Spells buf q' w) :
    ∃ w', Spells buf q w' := by
  cases hq with
  | byte hq hn hl => exact ⟨_, .byte hq hn hl h⟩
  | pointer hq hp => exact ⟨w, .pointer hq hp h⟩

theorem exists_spells_of_walk (hq : ReflTransGen (Successor buf) q q') (h : Spells buf q' w) :
    ∃ w', Spells buf q w' := by
  induction hq using ReflTransGen.head_induction_on with
  | refl => exact ⟨w, h⟩
  | head hs _ ih =>
    obtain ⟨w', hw⟩ := ih
    exact hs.spells hw

theorem readTurn_next_walk (hs : s.Sized) (hn : Next (readTurn heap buf) s s') :
    Successor buf s.reader s'.reader ∧ s'.Sized := by
  by_cases hb : InBuffer buf s.reader
  · rcases hb.cases with ⟨hq, h0⟩ | ⟨q', hq⟩
    · rw [Next, readTurn_zero hq h0] at hn
      cases hn
    · rcases readTurn_successor heap hs hq with ⟨t, ht, rfl, hz⟩ | ⟨-, t, ht⟩
      · obtain rfl := Next.functional (show Next (readTurn heap buf) s t from ht) hn
        exact ⟨hq, hz⟩
      · rw [Next, ht] at hn
        cases hn
  · obtain ⟨k, hk⟩ := readTurn_fault heap hb
    rw [Next, hk] at hn
    cases hn

theorem reach_walk (hs : s.Sized) (h : Reach (readTurn heap buf) s s') :
    ReflTransGen (Successor buf) s.reader s'.reader ∧ s'.Sized := by
  induction h with
  | refl => exact ⟨.refl, hs⟩
  | tail _ hn ih =>
    obtain ⟨hq, hz⟩ := readTurn_next_walk ih.2 hn
    exact ⟨ih.1.tail hq, hz⟩

theorem walk_reach (hh : heap.Reliable) (hs : s.Sized)
    (h : ReflTransGen (Successor buf) s.reader q) :
    ∃ s', Reach (readTurn heap buf) s s' ∧ s'.reader = q ∧ s'.Sized := by
  induction h with
  | refl => exact ⟨s, .refl, rfl, hs⟩
  | tail _ hq ih =>
    obtain ⟨t, ht, rfl, hz⟩ := ih
    rcases readTurn_successor heap hz hq with ⟨t', ht', hr, hz'⟩ | ⟨⟨k, hk⟩, -⟩
    · exact ⟨t', ht.tail ht', hr, hz'⟩
    · rw [hh] at hk
      cases hk

theorem spells_of_returns (hh : heap.Reliable) (hs : s.Sized) {r : Scan × Bool}
    (hr : Returns (fun n => loop (readTurn heap buf) n s) r) : ∃ w, Spells buf s.reader w := by
  obtain ⟨t, ht, he⟩ := loop_returns_iff.mp hr
  obtain ⟨hw, hz⟩ := reach_walk hs ht
  by_cases hb : InBuffer buf t.reader
  · rcases hb.cases with ⟨hq, h0⟩ | ⟨q', hq⟩
    · exact exists_spells_of_walk hw (.nil hq h0)
    · rcases readTurn_successor heap hz hq with ⟨t', ht', -⟩ | ⟨⟨k, hk⟩, -⟩
      · rw [ht'] at he
        cases he
      · rw [hh] at hk
        cases hk
  · obtain ⟨k, hk⟩ := readTurn_fault heap hb
    rw [hk] at he
    cases he

/-- The walk never needs a byte outside the buffer. -/
def StaysInside (buf : RecvBuf) (q : ℕ) : Prop :=
  ∀ q', ReflTransGen (Successor buf) q q' → InBuffer buf q'

theorem Acyclic.staysInside (h : Acyclic buf q) : StaysInside buf q := fun q' hq => (h q' hq).1

theorem Acyclic.exists_spells (h : Acyclic buf q) : ∃ w, Spells buf q w :=
  exists_spells_iff_acyclic.mpr h

theorem finishName_progressive (heap : Heap) (s : Scan) :
    Progressive fun n => finishName n heap s :=
  Progressive.bind (loop_progressive _ _) fun _ => progressive_const _

theorem readName_progressive (heap : Heap) (buf : RecvBuf) (q calls : ℕ) :
    Progressive fun n => readName n heap buf q calls := by
  unfold readName
  split_ifs
  · refine Progressive.bind (loop_progressive _ _) fun ⟨s, ok⟩ => ?_
    cases ok
    · exact progressive_const _
    · exact finishName_progressive heap s
  · exact progressive_const _

/-- The bytes of the name, its terminator and the dots of its labels are inside
the buffer, and there is a last dot to remove. -/
def StoresFit (buf : RecvBuf) (q : ℕ) (w : Bytes) : Prop :=
  w ≠ [] ∧ w.length < capacityFor (inlineLength buf q + 1) ∧
    labelsEnd w ≤ capacityFor (inlineLength buf q + 1)

/-- All stores made for the name at `q` are inside its buffer. -/
def NameFits (buf : RecvBuf) (q : ℕ) : Prop := ∃ w, Spells buf q w ∧ StoresFit buf q w

theorem Spells.fits_iff (h : Spells buf q w) : NameFits buf q ↔ StoresFit buf q w := by
  constructor
  · rintro ⟨w', h', hf⟩
    rwa [h.functional h']
  · exact fun hf => ⟨w, h, hf⟩

theorem finish_collected (heap : Heap) (h : Spells buf q w)
    (hc : Collected buf (.start q calls) w s) :
    ∃ r, Returns (fun n => finishName n heap s) r ∧ r.name.isSome ∧
      r.count = wireLength buf q ∧ (InBounds r.trace ↔ StoresFit buf q w) := by
  have hname : s.name = w := hc.name
  have hcount : s.count = inlineLength buf q + 1 := by
    rw [hc.count]
    simp [Scan.start, Nat.add_comm]
  have hcap : capacity s.timesForRealloc = capacityFor (inlineLength buf q + 1) := by
    rw [hc.sized.capacity_eq, hcount]
  obtain ⟨r, hr, hsome, hrc, -, htrace⟩ := finishName_returns heap (s := s)
    (fun b hb => (h.mem b (hname ▸ hb)).1)
  refine ⟨r, hr, hsome, ?_, ?_⟩
  · rw [hrc, Scan.finalCount, hc.jumped, hcount, wireLength]
    by_cases h0 : buf.byte (q + inlineLength buf q) = 0
    · simp [Scan.start, h0]
    · simp [Scan.start, h0, h.stop.resolve_left h0]
  · rw [htrace, hcap, hname, hc.inBounds (fun _ => rfl), hname, hcap]
    have hstart : InBounds (Scan.start q calls).trace := by
      simp [Scan.start, InBounds, HeapEvent.InBounds, capacity, initSize]
    constructor
    · rintro ⟨-, h⟩
      exact h
    · rintro ⟨h1, h2, h3⟩
      exact ⟨⟨hstart, .inr h2.le⟩, h1, h2, h3⟩

/-- On a name that ends `ReadName` returns: with `*_count` as the number of bytes
the name takes up, or with `NULL` when the allocator fails. -/
theorem readName_returns (heap : Heap) (h : Spells buf q w) (calls : ℕ) :
    ∃ r, Returns (fun n => readName n heap buf q calls) r ∧
      ((r.name.isSome ∧ r.count = wireLength buf q ∧ (InBounds r.trace ↔ StoresFit buf q w)) ∨
        ((∃ k, heap.succeeds k = false) ∧ InBounds r.trace)) := by
  unfold readName
  cases hk : heap.succeeds calls with
  | false =>
    simp only [Bool.false_eq_true, if_false]
    exact ⟨_, ⟨0, rfl⟩, .inr ⟨⟨_, hk⟩, by simp [InBounds]⟩⟩
  | true =>
    simp only [if_true]
    obtain ⟨r, hr, he⟩ := read_returns heap h (.start q calls) rfl (start_sized q calls)
      (fun _ => rfl)
    cases he with
    | @collected s hc =>
      obtain ⟨r, hr', hfacts⟩ := finish_collected heap h hc
      exact ⟨r, Returns.bind (a := (s, true)) (loop_progressive _ _)
        (finishName_progressive heap s) hr hr', .inl hfacts⟩
    | @refused s hf _ hi =>
      refine ⟨_, Returns.bind (a := (s, false)) (loop_progressive _ _) (progressive_const _) hr
        ⟨0, rfl⟩, .inr ⟨hf, hi ?_⟩⟩
      simp [Scan.start, InBounds, HeapEvent.InBounds, capacity, initSize]

theorem readName_returns_reliable (hh : heap.Reliable) (h : Spells buf q w) (calls : ℕ) :
    ∃ r, Returns (fun n => readName n heap buf q calls) r ∧ r.name.isSome ∧
      r.count = wireLength buf q ∧ (InBounds r.trace ↔ StoresFit buf q w) := by
  obtain ⟨r, hr, hfacts | ⟨⟨k, hk⟩, -⟩⟩ := readName_returns heap h calls
  · exact ⟨r, hr, hfacts⟩
  · rw [hh] at hk
    cases hk

/-- With a reliable heap, the reading loop comes to the end of the name, needs a
byte outside the buffer, or goes round in circles. -/
theorem read_fate (hh : heap.Reliable) (buf : RecvBuf) (q calls : ℕ) :
    Acyclic buf q ∨
    (¬ StaysInside buf q ∧
      ∃ e, Faults (fun n => loop (readTurn heap buf) n (.start q calls)) e) ∨
    (StaysInside buf q ∧ ¬ Acyclic buf q ∧
      Diverges fun n => loop (readTurn heap buf) n (.start q calls)) := by
  have hz := start_sized q calls
  by_cases ha : Acyclic buf q
  · exact .inl ha
  by_cases hi : StaysInside buf q
  · refine .inr (.inr ⟨hi, ha, ?_⟩)
    rcases returns_or_faults_or_diverges fun n => loop (readTurn heap buf) n (.start q calls)
      with ⟨r, hr⟩ | ⟨e, he⟩ | hd
    · exact absurd (exists_spells_iff_acyclic.mp (spells_of_returns hh hz hr)) ha
    · obtain ⟨t, ht, hf⟩ := loop_faults_iff.mp he
      obtain ⟨hw, hzt⟩ := reach_walk hz ht
      rcases (hi _ hw).cases with ⟨hq, h0⟩ | ⟨q', hq⟩
      · rw [readTurn_zero hq h0] at hf
        cases hf
      · rcases readTurn_successor heap hzt hq with ⟨t', ht', -⟩ | ⟨-, t', ht'⟩ <;>
          rw [ht'] at hf <;> cases hf
    · exact hd
  · obtain ⟨q', hq', hb⟩ : ∃ q', ReflTransGen (Successor buf) q q' ∧ ¬ InBuffer buf q' := by
      simpa [StaysInside] using hi
    obtain ⟨t, ht, rfl, -⟩ := walk_reach (s := .start q calls) hh hz hq'
    obtain ⟨k, hk⟩ := readTurn_fault heap hb
    exact .inr (.inl ⟨hi, .readOutside k, loop_faults_iff.mpr ⟨t, ht, hk⟩⟩)

theorem readName_fate (hh : heap.Reliable) (buf : RecvBuf) (q calls : ℕ) :
    (Acyclic buf q ∧ ∃ r, Returns (fun n => readName n heap buf q calls) r ∧
      r.count = wireLength buf q ∧ (InBounds r.trace ↔ NameFits buf q)) ∨
    (¬ StaysInside buf q ∧ ∃ e, Faults (fun n => readName n heap buf q calls) e) ∨
    (StaysInside buf q ∧ ¬ Acyclic buf q ∧ Diverges fun n => readName n heap buf q calls) := by
  rcases read_fate hh buf q calls with ha | ⟨hi, e, he⟩ | ⟨hi, ha, hd⟩
  · obtain ⟨w, hw⟩ := ha.exists_spells
    obtain ⟨r, hr, -, hc, hb⟩ := readName_returns_reliable hh hw calls
    exact .inl ⟨ha, r, hr, hc, hb.trans hw.fits_iff.symm⟩
  · refine .inr (.inl ⟨hi, e, ?_⟩)
    unfold readName
    simp only [if_pos (hh calls)]
    exact he.bind
  · refine .inr (.inr ⟨hi, ha, ?_⟩)
    unfold readName
    simp only [if_pos (hh calls)]
    exact hd.bind

end QyUtil.Dns
