import QyUtil.Dns.NameFate

/-! # Names read with any allocator

A name buffer grows only while the bytes in place are read, so that the datagram
says how many growths a name asks for. When one of them is refused, or there is no
buffer at all, `ReadName` gives up, and its count is the capacity it had reached.
-/

namespace QyUtil.Dns

open Loops Outcome Turn Relation

variable {heap : Heap} {buf : RecvBuf} {q calls t c k : ℕ} {s s' : Scan}

/-- The number of growths that the name at `q` asks for. -/
def growths (buf : RecvBuf) (q : ℕ) : ℕ := (inlineLength buf q + 1 - 192) / increment

/-- Growth `t` of the name at `q` is the first to be refused. -/
structure Refused (heap : Heap) (buf : RecvBuf) (q calls t : ℕ) : Prop where
  lt : t < growths buf q
  granted : ∀ u < t, heap.succeeds (calls + 1 + u) = true
  refused : heap.succeeds (calls + 1 + t) = false

/-- What `ReadName` makes of the name at `q`: `*_count`, and the number of the next heap call. -/
inductive NameEnd (heap : Heap) (buf : RecvBuf) (q calls : ℕ) : ℕ → ℕ → Prop

  | noBuffer : heap.succeeds calls = false → NameEnd heap buf q calls 1 (calls + 1)

  | refused {t : ℕ} : heap.succeeds calls = true → Refused heap buf q calls t →
      NameEnd heap buf q calls (capacity t) (calls + 2 + t)

  | read : heap.succeeds calls = true →
      (∀ u < growths buf q, heap.succeeds (calls + 1 + u) = true) → Acyclic buf q →
      NameEnd heap buf q calls (wireLength buf q) (calls + 1 + growths buf q)

structure Scanning (heap : Heap) (buf : RecvBuf) (q calls : ℕ) (s : Scan) : Prop where
  sized : s.Sized
  called : s.calls = calls + 1 + s.timesForRealloc
  granted : ∀ u < s.timesForRealloc, heap.succeeds (calls + 1 + u) = true
  nonzero : ∀ b ∈ s.name, b ≠ 0
  inPlace : s.jumped = false → s.reader + 1 = q + s.count ∧
    s.count + inlineLength buf s.reader = inlineLength buf q + 1
  behind : s.jumped = true → s.count = inlineLength buf q + 1 ∧
    192 ≤ buf.byte (q + inlineLength buf q)

theorem start_scanning (heap : Heap) (buf : RecvBuf) (q calls : ℕ) :
    Scanning heap buf q calls (.start q calls) where
  sized := start_sized q calls
  called := rfl
  granted u hu := absurd hu (Nat.not_lt_zero u)
  nonzero := by simp [Scan.start]
  inPlace _ := ⟨rfl, Nat.add_comm _ _⟩
  behind h := by simp [Scan.start] at h

theorem inlineLength_pos (h : 0 < inlineLength buf q) :
    q < bufLen ∧ buf.byte q ≠ 0 ∧ buf.byte q < 192 := by
  have hn : buf.byte q ≠ 0 := fun h0 => by
    rw [inlineLength_stop (.inl h0)] at h
    exact absurd h (Nat.lt_irrefl 0)
  have hl : buf.byte q < 192 := by
    by_contra hp
    rw [inlineLength_stop (.inr (UInt8.not_lt.mp hp))] at h
    exact absurd h (Nat.lt_irrefl 0)
  have hq : q < buf.datagram.length := by
    by_contra hq
    exact hn (byte_eq_zero_of_le (not_lt.mp hq))
  exact ⟨lt_of_lt_of_le hq buf.fits, hn, hl⟩

theorem nonzero_take {b : UInt8} (h : ∀ x ∈ s.name, x ≠ 0) (hb : b ≠ 0) :
    ∀ x ∈ (s.take b).name, x ≠ 0 :=
  List.forall_mem_append.mpr ⟨h, List.forall_mem_singleton.mpr hb⟩

namespace Scanning

variable (h : Scanning heap buf q calls s)
include h

theorem take_jumped {b : UInt8} (hj : s.jumped = true) (hn : b ≠ 0) :
    Scanning heap buf q calls (s.take b) where
  sized := h.sized.take b
  called := h.called
  granted := h.granted
  nonzero := nonzero_take h.nonzero hn
  inPlace hf := by rw [Scan.take, hj] at hf; cases hf
  behind _ := h.behind hj

theorem jump (hp : 192 ≤ buf.byte s.reader) (q' : ℕ) :
    Scanning heap buf q calls (s.jump q') where
  sized := h.sized.jump q'
  called := h.called
  granted := h.granted
  nonzero := h.nonzero
  inPlace hf := by cases hf
  behind _ := by
    cases hj : s.jumped with
    | true => exact h.behind hj
    | false =>
      obtain ⟨hr, hc⟩ := h.inPlace hj
      rw [inlineLength_stop (.inr hp)] at hc
      refine ⟨hc, ?_⟩
      rwa [show q + inlineLength buf q = s.reader by omega]

theorem plain (hj : s.jumped = false) (hn : buf.byte s.reader ≠ 0)
    (hl : buf.byte s.reader < 192) (hq : s.reader < bufLen) :
    (∃ s', Next (readTurn heap buf) s s' ∧ Scanning heap buf q calls s' ∧ s'.jumped = false ∧
      s'.count = s.count + 1) ∨
    (Refused heap buf q calls s.timesForRealloc ∧ capacity s.timesForRealloc = s.count + 1 ∧ ∃ s',
      readTurn heap buf s = done (exit (s', false)) ∧ s'.count = s.count + 1 ∧
      s'.calls = calls + 2 + s.timesForRealloc) := by
  obtain ⟨hr, hc⟩ := h.inPlace hj
  have hi := inlineLength_byte hn hl
  have hs := h.sized
  have hcalled := h.called
  have hnext : s.reader + 1 + 1 = q + (s.count + 1) ∧
      s.count + 1 + inlineLength buf (s.reader + 1) = inlineLength buf q + 1 := by omega
  have hnonzero := nonzero_take h.nonzero hn
  have hcount : (s.take (buf.byte s.reader)).countUp =
      { s.take (buf.byte s.reader) with count := s.count + 1 } := by
    rw [Scan.countUp, if_neg (by simp [Scan.take, hj])]
    rfl
  have hturn : readTurn heap buf s = done _ := readTurn_byte hq hn hl
  have hjumped : ¬ s.jumped = true := by simp [hj]
  rw [hcount] at hturn
  rcases grow_cases heap { s.take (buf.byte s.reader) with count := s.count + 1 } with
    ⟨hcap, hg⟩ | ⟨hcap, hm, hg⟩ | ⟨hcap, hm, hg⟩ <;> rw [hg] at hturn <;>
    simp only [Scan.take, Scan.Sized, capacity, initSize, increment] at hcap hs
  · refine .inl ⟨_, hturn, ⟨?_, hcalled, h.granted, hnonzero, fun _ => hnext, fun hf =>
      absurd hf hjumped⟩, hj, rfl⟩
    simp only [Scan.take, Scan.Sized, increment]
    omega
  · refine .inl ⟨_, hturn, ⟨?_, ?_, ?_, hnonzero, fun _ => hnext, fun hf =>
      absurd hf hjumped⟩, hj, rfl⟩
    · simp only [Scan.grown, Scan.take, Scan.Sized, increment]
      omega
    · simp only [Scan.grown, Scan.take]
      omega
    · intro u hu
      rcases Nat.lt_succ_iff_lt_or_eq.mp hu with hu | hu
      · exact h.granted u hu
      · subst hu
        exact hcalled ▸ hm
  · refine .inr ⟨⟨?_, h.granted, hcalled ▸ hm⟩, ?_, _, hturn, rfl, ?_⟩
    · simp only [growths, increment]
      omega
    · simp only [capacity, initSize, increment]
      omega
    · simp only [Scan.given, Scan.take]
      omega

theorem turn :
    (∃ e, readTurn heap buf s = fault e) ∨
    (s.reader < bufLen ∧ buf.byte s.reader = 0 ∧ readTurn heap buf s = done (exit (s, true))) ∨
    (∃ s', Next (readTurn heap buf) s s' ∧ Scanning heap buf q calls s') ∨
    (∃ t s', Refused heap buf q calls t ∧ readTurn heap buf s = done (exit (s', false)) ∧
      s'.count = capacity t ∧ s'.calls = calls + 2 + t) := by
  by_cases hb : InBuffer buf s.reader
  · by_cases h0 : buf.byte s.reader = 0
    · exact .inr (.inl ⟨hb.1, h0, readTurn_zero hb.1 h0⟩)
    by_cases hp : 192 ≤ buf.byte s.reader
    · have ht : readTurn heap buf s = _ := readTurn_pointer (hb.2 hp) hp
      rw [grow_jumped (h.sized.jump _) rfl] at ht
      exact .inr (.inr (.inl ⟨_, ht, h.jump hp _⟩))
    · have hl := UInt8.not_le.mp hp
      cases hj : s.jumped with
      | true =>
        have ht : readTurn heap buf s = _ := readTurn_byte hb.1 h0 hl
        rw [grow_jumped (h.sized.take _) hj] at ht
        exact .inr (.inr (.inl ⟨_, ht, h.take_jumped hj h0⟩))
      | false =>
        rcases h.plain hj h0 hl hb.1 with ⟨s', hn, hs, -⟩ | ⟨hr, hcap, s', he, hc, hk⟩
        · exact .inr (.inr (.inl ⟨s', hn, hs⟩))
        · exact .inr (.inr (.inr ⟨_, s', hr, he, hc.trans hcap.symm, hk⟩))
  · obtain ⟨i, hi⟩ := readTurn_fault heap hb
    exact .inl ⟨_, hi⟩

theorem next (hn : Next (readTurn heap buf) s s') : Scanning heap buf q calls s' := by
  rcases h.turn with ⟨e, he⟩ | ⟨-, -, he⟩ | ⟨t, ht, hs⟩ | ⟨-, t, -, he, -⟩
  · rw [Next, he] at hn
    cases hn
  · rw [Next, he] at hn
    cases hn
  · rwa [hn.functional ht]
  · rw [Next, he] at hn
    cases hn

theorem finalCount (h0 : buf.byte s.reader = 0) : s.finalCount = wireLength buf q ∧
    s.timesForRealloc = growths buf q := by
  have hs := h.sized
  have hcount : s.count = inlineLength buf q + 1 ∧
      s.finalCount = wireLength buf q := by
    cases hj : s.jumped with
    | true =>
      obtain ⟨hc, hp⟩ := h.behind hj
      exact ⟨hc, by rw [Scan.finalCount, if_pos hj, wireLength, if_neg (not_lt_zero_of_le hp), hc]⟩
    | false =>
      obtain ⟨hr, hc⟩ := h.inPlace hj
      rw [inlineLength_stop (.inl h0)] at hc
      have hend : q + inlineLength buf q = s.reader := by omega
      refine ⟨hc, ?_⟩
      rw [Scan.finalCount, hj, wireLength, hend, if_pos h0]
      exact hc
  exact ⟨hcount.2, by rw [hs, hcount.1, growths]⟩

end Scanning

/-- How `ReadName` comes back: without a buffer, from a refused growth, or by the
conversion of what it has read up to a zero byte. -/
theorem readName_exits {r : NameRead} (hr : Returns (fun n => readName n heap buf q calls) r) :
    (heap.succeeds calls = false ∧ r = ⟨none, 1, calls + 1, []⟩) ∨
    heap.succeeds calls = true ∧ ∃ s, Reach (readTurn heap buf) (.start q calls) s ∧
      Scanning heap buf q calls s ∧
      ((s.reader < bufLen ∧ buf.byte s.reader = 0 ∧ Returns (fun n => finishName n heap s) r) ∨
        ∃ t s', Refused heap buf q calls t ∧ readTurn heap buf s = done (exit (s', false)) ∧
          s'.count = capacity t ∧ s'.calls = calls + 2 + t ∧
          r = ⟨none, s'.count, s'.calls, s'.trace⟩) := by
  unfold readName at hr
  cases hm : heap.succeeds calls with
  | false =>
    obtain ⟨n, hn⟩ := hr
    simp only [hm, Bool.false_eq_true, if_false, pure_eq] at hn
    exact .inl ⟨rfl, (done.inj hn).symm⟩
  | true =>
    simp only [hm, if_true] at hr
    obtain ⟨⟨s, ok⟩, hloop, hrest⟩ := hr.of_bind
    obtain ⟨t, ht, he⟩ := loop_returns_iff.mp hloop
    have hscan : Scanning heap buf q calls t :=
      ht.invariant (start_scanning heap buf q calls) fun _ _ hs hn => hs.next hn
    refine .inr ⟨rfl, t, ht, hscan, ?_⟩
    rcases hscan.turn with ⟨e, hf⟩ | ⟨hq, h0, hx⟩ | ⟨t', ht', -⟩ | ⟨u, t', hu, hx, hc, hk⟩
    · rw [hf] at he
      cases he
    · rw [hx] at he
      obtain ⟨rfl, rfl⟩ := Prod.mk.inj (exit.inj (done.inj he))
      exact .inl ⟨hq, h0, hrest⟩
    · rw [ht'] at he
      cases he
    · rw [hx] at he
      obtain ⟨rfl, rfl⟩ := Prod.mk.inj (exit.inj (done.inj he))
      obtain ⟨n, hn⟩ := hrest
      exact .inr ⟨u, t', hu, hx, hc, hk, (done.inj hn).symm⟩

theorem readName_end {r : NameRead} (hr : Returns (fun n => readName n heap buf q calls) r) :
    NameEnd heap buf q calls r.count r.calls := by
  rcases readName_exits hr with ⟨hm, rfl⟩ | ⟨hm, s, hreach, hscan, ⟨hq, h0, hfinish⟩ |
    ⟨t, s', ht, -, hc, hk, rfl⟩⟩
  · exact .noBuffer hm
  · obtain ⟨r', hr', -, hc, hk, -⟩ := finishName_returns heap hscan.nonzero
    obtain rfl := hr'.unique (finishName_progressive heap s) hfinish
    obtain ⟨hwire, htimes⟩ := hscan.finalCount h0
    obtain ⟨w, hw⟩ :=
      exists_spells_of_walk (reach_walk (start_sized q calls) hreach).1 (.nil hq h0)
    rw [hc, hk, hwire, hscan.called, htimes]
    exact .read hm (htimes ▸ hscan.granted) (exists_spells_iff_acyclic.mp ⟨w, hw⟩)
  · simp only [hc, hk]
    exact .refused hm ht

theorem reach_inPlace {i : ℕ} (hi : i ≤ inlineLength buf q)
    (hg : ∀ u < (i + 1 - 192) / increment, heap.succeeds (calls + 1 + u) = true) :
    ∃ s, Reach (readTurn heap buf) (.start q calls) s ∧ Scanning heap buf q calls s ∧
      s.jumped = false ∧ s.count = i + 1 := by
  induction i with
  | zero => exact ⟨_, .refl, start_scanning heap buf q calls, rfl, rfl⟩
  | succ i ih =>
    have hmono : (i + 1 - 192) / increment ≤ (i + 1 + 1 - 192) / increment :=
      Nat.div_le_div_right (by omega)
    obtain ⟨s, hs, hscan, hj, hc⟩ := ih (by omega) fun u hu => hg u (lt_of_lt_of_le hu hmono)
    have hlen := (hscan.inPlace hj).2
    obtain ⟨hq, hn, hl⟩ := inlineLength_pos (show 0 < inlineLength buf s.reader by omega)
    rcases hscan.plain hj hn hl hq with ⟨s', hnext, hs', hj', hc'⟩ | ⟨hr, hcap, -⟩
    · exact ⟨s', hs.tail hnext, hs', hj', by omega⟩
    · have hsized := hscan.sized
      have hgrant := hg s.timesForRealloc (by
        simp only [capacity, initSize, increment, Scan.Sized] at hcap hsized ⊢
        omega)
      rw [hr.refused] at hgrant
      cases hgrant

theorem NameEnd.returns (h : NameEnd heap buf q calls c k) :
    ∃ r, Returns (fun n => readName n heap buf q calls) r ∧ r.count = c ∧ r.calls = k := by
  cases h with
  | noBuffer hm => exact ⟨_, ⟨0, by simp only [readName, hm, Bool.false_eq_true, if_false]; rfl⟩,
      rfl, rfl⟩
  | @refused t hm hr =>
    have hlt := hr.lt
    simp only [growths, increment] at hlt
    obtain ⟨s, hs, hscan, hj, hc⟩ := @reach_inPlace heap buf q calls (254 + 64 * t) (by omega)
      (fun u hu => hr.granted u (by simp only [increment] at hu; omega))
    have hlen := (hscan.inPlace hj).2
    obtain ⟨hq, hn, hl⟩ := inlineLength_pos (show 0 < inlineLength buf s.reader by omega)
    have htimes : s.timesForRealloc = t := by
      have hsized := hscan.sized
      simp only [Scan.Sized, increment] at hsized
      omega
    rcases hscan.plain hj hn hl hq with ⟨s', -, hs', -, hc'⟩ | ⟨-, hcap, s', he, hc', hk⟩
    · have hsized := hs'.sized
      simp only [Scan.Sized, increment] at hsized
      have hgrant := hs'.granted t (by omega)
      rw [hr.refused] at hgrant
      cases hgrant
    · unfold readName
      simp only [hm, if_true]
      refine ⟨_, Returns.bind (a := (s', false)) (loop_progressive _ _) (progressive_const _)
        (loop_returns_iff.mpr ⟨s, hs, he⟩) ⟨0, rfl⟩, ?_, ?_⟩
      · rw [← htimes, hcap, hc']
      · rw [← htimes, hk]
  | read hm hg ha =>
    obtain ⟨w, hw⟩ := ha.exists_spells
    obtain ⟨r, hr, -⟩ := readName_returns heap hw calls
    refine ⟨r, hr, ?_⟩
    have hend := readName_end hr
    generalize r.count = c at hend ⊢
    generalize r.calls = k at hend ⊢
    cases hend with
    | noBuffer hf =>
      rw [hm] at hf
      cases hf
    | refused _ hr =>
      have hgrant := hg _ hr.lt
      rw [hr.refused] at hgrant
      cases hgrant
    | read => exact ⟨rfl, rfl⟩

end QyUtil.Dns
