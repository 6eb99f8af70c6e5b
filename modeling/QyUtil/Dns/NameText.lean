import QyUtil.Dns.Allocation
import QyUtil.Dns.Message

/-! # The text of a name

The conversion pass turns length-prefixed labels into labels with a dot behind
each, and the last dot becomes the terminator. So `ReadName` returns the labels of
a well-formed name with dots between them.
-/

namespace QyUtil.Dns

open Loops Outcome Turn Relation

variable {block cap p : ℕ} {heap : Heap} {buf : RecvBuf} {q calls n : ℕ} {w l : Bytes}
  {ls : List Bytes} {s s' : Scan} {c : Convert} {r : NameRead}

def Convert.slice (c : Convert) (i n : ℕ) : Bytes := (List.range' i n).map c.mem

theorem slice_append (c : Convert) (i m n : ℕ) :
    c.slice i m ++ c.slice (i + m) n = c.slice i (m + n) := by
  rw [Convert.slice, Convert.slice, ← List.map_append, List.range'_append_1, Convert.slice]

theorem slice_congr {c c' : Convert} {i n : ℕ} (h : ∀ k < i + n, c'.mem k = c.mem k) :
    c'.slice i n = c.slice i n :=
  List.map_congr_left fun _ hk => h _ (List.mem_range'_1.mp hk).2

theorem relabel_slice (block cap : ℕ) {rest : Bytes}
    (h : Pending p (UInt8.ofNat l.length :: (l ++ rest)) c.mem c.i) :
    (relabel block cap c l.length).slice c.i (l.length + 1) = l ++ [46] := by
  rw [← slice_append]
  congr 1
  · apply List.ext_getElem (by simp [Convert.slice])
    intro k hk hk'
    have hget := h.get (k + 1) (by simp; omega)
    simp only [Convert.slice, List.getElem_map, List.getElem_range', Nat.one_mul, relabel,
      Function.update_apply]
    rw [if_neg (by omega), if_pos (by omega), Nat.add_assoc, hget]
    simp [List.getElem_append_left hk']
  · simp [Convert.slice, relabel]

theorem relabel_mem_of_lt (block cap : ℕ) (c : Convert) (l : ℕ) {k : ℕ} (hk : k < c.i) :
    (relabel block cap c l).mem k = c.mem k := by
  simp only [relabel, Function.update_apply]
  rw [if_neg (by omega), if_neg (by omega)]

theorem convert_labels (block cap p : ℕ) (hs : ∀ l ∈ ls, LabelSize l) :
    ∀ c : Convert, Pending p (encodeLabels ls) c.mem c.i →
      ∃ c', Returns (fun n => loop (convertTurn block cap p) n c) c' ∧
        c'.i = c.i + (encodeLabels ls).length ∧ (∀ k < c.i, c'.mem k = c.mem k) ∧
        c'.slice c.i (encodeLabels ls).length = ls.flatMap (· ++ [46]) := by
  induction ls with
  | nil =>
    intro c h
    have hi : c.i = p := by simpa using h.length
    exact ⟨c, returns_of_exit (convertTurn_exit (by rw [h.strlen_eq, hi])), rfl,
      fun _ _ => rfl, rfl⟩
  | cons l ls ih =>
    intro c h
    obtain ⟨hl, hls⟩ := List.forall_mem_cons.mp hs
    rw [encodeLabels_cons, List.cons_append] at h
    have hlen := h.length
    rw [List.length_cons, List.length_append] at hlen
    have hget : c.mem c.i = UInt8.ofNat l.length := h.get 0 (Nat.succ_pos _)
    have hturn := convertTurn_again block cap
      (show c.i < Bytes.strlen c.mem (p + 1) 0 by rw [h.strlen_eq]; omega)
    have hnext := h.relabel block cap (by rw [hl.toNat, List.length_append]; omega)
    rw [hget, hl.toNat] at hturn
    rw [hl.toNat, List.drop_left] at hnext
    obtain ⟨c', hr, hi, hframe, hslice⟩ := ih hls _ hnext
    have hstart : (relabel block cap c l.length).i = c.i + (l.length + 1) := rfl
    have hcount : (encodeLabels (l :: ls)).length = l.length + 1 + (encodeLabels ls).length := by
      simp
      omega
    refine ⟨c', Next.returns hturn hr, by rw [hi, hstart, hcount, Nat.add_assoc],
      fun k hk => ?_, ?_⟩
    · rw [hframe k (by rw [hstart]; omega), relabel_mem_of_lt _ _ _ _ hk]
    · rw [hcount, ← slice_append, slice_congr (c := relabel block cap c l.length)
        (fun k hk => hframe k (by rw [hstart]; omega)), relabel_slice block cap h, ← hstart, hslice,
        List.flatMap_cons]

theorem zero_notMem_joined (h0 : ∀ l ∈ ls, (0 : UInt8) ∉ l) :
    (0 : UInt8) ∉ [46].intercalate ls := by
  intro hm
  by_cases hne : ls = []
  · simp [hne] at hm
  · refine zero_not_mem_dotted h0 ?_
    rw [← intercalate_append_dot hne]
    exact List.mem_append_left _ hm

theorem finishName_labels (heap : Heap) (hname : s.name = encodeLabels ls) (hne : ls ≠ [])
    (hs : ∀ l ∈ ls, LabelSize l) (h0 : ∀ l ∈ ls, (0 : UInt8) ∉ l) :
    ∃ r, Returns (fun n => finishName n heap s) r ∧
      r.name = some ⟨s.block, [46].intercalate ls⟩ ∧ r.count = s.finalCount := by
  have hnonzero : ∀ b ∈ s.name, b ≠ 0 := by
    rintro b hb rfl
    exact zero_not_mem_encodeLabels hs h0 (hname ▸ hb)
  have hpending := terminated_pending s.name (heap.garbage s.block) hnonzero
  rw [hname] at hpending
  obtain ⟨c, ⟨n, hn⟩, hi, -, hslice⟩ := convert_labels s.block (capacity s.timesForRealloc)
    (encodeLabels ls).length hs
    { mem := terminated (encodeLabels ls) (heap.garbage s.block)
      i := 0
      trace := s.trace ++ [.store s.block (encodeLabels ls).length (capacity s.timesForRealloc)] }
    hpending
  have hlen := congrArg List.length (intercalate_append_dot hne)
  rw [← hslice] at hlen
  simp only [Convert.slice, List.length_append, List.length_singleton, List.length_map,
    List.length_range', Nat.zero_add] at hi hlen
  rw [Convert.slice, ← intercalate_append_dot hne, ← List.range_eq_range', ← hlen,
    List.range_succ, List.map_append] at hslice
  obtain ⟨hjoin, -⟩ := List.append_inj' hslice rfl
  -- the last dot is overwritten by the terminator
  have hmem (k : ℕ) (hk : k < ([46].intercalate ls).length) : c.mem k ∈ [46].intercalate ls := by
    rw [← hjoin]
    exact List.mem_map_of_mem (List.mem_range.mpr hk)
  have hlast : c.i - 1 = ([46].intercalate ls).length := by
    rw [hi, ← hlen, Nat.add_sub_cancel]
  have hpos : c.i ≠ 0 := by
    rw [hi, ← hlen]
    exact Nat.succ_ne_zero _
  have hstrlen : Bytes.strlen (Function.update c.mem (c.i - 1) 0) ((encodeLabels ls).length + 1) 0 =
      ([46].intercalate ls).length := by
    rw [hlast]
    refine Bytes.strlen_eq (by omega) (fun j hj => ?_) (by simp)
    rw [Nat.zero_add, Function.update_of_ne (Nat.ne_of_lt hj)]
    exact fun hz => zero_notMem_joined h0 (hz ▸ hmem j hj)
  refine ⟨_, ⟨n, by simp only [finishName, hname, hn, done_bind]; rfl⟩, ?_, rfl⟩
  simp only
  rw [if_neg hpos, hstrlen, hlast]
  congr 2
  refine Eq.trans (List.map_congr_left fun k hk => ?_) hjoin
  exact Function.update_of_ne (List.mem_range.mp hk).ne _ _

theorem relabel_lt (block cap : ℕ) {l : ℕ} (h : ∀ k < p, c.mem k < 192) (h0 : c.mem p = 0) :
    ∀ k < p, (relabel block cap c l).mem k < 192 := by
  intro k hk
  simp only [relabel, Function.update_apply]
  split_ifs
  · decide
  · rcases Nat.lt_or_eq_of_le (Nat.succ_le_of_lt hk) with hlt | heq
    · exact h _ hlt
    · rw [show k + 1 = p from heq, h0]
      decide
  · exact h k hk

/-- The pass never makes a byte of 192 or more, whatever the length bytes say. -/
theorem convert_lt (block cap p : ℕ) (rest : Bytes) : ∀ c : Convert, Pending p rest c.mem c.i →
    (∀ k < p, c.mem k < 192) →
    ∃ c', Returns (fun n => loop (convertTurn block cap p) n c) c' ∧
      (∀ k < p, c'.mem k < 192) ∧
      (c'.i = p ∧ c'.mem p = 0 ∨ p < c'.i ∧ 0 < p ∧ c'.mem (p - 1) = 0) := by
  induction rest using labelsEnd.induct with
  | case1 =>
    intro c h hlt
    have hi : c.i = p := by simpa using h.length
    exact ⟨c, returns_of_exit (convertTurn_exit (by rw [h.strlen_eq, hi])), hlt,
      .inl ⟨hi, h.terminator⟩⟩
  | case2 l rest ih =>
    intro c h hlt
    have hlen := h.length
    rw [List.length_cons] at hlen
    have hlt' := relabel_lt block cap (l := l.toNat) hlt h.terminator
    by_cases hl : l.toNat ≤ rest.length
    · obtain ⟨c', hr, hfacts⟩ := ih _ (h.relabel block cap hl) hlt'
      exact ⟨c', Next.returns (h.turn block cap) hr, hfacts⟩
    · have hend : (relabel block cap c l.toNat).i = c.i + l.toNat + 1 := rfl
      refine ⟨relabel block cap c l.toNat, h.overrun_returns block cap (not_le.mp hl), hlt',
        .inr ⟨?_, by omega, ?_⟩⟩
      · omega
      · simp only [relabel, Function.update_apply]
        rw [if_neg (by omega), if_pos (by omega), show p - 1 + 1 = p by omega]
        exact h.terminator

theorem finishName_lt (hname : ∀ b ∈ s.name, b ≠ 0 ∧ b < 192)
    (hr : Returns (fun n => finishName n heap s) r) {b : Block} (hb : r.name = some b) :
    ∀ x ∈ b.bytes, x < 192 := by
  obtain ⟨c, ⟨n, hn⟩, hlt, hend⟩ := convert_lt s.block (capacity s.timesForRealloc) s.name.length
    s.name
    { mem := terminated s.name (heap.garbage s.block)
      i := 0
      trace := s.trace ++ [.store s.block s.name.length (capacity s.timesForRealloc)] }
    (terminated_pending s.name _ fun b hb => (hname b hb).1) (fun k hk => by
      simp only [terminated, if_pos hk, List.getD_eq_getElem _ _ hk]
      exact (hname _ (List.getElem_mem hk)).2)
  obtain rfl := hr.unique (finishName_progressive heap s)
    ⟨n, by simp only [finishName, hn, done_bind]; rfl⟩
  obtain rfl := Option.some.inj hb
  generalize hmem : (if c.i = 0 then c.mem else Function.update c.mem (c.i - 1) 0) = mem
  have hmem_eq (k : ℕ) : mem k = 0 ∨ mem k = c.mem k := by
    rw [← hmem]
    split_ifs
    · exact .inr rfl
    · rw [Function.update_apply]
      split_ifs
      · exact .inl rfl
      · exact .inr rfl
  have hzero {k : ℕ} (h0 : c.mem k = 0) : mem k = 0 := (hmem_eq k).elim id (·.trans h0)
  have hle : Bytes.strlen mem (s.name.length + 1) 0 ≤ s.name.length := by
    rcases hend with ⟨-, h0⟩ | ⟨-, hpos, h0⟩
    · exact Bytes.strlen_le (Nat.lt_succ_self _) (by rw [Nat.zero_add]; exact hzero h0)
    · refine (Bytes.strlen_le (l := s.name.length - 1) (by omega) ?_).trans (Nat.sub_le _ _)
      rw [Nat.zero_add]
      exact hzero h0
  simp only [List.mem_map, List.mem_range]
  rintro x ⟨k, hk, rfl⟩
  rcases hmem_eq k with h | h <;> rw [h]
  · decide
  · exact hlt k (by omega)

@[simp] theorem take_reader (b : UInt8) (s : Scan) : (s.take b).reader = s.reader + 1 := rfl

@[simp] theorem take_name (b : UInt8) (s : Scan) : (s.take b).name = s.name ++ [b] := rfl

@[simp] theorem jump_reader (q : ℕ) (s : Scan) : (s.jump q).reader = q := rfl

@[simp] theorem jump_name (q : ℕ) (s : Scan) : (s.jump q).name = s.name := rfl

@[simp] theorem countUp_reader (s : Scan) : s.countUp.reader = s.reader := by
  unfold Scan.countUp
  split <;> rfl

@[simp] theorem countUp_name (s : Scan) : s.countUp.name = s.name := by
  unfold Scan.countUp
  split <;> rfl

@[simp] theorem grown_reader (s : Scan) : s.grown.reader = s.reader := rfl

@[simp] theorem grown_name (s : Scan) : s.grown.name = s.name := rfl

theorem Advance.spells {t : Scan} {v : Bytes} (h : Advance buf s t) (hv : Spells buf t.reader v) :
    ∃ v', Spells buf s.reader v' ∧ s.name ++ v' = t.name ++ v := by
  cases h with
  | take hq hn hl => exact ⟨_, .byte hq hn hl hv, by simp⟩
  | jump hq hp =>
    rw [jump_reader] at hv
    exact ⟨v, .pointer hq hp hv, by rw [jump_name]⟩

theorem reach_spells (hr : Reach (readTurn heap buf) s s') {v : Bytes}
    (hv : Spells buf s'.reader v) : ∃ v', Spells buf s.reader v' ∧ s.name ++ v' = s'.name ++ v := by
  induction hr using ReflTransGen.head_induction_on with
  | refl => exact ⟨v, hv, rfl⟩
  | head hn _ ih =>
    obtain ⟨v', hv', hname⟩ := ih
    obtain ⟨t, ht, he⟩ := readTurn_next hn
    rcases he with rfl | rfl <;>
      simp only [grown_reader, grown_name, countUp_reader, countUp_name] at hv' hname <;>
      obtain ⟨v'', hv'', hname'⟩ := ht.spells hv' <;>
      exact ⟨v'', hv'', hname'.trans hname⟩

theorem name_eq (h : Spells buf q w) (hr : Reach (readTurn heap buf) (.start q calls) s)
    (hq : s.reader < bufLen) (h0 : buf.byte s.reader = 0) : s.name = w := by
  obtain ⟨v, hv, hname⟩ := reach_spells hr (.nil hq h0)
  rw [List.append_nil] at hname
  rw [← hname]
  exact hv.functional h

theorem readName_text (h : Spells buf q (encodeLabels ls)) (hne : ls ≠ [])
    (hs : ∀ l ∈ ls, LabelSize l) (h0 : ∀ l ∈ ls, (0 : UInt8) ∉ l)
    (hm : ∀ u ≤ growths buf q, heap.succeeds (calls + u) = true) :
    ∃ r b, Returns (fun k => readName k heap buf q calls) r ∧
      r.name = some ⟨b, [46].intercalate ls⟩ ∧ r.count = wireLength buf q := by
  obtain ⟨r, hr, -⟩ := readName_returns heap h calls
  rcases readName_exits hr with ⟨hf, -⟩ | ⟨-, s, hreach, hscan, ⟨hq, hz, hfinish⟩ |
    ⟨t, -, ht, -⟩⟩
  · have hgrant := hm 0 (Nat.zero_le _)
    rw [Nat.add_zero, hf] at hgrant
    cases hgrant
  · obtain ⟨r', hr', hname, hcount⟩ := finishName_labels heap (name_eq h hreach hq hz) hne hs h0
    obtain rfl := hr'.unique (finishName_progressive heap s) hfinish
    exact ⟨r', s.block, hr, hname, hcount.trans (hscan.finalCount hz).1⟩
  · have hgrant := hm (t + 1) ht.lt
    rw [← Nat.add_assoc, Nat.add_right_comm, ht.refused] at hgrant
    cases hgrant

theorem Spells.inlineLength_le (h : Spells buf q w) : inlineLength buf q ≤ w.length := by
  induction h with
  | nil _ h0 => rw [inlineLength_stop (.inl h0)]; exact Nat.zero_le _
  | byte _ hn hl _ ih => rw [inlineLength_byte hn hl]; exact Nat.succ_le_succ ih
  | pointer _ hp => rw [inlineLength_stop (.inr hp)]; exact Nat.zero_le _

theorem WireName.no_nul {d : Bytes} (h : WireName d q ls n) : ∀ l ∈ ls, (0 : UInt8) ∉ l := by
  induction h with
  | root => simp
  | label _ hb _ _ ih =>
    exact List.forall_mem_cons.mpr ⟨fun hm => absurd (hb 0 hm).1 (by decide), ih⟩
  | pointer _ _ _ ih => exact ih

theorem NameAt.growths_eq (h : NameAt buf.datagram q ls n) : growths buf q = 0 := by
  have hle := h.wire.spells.1.inlineLength_le
  have hlen := h.length_le
  simp only [growths, increment]
  omega

theorem NameAt.readName (h : NameAt buf.datagram q ls n) (hm : heap.succeeds calls = true) :
    ∃ r b, Returns (fun k => Dns.readName k heap buf q calls) r ∧
      r.name = some ⟨b, [46].intercalate ls⟩ ∧ r.count = n := by
  obtain ⟨hspells, hwire⟩ := h.wire.spells
  rw [← hwire]
  refine readName_text hspells h.ne_root h.wire.labelSize h.wire.no_nul fun u hu => ?_
  rw [h.growths_eq] at hu
  rwa [Nat.le_zero.mp hu]

/-- On a name in a message, with compression or without, `ReadName` returns the labels
with dots between them, and counts the bytes that the name takes up. Without memory
it returns `NULL`. -/
theorem readName_labels (heap : Heap) (buf : RecvBuf) (q calls : ℕ) (ls : List Bytes) (n : ℕ)
    (h : NameAt buf.datagram q ls n) :
    ∃ r, Returns (fun k => readName k heap buf q calls) r ∧
      (heap.succeeds calls = true →
        (∃ b, r.name = some ⟨b, [46].intercalate ls⟩) ∧ r.count = n) ∧
      (heap.succeeds calls = false → r.name = none) := by
  cases hm : heap.succeeds calls with
  | true =>
    obtain ⟨r, b, hr, hname, hcount⟩ := h.readName hm
    exact ⟨r, hr, fun _ => ⟨⟨b, hname⟩, hcount⟩, fun hf => absurd hf (by decide)⟩
  | false =>
    refine ⟨⟨none, 1, calls + 1, []⟩, ⟨0, ?_⟩, fun ht => absurd ht (by decide), fun _ => rfl⟩
    simp only [readName, hm, Bool.false_eq_true, if_false, pure_eq]

def compressed : RecvBuf := ⟨[1, 97, 0, 1, 113, 192, 0], by decide⟩

theorem compressed_name : NameAt compressed.datagram 3 [[113], [97]] 4 := by
  have hptr : [192, 0] <+: compressed.datagram.drop 5 := by decide
  have ha : WireName compressed.datagram 0 [[97]] 3 :=
    .label (l := [97]) ⟨by decide, by decide⟩ (by simp) (by decide) (.root (by decide))
  exact ⟨.label (l := [113]) ⟨by decide, by decide⟩ (by simp) (by decide)
    (.pointer hptr (by decide) ha), by decide, by decide⟩

theorem readName_labels_compressed :
    ∃ r, Returns (fun k => readName k plentiful compressed 3 0) r ∧
      (plentiful.succeeds 0 = true → (∃ b, r.name = some ⟨b, [113, 46, 97]⟩) ∧ r.count = 4) ∧
      (plentiful.succeeds 0 = false → r.name = none) :=
  readName_labels plentiful compressed 3 0 [[113], [97]] 4 compressed_name

end QyUtil.Dns
