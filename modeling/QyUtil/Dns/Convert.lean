import QyUtil.Dns.Scan

/-! # The conversion pass

Each turn of the pass handles one label: its bytes move one place down and a dot
takes the last place. The stores of the whole pass go to the indices below the
end of the last label, one after the other. When a length byte reaches past the
terminator, the terminator moves down with the label and the pass ends there.
-/

namespace QyUtil.Dns

open Loops Outcome Turn Relation

variable {block cap p : ℕ} {heap : Heap} {buf : RecvBuf} {q calls : ℕ} {w : Bytes} {s : Scan}

/-- The index at which the last label ends, as the length bytes say. -/
def labelsEnd : Bytes → ℕ
  | [] => 0
  | l :: rest => l.toNat + 1 + labelsEnd (rest.drop l.toNat)
termination_by w => w.length
decreasing_by simp only [List.length_drop, List.length_cons]; omega

@[simp] theorem labelsEnd_nil : labelsEnd [] = 0 := by rw [labelsEnd]

theorem labelsEnd_cons (l : UInt8) (rest : Bytes) :
    labelsEnd (l :: rest) = l.toNat + 1 + labelsEnd (rest.drop l.toNat) := by rw [labelsEnd]

theorem length_le_labelsEnd (w : Bytes) : w.length ≤ labelsEnd w := by
  induction w using labelsEnd.induct with
  | case1 => simp
  | case2 l rest ih =>
    rw [labelsEnd_cons]
    simp only [List.length_drop] at ih
    simp only [List.length_cons]
    omega

def storesFrom (block cap i n : ℕ) : List HeapEvent :=
  (List.range' i n).map fun k : ℕ => .store block k cap

theorem storesFrom_append (i m n : ℕ) :
    storesFrom block cap i m ++ storesFrom block cap (i + m) n =
      storesFrom block cap i (m + n) := by
  rw [storesFrom, storesFrom, ← List.map_append, List.range'_append_1, storesFrom]

theorem storesFrom_one (i : ℕ) : storesFrom block cap i 1 = [.store block i cap] := rfl

theorem storesFrom_inBounds (n : ℕ) : InBounds (storesFrom block cap 0 n) ↔ n ≤ cap := by
  simp only [InBounds, storesFrom, List.forall_mem_map, inBounds_store, List.mem_range'_1,
    Nat.zero_le, true_and, Nat.zero_add, Nat.cast_nonneg, Nat.cast_lt]
  constructor
  · intro h
    by_contra hc
    have := h cap (by omega)
    omega
  · intro h k hk
    omega

theorem shift_eq (l : ℕ) (c : Convert) :
    c.shift block cap l =
      { mem := fun k => if c.i ≤ k ∧ k < c.i + l then c.mem (k + 1) else c.mem k
        i := c.i + l
        trace := c.trace ++ storesFrom block cap c.i l } := by
  induction l generalizing c with
  | zero =>
    obtain ⟨mem, i, trace⟩ := c
    simp only [Convert.shift, Nat.add_zero, storesFrom, List.range'_zero, List.map_nil,
      List.append_nil, Convert.mk.injEq, and_true]
    funext k
    rw [if_neg (by omega)]
  | succ l ih =>
    rw [Convert.shift, ih]
    simp only [Convert.mk.injEq]
    refine ⟨?_, by omega, ?_⟩
    · funext k
      simp only [Function.update_apply]
      split_ifs <;> first | rfl | omega | (subst_vars; rfl)
    · rw [List.append_assoc, ← storesFrom_one, storesFrom_append, Nat.add_comm 1 l]

/-- The bytes of the pass: a converted part, the labels that are left, a terminator. -/
structure Pending (p : ℕ) (rest : Bytes) (mem : ℕ → UInt8) (i : ℕ) : Prop where
  length : i + rest.length = p
  converted : ∀ k < i, mem k ≠ 0
  get : ∀ k (h : k < rest.length), mem (i + k) = rest[k]
  nonzero : ∀ b ∈ rest, b ≠ 0
  terminator : mem p = 0

theorem Pending.ne_zero {rest : Bytes} {mem : ℕ → UInt8} {i k : ℕ} (h : Pending p rest mem i)
    (hk : k < p) : mem k ≠ 0 := by
  by_cases hi : k < i
  · exact h.converted k hi
  · obtain ⟨j, rfl⟩ := Nat.exists_eq_add_of_le (not_lt.mp hi)
    have hj : j < rest.length := by have := h.length; omega
    rw [h.get j hj]
    exact h.nonzero _ (List.getElem_mem hj)

theorem Pending.strlen_eq {rest : Bytes} {mem : ℕ → UInt8} {i : ℕ} (h : Pending p rest mem i) :
    Bytes.strlen mem (p + 1) 0 = p :=
  Bytes.strlen_eq (Nat.lt_succ_self p) (fun j hj => by simpa using h.ne_zero hj)
    (by simpa using h.terminator)

def relabel (block cap : ℕ) (c : Convert) (l : ℕ) : Convert where
  mem := Function.update
    (fun k => if c.i ≤ k ∧ k < c.i + l then c.mem (k + 1) else c.mem k) (c.i + l) 46
  i := c.i + l + 1
  trace := c.trace ++ storesFrom block cap c.i (l + 1)

theorem convertTurn_again (block cap : ℕ) {c : Convert} (h : c.i < Bytes.strlen c.mem (p + 1) 0) :
    convertTurn block cap p c = done (again (relabel block cap c (c.mem c.i).toNat)) := by
  rw [convertTurn, if_pos h, shift_eq, relabel, ← storesFrom_append, ← List.append_assoc]
  rfl

theorem convertTurn_exit {c : Convert} (h : Bytes.strlen c.mem (p + 1) 0 ≤ c.i) :
    convertTurn block cap p c = done (exit c) := by
  rw [convertTurn, if_neg (not_lt.mpr h)]
  rfl

theorem Pending.relabel (block cap : ℕ) {l : UInt8} {rest : Bytes} {c : Convert}
    (h : Pending p (l :: rest) c.mem c.i) (hl : l.toNat ≤ rest.length) :
    Pending p (rest.drop l.toNat) (relabel block cap c l.toNat).mem
      (relabel block cap c l.toNat).i := by
  have hlen := h.length
  rw [List.length_cons] at hlen
  refine ⟨?_, fun k hk => ?_, fun k hk => ?_, fun b hb => ?_, ?_⟩
  · simp only [Dns.relabel, List.length_drop]
    omega
  · simp only [Dns.relabel, Function.update_apply] at hk ⊢
    split_ifs with h1 h2
    · decide
    · exact h.ne_zero (by omega)
    · exact h.ne_zero (by omega)
  · simp only [List.length_drop] at hk
    simp only [Dns.relabel, Function.update_apply]
    rw [if_neg (by omega), if_neg (by omega),
      show c.i + l.toNat + 1 + k = c.i + (l.toNat + k + 1) by omega,
      h.get _ (by rw [List.length_cons]; omega)]
    simp only [List.getElem_cons_succ, List.getElem_drop]
  · exact h.nonzero b (List.mem_cons_of_mem _ (List.mem_of_mem_drop hb))
  · simp only [Dns.relabel, Function.update_apply]
    rw [if_neg (by omega), if_neg (by omega)]
    exact h.terminator

theorem Pending.strlen_overrun {l : UInt8} {rest : Bytes} {c : Convert}
    (h : Pending p (l :: rest) c.mem c.i) (hl : rest.length < l.toNat) :
    Bytes.strlen (Dns.relabel block cap c l.toNat).mem (p + 1) 0 = p - 1 := by
  have hlen := h.length
  rw [List.length_cons] at hlen
  refine Bytes.strlen_eq (by omega) (fun j hj => ?_) ?_
  · simp only [Dns.relabel, Function.update_apply, Nat.zero_add]
    rw [if_neg (by omega)]
    split_ifs
    · exact h.ne_zero (by omega)
    · exact h.ne_zero (by omega)
  · simp only [Dns.relabel, Function.update_apply, Nat.zero_add]
    rw [if_neg (by omega), if_pos (by omega), show p - 1 + 1 = p by omega]
    exact h.terminator

theorem Pending.turn (block cap : ℕ) {l : UInt8} {rest : Bytes} {c : Convert}
    (h : Pending p (l :: rest) c.mem c.i) :
    convertTurn block cap p c = done (again (Dns.relabel block cap c l.toNat)) := by
  have hlen := h.length
  rw [List.length_cons] at hlen
  have hget : c.mem c.i = l := h.get 0 (Nat.succ_pos _)
  have hturn := convertTurn_again block cap
    (show c.i < Bytes.strlen c.mem (p + 1) 0 by rw [h.strlen_eq]; omega)
  rwa [hget] at hturn

theorem Pending.overrun_returns (block cap : ℕ) {l : UInt8} {rest : Bytes} {c : Convert}
    (h : Pending p (l :: rest) c.mem c.i) (hl : rest.length < l.toNat) :
    Returns (fun n => loop (convertTurn block cap p) n c) (Dns.relabel block cap c l.toNat) := by
  refine Next.returns (h.turn block cap) (returns_of_exit (convertTurn_exit ?_))
  have hlen := h.length
  rw [List.length_cons] at hlen
  rw [h.strlen_overrun hl]
  simp only [Dns.relabel]
  omega

theorem convert_returns (block cap p : ℕ) (rest : Bytes) : ∀ c : Convert, Pending p rest c.mem c.i →
    ∃ c', Returns (fun n => loop (convertTurn block cap p) n c) c' ∧
      c'.i = c.i + labelsEnd rest ∧
      c'.trace = c.trace ++ storesFrom block cap c.i (labelsEnd rest) := by
  induction rest using labelsEnd.induct with
  | case1 =>
    intro c h
    have hi : c.i = p := by simpa using h.length
    refine ⟨c, returns_of_exit (convertTurn_exit ?_), by simp, by simp [storesFrom]⟩
    rw [h.strlen_eq, hi]
  | case2 l rest ih =>
    intro c h
    by_cases hl : l.toNat ≤ rest.length
    · obtain ⟨c', hr, hi, ht⟩ := ih _ (h.relabel block cap hl)
      refine ⟨c', Next.returns (h.turn block cap) hr, ?_, ?_⟩
      · rw [hi, labelsEnd_cons]
        simp only [relabel]
        omega
      · rw [ht, labelsEnd_cons, relabel, List.append_assoc,
          show c.i + l.toNat + 1 = c.i + (l.toNat + 1) by omega, storesFrom_append]
    · refine ⟨relabel block cap c l.toNat, h.overrun_returns block cap (not_le.mp hl), ?_, ?_⟩
      · rw [labelsEnd_cons, List.drop_eq_nil_of_le (by omega)]
        simp only [relabel, labelsEnd_nil]
        omega
      · rw [labelsEnd_cons, List.drop_eq_nil_of_le (by omega), labelsEnd_nil, Nat.add_zero]
        rfl

theorem terminated_pending (name : Bytes) (garbage : ℕ → UInt8) (h : ∀ b ∈ name, b ≠ 0) :
    Pending name.length name (terminated name garbage) 0 where
  length := Nat.zero_add _
  converted k hk := absurd hk (Nat.not_lt_zero k)
  get k hk := by simp [terminated, hk]
  nonzero := h
  terminator := by simp [terminated]

def Scan.finalCount (s : Scan) : ℕ := if s.jumped then s.count + 1 else s.count

theorem finishName_returns (heap : Heap) (hname : ∀ b ∈ s.name, b ≠ 0) :
    ∃ r, Returns (fun n => finishName n heap s) r ∧ r.name.isSome ∧
      r.count = s.finalCount ∧ r.calls = s.calls ∧
      (InBounds r.trace ↔ InBounds s.trace ∧ s.name ≠ [] ∧
        s.name.length < capacity s.timesForRealloc ∧
        labelsEnd s.name ≤ capacity s.timesForRealloc) := by
  obtain ⟨c, ⟨n, hn⟩, hi, ht⟩ := convert_returns s.block
    (capacity s.timesForRealloc) s.name.length s.name
    { mem := terminated s.name (heap.garbage s.block)
      i := 0
      trace := s.trace ++ [.store s.block s.name.length (capacity s.timesForRealloc)] }
    (terminated_pending s.name _ hname)
  refine ⟨_, ⟨n, by simp only [finishName, hn, done_bind]; rfl⟩, rfl, rfl, rfl, ?_⟩
  have hle := length_le_labelsEnd s.name
  simp only [Nat.zero_add] at hi
  simp only [ht, hi, inBounds_append, inBounds_singleton, inBounds_store, storesFrom_inBounds,
    Nat.cast_nonneg, Nat.cast_lt, true_and, ← List.length_pos_iff]
  constructor
  · rintro ⟨⟨⟨h1, h2⟩, h3⟩, h4, -⟩
    refine ⟨h1, ?_, h2, h3⟩
    by_contra hz
    have : s.name = [] := List.length_eq_zero_iff.mp (by omega)
    simp [this] at h4
  · rintro ⟨h1, h2, h3, h4⟩
    exact ⟨⟨⟨h1, h3⟩, h4⟩, by omega, by omega⟩

end QyUtil.Dns
