import Mathlib

/-! # Searching in strings

`find s t pos` is the least index, from `pos` on, at which `t` occurs in `s`. An
occurrence is found again, at the same index, in every longer string.
-/

namespace Search

variable {α : Type*} [DecidableEq α] {s t : List α} {i : ℕ}

def search (t : List α) : List α → Option ℕ
  | [] => if t = [] then some 0 else none
  | a :: s => if t <+: a :: s then some 0 else (search t s).map (· + 1)

def find (s t : List α) (pos : ℕ) : Option ℕ :=
  if pos ≤ s.length then (search t (s.drop pos)).map (· + pos) else none

theorem search_eq_some :
    search t s = some i ↔ i ≤ s.length ∧ t <+: s.drop i ∧ ∀ j < i, ¬ t <+: s.drop j := by
  induction s generalizing i with
  | nil =>
    simp only [search, List.length_nil, List.drop_nil, List.prefix_nil, Nat.le_zero]
    split_ifs with h
    · simp only [Option.some.injEq, h, not_true_eq_false, imp_false, true_and]
      constructor
      · rintro rfl; simp
      · rintro ⟨rfl, -⟩; rfl
    · simp [h]
  | cons a s ih =>
    simp only [search]
    split_ifs with h
    · constructor
      · intro hi
        obtain rfl := Option.some.inj hi
        exact ⟨Nat.zero_le _, h, by simp⟩
      · rintro ⟨_, _, hj⟩
        cases i with
        | zero => rfl
        | succ i => exact absurd h (hj 0 i.succ_pos)
    · cases i with
      | zero => simp [h]
      | succ i =>
        simp only [Option.map_eq_some_iff, Nat.add_right_cancel_iff, exists_eq_right, ih,
          List.length_cons, Nat.add_le_add_iff_right, List.drop_succ_cons]
        refine and_congr_right fun _ => and_congr_right fun _ => ?_
        constructor
        · intro hj j hlt
          cases j with
          | zero => exact h
          | succ j => exact hj j (by omega)
        · intro hj j hlt
          exact hj (j + 1) (by omega)

theorem search_eq_none : search t s = none ↔ ∀ j ≤ s.length, ¬ t <+: s.drop j := by
  constructor
  · intro h
    by_contra! hc
    obtain ⟨j, ⟨hj, hp⟩, hmin⟩ : ∃ j, (j ≤ s.length ∧ t <+: s.drop j) ∧
        ∀ k < j, ¬ (k ≤ s.length ∧ t <+: s.drop k) :=
      ⟨Nat.find hc, Nat.find_spec hc, fun k hk => Nat.find_min hc hk⟩
    have := search_eq_some.mpr ⟨hj, hp, fun k hk hpk => hmin k hk ⟨by omega, hpk⟩⟩
    simp [this] at h
  · intro h
    cases hs : search t s with
    | none => rfl
    | some i =>
      obtain ⟨hi, hp, _⟩ := search_eq_some.mp hs
      exact absurd hp (h i hi)

theorem search_le (h : search t s = some i) : i + t.length ≤ s.length := by
  obtain ⟨hi, hp, _⟩ := search_eq_some.mp h
  have := hp.length_le
  simp only [List.length_drop] at this
  omega

theorem search_append (h : search t s = some i) (u : List α) :
    search t (s ++ u) = some i := by
  have hle := search_le h
  obtain ⟨hi, hp, hj⟩ := search_eq_some.mp h
  refine search_eq_some.mpr ⟨by simp; omega, ?_, fun j hlt hpj => hj j hlt ?_⟩
  · rw [List.drop_append_of_le_length hi]
    exact hp.trans (List.prefix_append _ _)
  · rw [List.drop_append_of_le_length (by omega)] at hpj
    apply List.prefix_of_prefix_length_le hpj (List.prefix_append _ _)
    simp only [List.length_drop]
    omega

theorem search_eq_none_of_append {u : List α} (h : search t (s ++ u) = none) :
    search t s = none := by
  cases hs : search t s with
  | none => rfl
  | some i =>
    rw [search_append hs u] at h
    cases h

theorem search_take (h : search t s = some i) : search t (s.take (i + t.length)) = some i := by
  have hle := search_le h
  obtain ⟨hi, hp, hj⟩ := search_eq_some.mp h
  refine search_eq_some.mpr ⟨by rw [List.length_take]; omega, ?_, fun j hlt hpj => hj j hlt ?_⟩
  · rw [List.drop_take, Nat.add_sub_cancel_left, ← List.prefix_iff_eq_take.mp hp]
  · rw [List.drop_take] at hpj
    exact hpj.trans (List.take_prefix _ _)

theorem lt_of_search_append {u : List α} (h : search t s = none)
    (hi : search t (s ++ u) = some i) : s.length < i + t.length := by
  by_contra hle
  have htake := search_take hi
  rw [List.take_append_of_le_length (not_lt.mp hle)] at htake
  have hs := search_append htake (s.drop (i + t.length))
  rw [List.take_append_drop, h] at hs
  cases hs

theorem search_append_of_notMem {a : α} (h : a ∉ s) (t u : List α) :
    search (a :: t) (s ++ u) = (search (a :: t) u).map (· + s.length) := by
  induction s with
  | nil => simp
  | cons b s ih =>
    obtain ⟨hb, hs⟩ := not_or.mp (mt List.mem_cons.mpr h)
    have hp : ¬ a :: t <+: b :: (s ++ u) := fun hp => hb (List.cons_prefix_cons.mp hp).1
    rw [List.cons_append, search, if_neg hp, ih hs, Option.map_map, List.length_cons]
    rfl

theorem search_append_cons {a : α} (h : a ∉ s) (t u : List α) :
    search (a :: t) (s ++ (a :: t ++ u)) = some s.length := by
  have hhead : search (a :: t) (a :: t ++ u) = some 0 := if_pos (List.prefix_append (a :: t) u)
  rw [search_append_of_notMem h, hhead, Option.map_some, Nat.zero_add]

theorem search_append_pattern {a : α} (ha : a ∉ t) (h : search (a :: t) s = none) (u : List α) :
    search (a :: t) (s ++ (a :: t ++ u)) = some s.length := by
  refine search_eq_some.mpr ⟨by simp, ?_, fun j hj hp => ?_⟩
  · rw [List.drop_left]
    exact List.prefix_append _ _
  · by_cases hend : j + (a :: t).length ≤ s.length
    · apply search_eq_none.mp h j hj.le
      rw [List.drop_append_of_le_length hj.le] at hp
      refine List.prefix_of_prefix_length_le hp (List.prefix_append _ _) ?_
      rw [List.length_drop]
      omega
    · -- the pattern would have its first letter once more
      obtain ⟨k, hk⟩ : ∃ k, s.length = j + (k + 1) := ⟨s.length - j - 1, by omega⟩
      obtain ⟨v, hv⟩ := hp
      rw [List.length_cons] at hend
      have hget := congrArg (·[k + 1]?) hv
      simp only [List.cons_append, List.getElem?_cons_succ, List.getElem?_drop] at hget
      rw [← hk, List.getElem?_append_right (le_refl _), Nat.sub_self, List.getElem?_cons_zero,
        List.getElem?_append_left (by omega)] at hget
      exact ha (List.mem_of_getElem? hget)

theorem ne_append_of_search (h : search t s = none) (u v : List α) : s ≠ u ++ (t ++ v) := by
  rintro rfl
  apply search_eq_none.mp h u.length (by simp)
  rw [List.drop_left]
  exact List.prefix_append _ _

theorem le_of_search {u v : List α} (h : search t (u ++ (t ++ v)) = some i) : i ≤ u.length := by
  by_contra hlt
  apply (search_eq_some.mp h).2.2 u.length (not_le.mp hlt)
  rw [List.drop_left]
  exact List.prefix_append _ _

theorem find_zero (s t : List α) : find s t 0 = search t s := by
  simp [find]

theorem find_piece {a : α} (h : a ∉ s) (pre rest : List α) :
    find (pre ++ (s ++ a :: rest)) [a] pre.length = some (pre ++ s).length := by
  have hs : search [a] (s ++ a :: rest) = some s.length := search_append_cons h [] rest
  rw [find, if_pos (by simp), List.drop_left, hs, Option.map_some, List.length_append,
    Nat.add_comm]

theorem find_rest {a : α} (h : a ∉ s) (pre : List α) : find (pre ++ s) [a] pre.length = none := by
  rw [find, if_pos (by simp), List.drop_left, ← List.append_nil s, search_append_of_notMem h]
  rfl

theorem find_bounds {pos : ℕ} (h : find s t pos = some i) :
    pos ≤ i ∧ i + t.length ≤ s.length := by
  unfold find at h
  split_ifs at h with hpos
  obtain ⟨j, hj, rfl⟩ := Option.map_eq_some_iff.mp h
  have := search_le hj
  rw [List.length_drop] at this
  omega

theorem not_mem_of_find {a : α} {pos : ℕ} (hpos : pos ≤ s.length) (h : find s [a] pos = none) :
    a ∉ s.drop pos := by
  rw [find, if_pos hpos, Option.map_eq_none_iff, search_eq_none] at h
  intro ha
  obtain ⟨u, v, huv⟩ := List.append_of_mem ha
  apply h u.length (by rw [huv]; simp)
  rw [huv, List.drop_left]
  exact ⟨v, rfl⟩

/-- Padding that avoids the last letter of the pattern creates no occurrence. -/
theorem search_append_replicate {a b : α} (hab : a ≠ b) (n : ℕ) :
    search (t ++ [b]) (s ++ List.replicate n a) = search (t ++ [b]) s := by
  cases hs : search (t ++ [b]) s with
  | some i => exact search_append hs _
  | none =>
    apply search_eq_none.mpr
    intro j _ hp
    have hlen := hp.length_le
    simp only [List.length_append, List.length_singleton, List.length_drop,
      List.length_replicate] at hlen
    -- the last letter of the occurrence tells on which side it ends
    have hb : (s ++ List.replicate n a)[j + t.length]? = some b := by
      obtain ⟨v, hv⟩ := hp
      have := congrArg (·[t.length]?) hv
      simpa only [List.append_assoc, List.getElem?_append_right le_rfl, Nat.sub_self,
        List.singleton_append, List.getElem?_cons_zero, List.getElem?_drop] using this.symm
    by_cases hlt : j + t.length < s.length
    · apply search_eq_none.mp hs j (by omega)
      rw [List.drop_append_of_le_length (by omega)] at hp
      apply List.prefix_of_prefix_length_le hp (List.prefix_append _ _)
      simp only [List.length_append, List.length_singleton, List.length_drop]
      omega
    · rw [List.getElem?_append_right (by omega), List.getElem?_replicate] at hb
      split_ifs at hb
      exact hab (Option.some.inj hb)

end Search
