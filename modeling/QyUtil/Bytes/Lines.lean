import QyUtil.Bytes.Search

/-! # Searching in lines

A text of lines that end with a separator. A pattern that shares no letter with the
separator occurs in the text where it occurs in a line, so that the first occurrence is
in the first line that has one.
-/

namespace Lines

open Search

section Joined

variable {α : Type*}

def joined (sep : List α) (lines : List (List α)) : List α := lines.flatMap (· ++ sep)

@[simp] theorem joined_nil (sep : List α) : joined sep [] = [] := rfl

@[simp] theorem joined_cons (sep l : List α) (lines : List (List α)) :
    joined sep (l :: lines) = l ++ (sep ++ joined sep lines) := by
  simp [joined]

end Joined

variable {α : Type*} [DecidableEq α] {sep s t l : List α} {lines : List (List α)} {i : ℕ}

theorem search_append_of_none {u : List α} (h : ∀ j < s.length, ¬ t <+: (s ++ u).drop j) :
    search t (s ++ u) = (search t u).map (· + s.length) := by
  induction s with
  | nil => simp
  | cons a s ih =>
    have hhead : ¬ t <+: a :: (s ++ u) := by simpa using h 0
    have htail (j : ℕ) (hj : j < s.length) : ¬ t <+: (s ++ u).drop j := by
      simpa using h (j + 1) (Nat.succ_lt_succ hj)
    rw [List.cons_append, search, if_neg hhead, ih htail, Option.map_map]
    rfl

theorem ne_nil_of_search (h : search t l = none) : t ≠ [] := by
  rintro rfl
  cases l <;> simp [search] at h

theorem search_append_sep (hne : sep ≠ []) (hsep : ∀ x ∈ t, x ∉ sep) (hl : search t l = none)
    (u : List α) : search t (l ++ (sep ++ u)) = (search t u).map (· + (l ++ sep).length) := by
  have hpos := List.length_pos_iff.mpr (ne_nil_of_search hl)
  have hseppos := List.length_pos_iff.mpr hne
  rw [← List.append_assoc]
  refine search_append_of_none fun j hj hp => ?_
  rw [List.length_append] at hj
  by_cases hin : j + t.length ≤ l.length
  · refine search_eq_none.mp hl j (by omega) ?_
    rw [List.append_assoc, List.drop_append_of_le_length (by omega)] at hp
    exact List.prefix_of_prefix_length_le hp (List.prefix_append _ _) (by simp; omega)
  · -- the occurrence has a letter of the separator
    obtain ⟨k, hkt, hlow, hhigh⟩ :
        ∃ k < t.length, l.length ≤ j + k ∧ j + k < l.length + sep.length := by
      rcases Nat.le_total j l.length with h | h
      · exact ⟨l.length - j, by omega, by omega, by omega⟩
      · exact ⟨0, hpos, h, hj⟩
    obtain ⟨v, hv⟩ := hp
    have hget := congrArg (·[k]?) hv
    simp only [List.getElem?_append_left hkt, List.getElem?_drop, List.append_assoc] at hget
    rw [List.getElem?_append_right hlow, List.getElem?_append_left (by omega),
      List.getElem?_eq_getElem hkt] at hget
    exact hsep t[k] (List.getElem_mem hkt) (List.mem_of_getElem? hget.symm)

theorem search_joined (hne : sep ≠ []) (hsep : ∀ x ∈ t, x ∉ sep)
    (hl : ∀ l ∈ lines, search t l = none) (u : List α) :
    search t (joined sep lines ++ u) = (search t u).map (· + (joined sep lines).length) := by
  induction lines with
  | nil => simp
  | cons l lines ih =>
    obtain ⟨hl₀, hls⟩ := List.forall_mem_cons.mp hl
    rw [joined_cons, List.append_assoc, List.append_assoc, search_append_sep hne hsep hl₀,
      ih hls, Option.map_map]
    congr 1
    funext i
    simp only [Function.comp_apply, List.length_append]
    omega

/-- The first occurrence is the one in the first line that has one. -/
theorem search_joined_line (hne : sep ≠ []) (hsep : ∀ x ∈ t, x ∉ sep)
    (hl : ∀ l ∈ lines, search t l = none) (hi : search t l = some i) (u : List α) :
    search t (joined sep lines ++ (l ++ u)) = some (i + (joined sep lines).length) := by
  rw [search_joined hne hsep hl, search_append hi, Option.map_some]

end Lines
