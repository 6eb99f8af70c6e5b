import QyUtil.Bytes.Search

/-! # Cutting at a pattern

A string is cut at the occurrences of a pattern, from left to right and without
overlaps. The pieces do not have the pattern in them, and with the pattern between
them they are the string again.
-/

namespace Cutting

open Search

variable {α : Type*} [DecidableEq α] {s t p : List α} {ps qs : List (List α)} {i : ℕ}

/-- The pieces that the occurrences of `t` leave of a string. -/
inductive Cuts (t : List α) : List α → List (List α) → Prop

  | last {s : List α} : search t s = none → Cuts t s [s]

  | piece {s : List α} {i : ℕ} {ps : List (List α)} : search t s = some i →
      Cuts t (s.drop (i + t.length)) ps → Cuts t s (s.take i :: ps)

theorem Cuts.ne_nil (h : Cuts t s ps) : ps ≠ [] := by
  cases h <;> simp

theorem Cuts.unique (h : Cuts t s ps) : ∀ {qs}, Cuts t s qs → ps = qs := by
  induction h with
  | last hnone =>
    intro qs h'
    cases h' with
    | last => rfl
    | piece hsome => simp [hnone] at hsome
  | piece hsome _ ih =>
    intro qs h'
    cases h' with
    | last hnone => simp [hsome] at hnone
    | piece hsome' hrest =>
      obtain rfl := Option.some.inj (hsome.symm.trans hsome')
      rw [ih hrest]

theorem exists_cuts (ht : t ≠ []) (s : List α) : ∃ ps, Cuts t s ps := by
  have hpos := List.length_pos_iff.mpr ht
  induction hn : s.length using Nat.strong_induction_on generalizing s with
  | _ n ih =>
    cases hs : search t s with
    | none => exact ⟨[s], .last hs⟩
    | some i =>
      have hle := search_le hs
      obtain ⟨ps, hps⟩ := ih (s.drop (i + t.length)).length
        (by rw [List.length_drop]; omega) _ rfl
      exact ⟨s.take i :: ps, .piece hs hps⟩

theorem search_take_eq_none (ht : t ≠ []) (h : search t s = some i) :
    search t (s.take i) = none := by
  have hpos := List.length_pos_iff.mpr ht
  cases hs : search t (s.take i) with
  | none => rfl
  | some j =>
    have hle := search_le hs
    have hj := search_append hs (s.drop i)
    rw [List.take_append_drop, h] at hj
    obtain rfl := Option.some.inj hj
    rw [List.length_take] at hle
    omega

theorem Cuts.search_piece (h : Cuts t s ps) (ht : t ≠ []) : ∀ p ∈ ps, search t p = none := by
  induction h with
  | last hnone => exact List.forall_mem_singleton.mpr hnone
  | piece hsome _ ih => exact List.forall_mem_cons.mpr ⟨search_take_eq_none ht hsome, ih⟩

theorem Cuts.intercalate (h : Cuts t s ps) : t.intercalate ps = s := by
  induction h with
  | last => exact List.intercalate_singleton
  | @piece s i ps hsome hrest ih =>
    obtain ⟨-, hp, -⟩ := search_eq_some.mp hsome
    rw [List.intercalate_cons_of_ne_nil hrest.ne_nil, ih, ← List.drop_drop,
      List.append_assoc]
    calc s.take i ++ (t ++ (s.drop i).drop t.length) = s.take i ++ s.drop i :=
          congrArg (s.take i ++ ·) (List.prefix_append_drop hp).symm
      _ = s := List.take_append_drop i s

theorem Cuts.length_eq_one (h : Cuts t s ps) : ps.length = 1 ↔ search t s = none := by
  cases h with
  | last hnone => exact iff_of_true rfl hnone
  | piece hsome hrest =>
    have hne := List.length_pos_iff.mpr hrest.ne_nil
    refine iff_of_false ?_ (by simp [hsome])
    rw [List.length_cons]
    omega

theorem search_eq_none_iff_absent : search t s = none ↔ ¬ t <:+: s := by
  constructor
  · rintro h ⟨u, v, rfl⟩
    exact ne_append_of_search h u v (List.append_assoc u t v)
  · intro h
    cases hs : search t s with
    | none => rfl
    | some i =>
      obtain ⟨-, hp, -⟩ := search_eq_some.mp hs
      exact absurd (hp.isInfix.trans (List.drop_suffix i s).isInfix) h

def dropEmptyLast (ps : List (List α)) : List (List α) :=
  if ps.getLast? = some [] then ps.dropLast else ps

theorem dropEmptyLast_cons (hne : ps ≠ []) :
    dropEmptyLast (p :: ps) = p :: dropEmptyLast ps := by
  obtain ⟨q, qs, rfl⟩ := List.exists_cons_of_ne_nil hne
  unfold dropEmptyLast
  rw [List.getLast?_cons_cons, List.dropLast_cons_of_ne_nil hne]
  split_ifs <;> rfl

theorem mem_of_mem_dropEmptyLast (h : p ∈ dropEmptyLast ps) : p ∈ ps := by
  unfold dropEmptyLast at h
  split_ifs at h
  · exact List.dropLast_subset _ h
  · exact h

omit [DecidableEq α] in
theorem intercalate_concat_nil (t : List α) (hne : qs ≠ []) :
    t.intercalate (qs ++ [[]]) = t.intercalate qs ++ t := by
  induction qs with
  | nil => exact absurd rfl hne
  | cons q qs ih =>
    cases qs with
    | nil => simp [List.intercalate_cons_cons]
    | cons q' qs =>
      rw [List.cons_append, List.intercalate_cons_of_ne_nil (by simp), ih (List.cons_ne_nil _ _),
        List.intercalate_cons_cons]
      simp only [List.append_assoc]

theorem intercalate_dropEmptyLast (t : List α) (h : 1 < ps.length) :
    t.intercalate (dropEmptyLast ps) = t.intercalate ps ∨
      t.intercalate (dropEmptyLast ps) ++ t = t.intercalate ps := by
  by_cases hlast : ps.getLast? = some []
  · obtain ⟨qs, rfl⟩ := List.getLast?_eq_some_iff.mp hlast
    have hne : qs ≠ [] := by
      rintro rfl
      simp at h
    right
    rw [dropEmptyLast, if_pos hlast, List.dropLast_concat, intercalate_concat_nil t hne]
  · exact .inl (by rw [dropEmptyLast, if_neg hlast])

end Cutting
