import QyUtil.Bytes.Cutting
import QyUtil.Http.Text

/-! # Splitting

`split_string` cuts its string at every occurrence of the target and leaves out an empty
last piece. The text behind the last occurrence is only stored when there has been one, so
that of a string without the target there is no piece at all.
-/

namespace QyUtil.Http

open Loops Outcome Turn Bytes Search Cutting

variable {str target : Bytes} {ps : List Bytes} {prePos : ℕ} {result : List Bytes}

/-- What a split should give: the pieces, without an empty last one. -/
structure SplitAt (target str : Bytes) (result : List Bytes) : Prop where
  pieces : ∃ ps, Cuts target str ps ∧ result = dropEmptyLast ps
  clean : ∀ p ∈ result, ¬ target <:+: p
  joined : target.intercalate result = str ∨ target.intercalate result ++ target = str

theorem splitAt_of_cuts (h : Cuts target str ps) (ht : target ≠ []) (hocc : target <:+: str) :
    SplitAt target str (dropEmptyLast ps) := by
  have hone : 1 < ps.length := by
    have hpos := List.length_pos_iff.mpr h.ne_nil
    have hne : ps.length ≠ 1 := fun h1 =>
      search_eq_none_iff_absent.mp (h.length_eq_one.mp h1) hocc
    omega
  refine ⟨⟨ps, h, rfl⟩, fun p hp => ?_, ?_⟩
  · exact search_eq_none_iff_absent.mp (h.search_piece ht p (mem_of_mem_dropEmptyLast hp))
  · have hjoin := intercalate_dropEmptyLast target hone
    rwa [h.intercalate] at hjoin

theorem splitTurn_piece {rest : Bytes} {i : ℕ} (ht : target ≠ []) (hrest : rest = str.drop prePos)
    (hs : search target rest = some i) (result : List Bytes) :
    Next (splitTurn str target) ⟨prePos, result⟩
      ⟨prePos + (i + target.length), result ++ [rest.take i]⟩ := by
  subst hrest
  have hle := search_le hs
  have hpos := List.length_pos_iff.mpr ht
  rw [List.length_drop] at hle
  have hlt : ¬ str.length ≤ prePos := by omega
  have hfind : find str target prePos = some (i + prePos) := by
    rw [find, if_pos (by omega), hs, Option.map_some]
  simp only [Next, splitTurn, if_neg hlt, hfind, substr_done (not_le.mp hlt).le, done_bind,
    Nat.add_sub_cancel, pure_eq]
  rw [show i + prePos + target.length = prePos + (i + target.length) by omega]

theorem splitTurn_last (h0 : prePos ≠ 0) (hs : search target (str.drop prePos) = none)
    (result : List Bytes) : splitTurn str target ⟨prePos, result⟩ =
      done (exit (result ++ dropEmptyLast [str.drop prePos])) := by
  by_cases hend : str.length ≤ prePos
  · simp [splitTurn, hend, dropEmptyLast]
  · have hle : prePos ≤ str.length := (not_le.mp hend).le
    have hfind : find str target prePos = none := by
      rw [find, if_pos hle, hs, Option.map_none]
    have hrest : dropEmptyLast [str.drop prePos] = [str.drop prePos] := by
      simp [dropEmptyLast, hend]
    simp only [splitTurn, if_neg hend, hfind, if_neg h0, substr_done hle, done_bind, hrest, pure_eq]

theorem splitTurn_cuts {rest : Bytes} (ht : target ≠ []) (h : Cuts target rest ps) :
    ∀ prePos result, prePos ≠ 0 → rest = str.drop prePos →
      Returns (fun k => loop (splitTurn str target) k ⟨prePos, result⟩)
        (result ++ dropEmptyLast ps) := by
  induction h with
  | last hs =>
    rintro prePos result h0 rfl
    exact returns_of_exit (splitTurn_last h0 hs result)
  | @piece rest i ps hs hcuts ih =>
    intro prePos result h0 hrest
    refine (splitTurn_piece ht hrest hs result).returns ?_
    have hnext := ih (prePos + (i + target.length)) (result ++ [rest.take i]) (by omega)
      (by rw [hrest, List.drop_drop])
    rwa [List.append_assoc, List.singleton_append, ← dropEmptyLast_cons hcuts.ne_nil] at hnext

theorem splitString_occurs (ht : target ≠ []) (hocc : target <:+: str)
    (h : Cuts target str ps) : Returns (fun k => splitString k str target) (dropEmptyLast ps) := by
  have hne : str ≠ [] := by
    rintro rfl
    exact ht (List.infix_nil.mp hocc)
  simp only [splitString, if_neg hne]
  cases h with
  | last hs => exact absurd hocc (search_eq_none_iff_absent.mp hs)
  | @piece _ i ps hs hcuts =>
    have hpos := List.length_pos_iff.mpr ht
    refine (splitTurn_piece ht List.drop_zero.symm hs []).returns ?_
    have hrest := splitTurn_cuts ht hcuts (0 + (i + target.length))
      ([] ++ [str.take i]) (by omega) (by rw [Nat.zero_add])
    rwa [List.nil_append, List.singleton_append, ← dropEmptyLast_cons hcuts.ne_nil] at hrest

theorem splitString_absent (hne : str ≠ []) (hocc : ¬ target <:+: str) :
    Returns (fun k => splitString k str target) [] := by
  have hlt : ¬ str.length ≤ 0 := by simpa using hne
  have hfind : find str target 0 = none := by
    rw [find_zero]
    exact search_eq_none_iff_absent.mpr hocc
  simp only [splitString, if_neg hne]
  refine returns_of_exit ?_
  simp only [splitTurn, if_neg hlt, hfind, if_true, pure_eq]

theorem not_splitAt_nil (hne : str ≠ []) (hocc : ¬ target <:+: str) :
    ¬ SplitAt target str [] := by
  intro h
  rcases h.joined with h | h
  · exact hne (by rw [← h, List.intercalate_nil])
  · rw [List.intercalate_nil, List.nil_append] at h
    exact hocc (h ▸ List.infix_rfl)

/-- `split_string` ends. It gives the pieces, without an empty last one, exactly of a string
with the target in it, and of any other string it gives none. -/
theorem splitString_pieces (hne : str ≠ []) (ht : target ≠ []) :
    ∃ result, Returns (fun k => splitString k str target) result ∧
      (SplitAt target str result ↔ target <:+: str) ∧ (¬ target <:+: str → result = []) := by
  obtain ⟨ps, hps⟩ := exists_cuts ht str
  by_cases hocc : target <:+: str
  · exact ⟨dropEmptyLast ps, splitString_occurs ht hocc hps,
      iff_of_true (splitAt_of_cuts hps ht hocc) hocc, fun h => absurd hocc h⟩
  · exact ⟨[], splitString_absent hne hocc, iff_of_false (not_splitAt_nil hne hocc) hocc,
      fun _ => rfl⟩

theorem splitString_pieces_lines : ∃ result,
    Returns (fun k => splitString k (ascii "a\r\n\r\nb\r\n") httpHeaderBreak) result ∧
      SplitAt httpHeaderBreak (ascii "a\r\n\r\nb\r\n") result := by
  obtain ⟨result, hret, hsplit, -⟩ := @splitString_pieces (ascii "a\r\n\r\nb\r\n")
    httpHeaderBreak (by decide) (by decide)
  exact ⟨result, hret, hsplit.mpr ⟨ascii "a", ascii "\r\nb\r\n", by decide⟩⟩

/-- A line without a break is lost. -/
theorem splitString_loses_line : ¬ ∃ result,
    Returns (fun k => splitString k (ascii "a") httpHeaderBreak) result ∧
      SplitAt httpHeaderBreak (ascii "a") result := by
  rintro ⟨result, hret, hsplit⟩
  have habsent : ¬ httpHeaderBreak <:+: ascii "a" := by decide
  obtain rfl := hret.unique (splitString_progressive _ _) (splitString_absent (by decide) habsent)
  exact not_splitAt_nil (by decide) habsent hsplit

end QyUtil.Http
