import Mathlib

/-! # Lists of pairs as text

Pairs `key eq value`, joined by a separator. A list that is not empty, in whose texts
neither letter occurs, is split into its pairs again.
-/

namespace Pairs

variable {α : Type*} {amp eq : α} {ps : List (List α × List α)}
  {k v : List α}

def pairText (eq : α) (p : List α × List α) : List α := p.1 ++ eq :: p.2

def join (amp eq : α) (ps : List (List α × List α)) : List α :=
  [amp].intercalate (ps.map (pairText eq))

theorem intercalate_append {ts : List (List α)} (hne : ts ≠ []) (sep : List α) :
    sep.intercalate ts ++ sep = ts.flatMap (· ++ sep) := by
  induction ts with
  | nil => exact absurd rfl hne
  | cons t ts ih =>
    cases ts with
    | nil => simp
    | cons t' ts =>
      rw [List.intercalate_cons_cons, List.append_assoc, ih (List.cons_ne_nil _ _)]
      simp [List.flatMap_cons]

theorem dropLast_flatMap (hne : ps ≠ []) :
    (ps.flatMap fun p => pairText eq p ++ [amp]).dropLast = join amp eq ps := by
  have h : ps.flatMap (fun p => pairText eq p ++ [amp]) = join amp eq ps ++ [amp] := by
    rw [join, intercalate_append (by simpa using hne), List.flatMap_map]
  rw [h, List.dropLast_concat]

variable [DecidableEq α]

theorem of_mem_splitOn {a : α} {s t : List α} (ht : t ∈ s.splitOn a) :
    a ∉ t ∧ ∀ x ∈ t, x ∈ s := by
  induction s generalizing t with
  | nil =>
    obtain rfl := List.mem_singleton.mp (by rwa [List.splitOn_nil] at ht)
    simp
  | cons x s ih =>
    rw [List.splitOn_cons_eq_if_modifyHead] at ht
    split_ifs at ht with hx
    · rcases List.mem_cons.mp ht with rfl | ht
      · simp
      · exact ⟨(ih ht).1, fun y hy => List.mem_cons_of_mem _ ((ih ht).2 y hy)⟩
    · cases hs : s.splitOn a with
      | nil => exact absurd hs (List.splitOn_ne_nil a s)
      | cons u us =>
        rw [hs] at ht
        rcases List.mem_cons.mp ht with rfl | ht
        · obtain ⟨h1, h2⟩ := ih (hs ▸ List.mem_cons_self)
          have hne : x ≠ a := by simpa using hx
          exact ⟨by simp [h1, hne.symm], List.forall_mem_cons.mpr
            ⟨List.mem_cons_self, fun y hy => List.mem_cons_of_mem _ (h2 y hy)⟩⟩
        · obtain ⟨h1, h2⟩ := ih (hs ▸ List.mem_cons_of_mem _ ht)
          exact ⟨h1, fun y hy => List.mem_cons_of_mem _ (h2 y hy)⟩

theorem length_splitOn (a : α) (s : List α) : (s.splitOn a).length = s.count a + 1 := by
  induction s with
  | nil => simp
  | cons x s ih =>
    rw [List.splitOn_cons_eq_if_modifyHead, List.count_cons]
    split_ifs
    · rw [List.length_cons, ih]
    · rw [List.length_modifyHead, ih, Nat.add_zero]

/-- What stands before the first `eq`, and what behind it. -/
def cutAt (eq : α) (s : List α) : List α × List α :=
  (s.takeWhile (· ≠ eq), (s.dropWhile (· ≠ eq)).tail)

def split (amp eq : α) (s : List α) : List (List α × List α) := (s.splitOn amp).map (cutAt eq)

theorem cutAt_pairText (hk : eq ∉ k) (v : List α) : cutAt eq (pairText eq (k, v)) = (k, v) := by
  have hall : ∀ a ∈ k, decide (a ≠ eq) = true := by
    intro a ha
    rw [decide_eq_true_eq]
    rintro rfl
    exact hk ha
  rw [cutAt, pairText, List.takeWhile_append_of_pos hall, List.dropWhile_append_of_pos hall,
    List.takeWhile_cons_of_neg (by simp), List.dropWhile_cons_of_neg (by simp), List.append_nil,
    List.tail_cons]

/-- Splitting undoes joining. -/
theorem split_join (hne : ps ≠ []) (hsep : amp ≠ eq)
    (hps : ∀ p ∈ ps, amp ∉ p.1 ∧ eq ∉ p.1 ∧ amp ∉ p.2) : split amp eq (join amp eq ps) = ps := by
  have hamp : ∀ t ∈ ps.map (pairText eq), amp ∉ t := by
    intro t ht
    obtain ⟨p, hp, rfl⟩ := List.mem_map.mp ht
    obtain ⟨h1, -, h2⟩ := hps p hp
    simp only [pairText, List.mem_append, List.mem_cons, not_or]
    exact ⟨h1, hsep, h2⟩
  rw [split, join, List.splitOn_intercalate amp hamp (by simpa using hne), List.map_map]
  calc ps.map (cutAt eq ∘ pairText eq) = ps.map id :=
        List.map_congr_left fun p hp => cutAt_pairText (hps p hp).2.1 p.2
    _ = ps := List.map_id ps

end Pairs
