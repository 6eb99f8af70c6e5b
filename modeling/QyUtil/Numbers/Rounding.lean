import Mathlib

/-! # Rounding

Rounding to the nearest integer, and to a number of significant bits, with halves going to
the even neighbour. Exponents are not bounded.
-/

namespace Rounding

def halfEven (x : ℚ) : ℤ :=
  if Int.fract x < 1 / 2 ∨ Int.fract x = 1 / 2 ∧ Even ⌊x⌋ then ⌊x⌋ else ⌊x⌋ + 1

/-- The nearest number with `p` significant bits. -/
def toBits (p : ℕ) (x : ℚ) : ℚ :=
  let e := Int.log 2 |x| - p + 1
  halfEven (x / 2 ^ e) * 2 ^ e

theorem abs_halfEven_sub_le (x : ℚ) : |(halfEven x : ℚ) - x| ≤ 1 / 2 := by
  have hx := Int.floor_add_fract x
  have hge := Int.fract_nonneg x
  have hlt := Int.fract_lt_one x
  unfold halfEven
  split_ifs with h
  · have hle : Int.fract x ≤ 1 / 2 := by
      rcases h with h | ⟨h, -⟩
      · exact h.le
      · exact h.le
    rw [abs_le]
    constructor <;> linarith
  · have hhalf : 1 / 2 ≤ Int.fract x := not_lt.mp fun hlt => h (.inl hlt)
    push_cast
    rw [abs_le]
    constructor <;> linarith

/-- The error is at most half of the last bit. -/
theorem abs_toBits_sub_le (p : ℕ) (x : ℚ) : |toBits p x - x| ≤ |x| / 2 ^ p := by
  rcases eq_or_ne x 0 with rfl | hx
  · simp [toBits, halfEven]
  · have hpos : (0 : ℚ) < 2 ^ (Int.log 2 |x| - p + 1) := by positivity
    have hscale : toBits p x - x = ((halfEven (x / 2 ^ (Int.log 2 |x| - p + 1)) : ℚ) -
        x / 2 ^ (Int.log 2 |x| - p + 1)) * 2 ^ (Int.log 2 |x| - p + 1) := by
      rw [sub_mul, div_mul_cancel₀ _ hpos.ne']
      rfl
    have hlog : (2 : ℚ) ^ Int.log 2 |x| ≤ |x| := by
      exact_mod_cast Int.zpow_log_le_self (b := 2) (by decide) (abs_pos.mpr hx)
    calc |toBits p x - x| ≤ 1 / 2 * 2 ^ (Int.log 2 |x| - p + 1) := by
          rw [hscale, abs_mul, abs_of_pos hpos]
          exact mul_le_mul_of_nonneg_right (abs_halfEven_sub_le _) hpos.le
      _ = 2 ^ Int.log 2 |x| / 2 ^ p := by
          rw [zpow_add₀ two_ne_zero, zpow_sub₀ two_ne_zero, zpow_natCast, zpow_one]
          ring
      _ ≤ |x| / 2 ^ p := by gcongr

theorem abs_toBits_le (p : ℕ) (x : ℚ) : |toBits p x| ≤ 2 * |x| := by
  have herr := abs_toBits_sub_le p x
  have hle : |x| / 2 ^ p ≤ |x| := div_le_self (abs_nonneg x) (one_le_pow₀ one_le_two)
  have htri := abs_sub_abs_le_abs_sub (toBits p x) x
  linarith

theorem halfEven_le (x : ℚ) : (halfEven x : ℚ) ≤ x + 1 / 2 := by
  have := (abs_le.mp (abs_halfEven_sub_le x)).2
  linarith

end Rounding
