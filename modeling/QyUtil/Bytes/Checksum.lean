import QyUtil.Bytes.Basic

/-! # One's complement sums

Addition with end-around carry of numbers below a base, and the checksum that is
built on it. Folding the carries of an ordinary sum gives the same number as
adding with end-around carry, and a sum that is completed by the complement of
its own residue verifies.
-/

namespace Checksum

variable {m n a b : ℕ} {l : List ℕ}

def add (m a b : ℕ) : ℕ := (a + b) % m + (a + b) / m

def sum (m : ℕ) (l : List ℕ) : ℕ := l.foldl (add m) 0

/-- The number below `m` that is congruent modulo `m - 1`, and zero for zero only. -/
def residue (m n : ℕ) : ℕ := if n = 0 then 0 else (n - 1) % (m - 1) + 1

/-- Add the carries to the number without them. -/
def fold (m n : ℕ) : ℕ := n / m + n % m

theorem residue_zero (m : ℕ) : residue m 0 = 0 := if_pos rfl

theorem residue_pos (hn : 0 < n) : residue m n = (n - 1) % (m - 1) + 1 := if_neg hn.ne'

theorem residue_lt (hm : 2 ≤ m) (n : ℕ) : residue m n < m := by
  unfold residue
  split_ifs
  · omega
  · have := Nat.mod_lt (n - 1) (show 0 < m - 1 by omega)
    omega

theorem residue_of_lt (hn : n < m) : residue m n = n := by
  unfold residue
  split_ifs with h
  · exact h.symm
  · rw [Nat.mod_eq_of_lt (by omega)]
    omega

theorem residue_add_mul (hn : 0 < n) (k : ℕ) : residue m (n + (m - 1) * k) = residue m n := by
  rw [residue_pos (by omega), residue_pos hn, Nat.sub_add_comm hn, Nat.add_mul_mod_self_left]

theorem fold_pos (hn : 0 < n) : 0 < fold m n := by
  by_contra hz
  obtain ⟨h1, h2⟩ : n / m = 0 ∧ n % m = 0 := Nat.add_eq_zero_iff.mp (Nat.eq_zero_of_not_pos hz)
  have hdiv := Nat.div_add_mod n m
  rw [h1, h2, Nat.mul_zero] at hdiv
  omega

theorem residue_fold (hm : 1 ≤ m) (n : ℕ) : residue m (fold m n) = residue m n := by
  rcases Nat.eq_zero_or_pos n with rfl | hn
  · simp [fold]
  · have hsplit : n = fold m n + (m - 1) * (n / m) := by
      have hdiv := Nat.div_add_mod n m
      obtain ⟨c, rfl⟩ := Nat.exists_eq_add_of_le hm
      rw [Nat.add_sub_cancel_left, fold]
      calc n = (1 + c) * (n / (1 + c)) + n % (1 + c) := hdiv.symm
        _ = n / (1 + c) + n % (1 + c) + c * (n / (1 + c)) := by ring
    conv_rhs => rw [hsplit]
    exact (residue_add_mul (fold_pos hn) _).symm

theorem residue_add_left (m a b : ℕ) : residue m (residue m a + b) = residue m (a + b) := by
  rcases Nat.eq_zero_or_pos a with rfl | ha
  · rw [residue_zero]
  · have hsplit : a + b = residue m a + b + (m - 1) * ((a - 1) / (m - 1)) := by
      have hdiv := Nat.div_add_mod (a - 1) (m - 1)
      rw [residue_pos ha]
      omega
    rw [hsplit, residue_add_mul]
    rw [residue_pos ha]
    omega

theorem add_eq (hm : 2 ≤ m) (ha : a < m) (hb : b < m) : add m a b = residue m (a + b) := by
  have hfold : add m a b = fold m (a + b) := Nat.add_comm _ _
  have hlt : fold m (a + b) < m := by
    unfold fold
    rcases Nat.lt_or_ge (a + b) m with h | h
    · rw [Nat.div_eq_of_lt h, Nat.mod_eq_of_lt h]
      omega
    · rw [Nat.div_eq_of_lt_le (k := 1) (by omega) (by omega), Nat.mod_eq_sub_mod h,
        Nat.mod_eq_of_lt (by omega)]
      omega
  rw [hfold, ← residue_fold (by omega), residue_of_lt hlt]

theorem foldl_add (hm : 2 ≤ m) (h : ∀ b ∈ l, b < m) (a : ℕ) :
    l.foldl (add m) (residue m a) = residue m (a + l.sum) := by
  induction l generalizing a with
  | nil => simp
  | cons b l ih =>
    obtain ⟨hb, hl⟩ := List.forall_mem_cons.mp h
    rw [List.foldl_cons, add_eq hm (residue_lt hm a) hb, residue_add_left, ih hl,
      List.sum_cons, Nat.add_assoc]

theorem sum_eq (hm : 2 ≤ m) (h : ∀ b ∈ l, b < m) : sum m l = residue m l.sum := by
  have := foldl_add hm h 0
  rwa [residue_zero, Nat.zero_add] at this

/-- Two folds reach the residue, up to a carry that the second one leaves. -/
theorem fold_twice (hm : 2 ≤ m) (hn : n < m * m) :
    (fold m n + fold m n / m) % m = residue m n := by
  have hdiv : n / m ≤ m - 1 := by
    have := Nat.div_lt_of_lt_mul hn
    omega
  have hmod := Nat.mod_lt n (show 0 < m by omega)
  have hle : fold m n ≤ 2 * (m - 1) := by
    unfold fold
    omega
  rw [← residue_fold (by omega) n]
  generalize fold m n = s at hle ⊢
  rcases Nat.lt_or_ge s m with h | h
  · rw [Nat.div_eq_of_lt h, residue_of_lt h, Nat.add_zero, Nat.mod_eq_of_lt h]
  · obtain ⟨r, rfl⟩ := Nat.exists_eq_add_of_le h
    have hr : residue m (m + r) = r + 1 := by
      rw [show m + r = r + 1 + (m - 1) * 1 by omega, residue_add_mul (Nat.succ_pos r),
        residue_of_lt (by omega)]
    rw [hr, Nat.div_eq_of_lt_le (k := 1) (by omega) (by omega),
      show m + r + 1 = r + 1 + m by omega, Nat.add_mod_right, Nat.mod_eq_of_lt (by omega)]

/-- A number completed by the complement of its residue has residue `m - 1`. -/
theorem residue_complement (hm : 2 ≤ m) (n : ℕ) :
    residue m (m - 1 - residue m n + n) = m - 1 := by
  have hlt := residue_lt hm n
  rcases Nat.eq_zero_or_pos n with rfl | hn
  · rw [residue_zero, Nat.sub_zero, Nat.add_zero, residue_of_lt (by omega)]
  · have hsplit : m - 1 - residue m n + n = m - 1 + (m - 1) * ((n - 1) / (m - 1)) := by
      have hdiv := Nat.div_add_mod (n - 1) (m - 1)
      rw [residue_pos hn] at hlt ⊢
      omega
    rw [hsplit, residue_add_mul (by omega), residue_of_lt (by omega)]

end Checksum

namespace Bytes

/-- The 16-bit words of a byte string, in network order. -/
def words : Bytes → List ℕ
  | a :: b :: rest => be16 a b :: words rest
  | _ => []

/-- A byte string of even length, with a zero byte added where it was odd. -/
def pad (l : Bytes) : Bytes := l ++ List.replicate (l.length % 2) 0

@[simp] theorem words_cons_cons (a b : UInt8) (l : Bytes) :
    words (a :: b :: l) = be16 a b :: words l := rfl

theorem words_lt (l : Bytes) : ∀ w ∈ words l, w < 65536 := by
  induction l using words.induct with
  | case1 a b l ih => exact List.forall_mem_cons.mpr ⟨be16_lt a b, ih⟩
  | case2 l h =>
    rw [words]
    · simp
    · exact h

@[simp] theorem pad_nil : pad [] = [] := rfl

@[simp] theorem pad_singleton (a : UInt8) : pad [a] = [a, 0] := rfl

@[simp] theorem pad_cons_cons (a b : UInt8) (l : Bytes) : pad (a :: b :: l) = a :: b :: pad l := by
  rw [pad, pad, List.length_cons, List.length_cons, Nat.add_assoc, Nat.add_mod_right]
  rfl

theorem sum_words_pad_le (l : Bytes) : (words (pad l)).sum ≤ 65535 * ((l.length + 1) / 2) := by
  induction l using words.induct with
  | case1 a b l ih =>
    have := be16_lt a b
    simp only [pad_cons_cons, words_cons_cons, List.sum_cons, List.length_cons]
    omega
  | case2 l h =>
    match l, h with
    | [], _ => simp [words]
    | [a], _ =>
      have := be16_lt a 0
      simp only [pad_singleton, words_cons_cons, List.sum_cons, List.length_singleton]
      simp only [words, List.sum_nil]
      omega
    | a :: b :: l, h => exact absurd rfl (h a b l)

end Bytes
