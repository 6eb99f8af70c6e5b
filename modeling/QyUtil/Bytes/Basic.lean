import Mathlib

/-! # Byte strings

Strings and buffers of a C++ program are lists of bytes. This file has their
literals, big-endian pairs, C strings, stores and decimal numerals, with the round
trip between a number and its numeral.
-/

abbrev Bytes := List UInt8

namespace Bytes

def ascii (s : String) : Bytes := s.toList.map fun c => UInt8.ofNat c.toNat

/-- The number that two bytes denote in network order. -/
def be16 (hi lo : UInt8) : ℕ := hi.toNat * 256 + lo.toNat

theorem be16_lt (hi lo : UInt8) : be16 hi lo < 65536 := by
  have := hi.toNat_lt
  have := lo.toNat_lt
  unfold be16
  omega

/-- The text that C functions see: everything before the first NUL. -/
def cString (l : Bytes) : Bytes := l.takeWhile (· ≠ 0)

theorem decide_ne_of_notMem {a : UInt8} {l : Bytes} (h : a ∉ l) :
    ∀ b ∈ l, decide (b ≠ a) = true := by
  intro b hb
  rw [decide_eq_true_eq]
  rintro rfl
  exact h hb

theorem takeWhile_append_of_notMem {a : UInt8} {l : Bytes} (h : a ∉ l) (m : Bytes) :
    (l ++ m).takeWhile (· ≠ a) = l ++ m.takeWhile (· ≠ a) :=
  List.takeWhile_append_of_pos (decide_ne_of_notMem h)

theorem cString_append {l : Bytes} (h : (0 : UInt8) ∉ l) (m : Bytes) :
    cString (l ++ m) = l ++ cString m := takeWhile_append_of_notMem h m

theorem cString_append_zero {l : Bytes} (h : (0 : UInt8) ∉ l) (m : Bytes) :
    cString (l ++ 0 :: m) = l := by
  rw [cString_append h]
  simp [cString]

theorem exists_takeWhile_append (a : UInt8) (l m : Bytes) :
    ∃ t, l ++ a :: m = l.takeWhile (· ≠ a) ++ a :: t := by
  induction l with
  | nil => exact ⟨m, rfl⟩
  | cons b l ih =>
    by_cases hb : b = a
    · exact ⟨l ++ a :: m, by simp [hb]⟩
    · obtain ⟨t, ht⟩ := ih
      refine ⟨t, ?_⟩
      rw [List.takeWhile_cons_of_pos (by simpa using hb), List.cons_append, ht]
      rfl

theorem exists_cString_append (l m : Bytes) : ∃ t, l ++ 0 :: m = cString l ++ 0 :: t :=
  exists_takeWhile_append 0 l m

theorem notMem_takeWhile (a : UInt8) (l : Bytes) : a ∉ l.takeWhile (· ≠ a) := by
  intro h
  simpa using List.mem_takeWhile_imp h

theorem takeWhile_of_notMem {a : UInt8} {l : Bytes} (h : a ∉ l) : l.takeWhile (· ≠ a) = l :=
  List.takeWhile_eq_self_iff.mpr (decide_ne_of_notMem h)

theorem zero_notMem_cString (l : Bytes) : (0 : UInt8) ∉ cString l := notMem_takeWhile 0 l

theorem cString_eq_self {l : Bytes} (h : (0 : UInt8) ∉ l) : cString l = l := takeWhile_of_notMem h

/-- The length of the C string at an address, of which at most `n` bytes are looked at. -/
def strlen (m : ℕ → UInt8) : ℕ → ℕ → ℕ
  | 0, _ => 0
  | n + 1, k => if m k = 0 then 0 else strlen m n (k + 1) + 1

theorem strlen_eq {m : ℕ → UInt8} {n k l : ℕ} (hl : l < n)
    (hm : ∀ j < l, m (k + j) ≠ 0) (h0 : m (k + l) = 0) : strlen m n k = l := by
  induction l generalizing n k with
  | zero =>
    cases n with
    | zero => omega
    | succ n => simpa [strlen] using h0
  | succ l ih =>
    cases n with
    | zero => omega
    | succ n =>
      have hk : m k ≠ 0 := by simpa using hm 0 l.succ_pos
      rw [strlen, if_neg hk, ih (by omega) (fun j hj => ?_) (by rw [← h0]; congr 1; omega)]
      have := hm (j + 1) (by omega)
      rwa [show k + 1 + j = k + (j + 1) by omega]

theorem strlen_le {m : ℕ → UInt8} {n k l : ℕ} (hl : l < n) (h0 : m (k + l) = 0) :
    strlen m n k ≤ l := by
  induction l generalizing n k with
  | zero =>
    obtain ⟨n, rfl⟩ := Nat.exists_eq_add_of_le' hl
    rw [strlen, if_pos (show m k = 0 from h0)]
  | succ l ih =>
    obtain ⟨n, rfl⟩ := Nat.exists_eq_add_of_le' (show 1 ≤ n by omega)
    rw [strlen]
    split_ifs
    · exact Nat.zero_le _
    · exact Nat.succ_le_succ (ih (by omega) (by rw [← h0]; congr 1; omega))

def writeAt (m : Bytes) (off : ℕ) (bs : Bytes) : Bytes :=
  m.take off ++ bs ++ m.drop (off + bs.length)

theorem length_writeAt {m bs : Bytes} {off : ℕ} (h : off + bs.length ≤ m.length) :
    (writeAt m off bs).length = m.length := by
  simp only [writeAt, List.length_append, List.length_take, List.length_drop]
  omega

theorem take_writeAt {m bs : Bytes} {off : ℕ} (h : off ≤ m.length) :
    (writeAt m off bs).take off = m.take off := by
  rw [writeAt, List.append_assoc, List.take_left' (by simpa using h)]

theorem writeAt_append (bs pre old post : Bytes) (h : bs.length = old.length) :
    writeAt (pre ++ old ++ post) pre.length bs = pre ++ bs ++ post := by
  rw [writeAt, h, ← List.length_append, List.drop_left, List.append_assoc pre old post,
    List.take_left]

theorem getD_writeAt {m bs : Bytes} {off : ℕ} (h : off + bs.length ≤ m.length) (i : ℕ) :
    (writeAt m off bs).getD i 0 =
      if off ≤ i ∧ i < off + bs.length then bs.getD (i - off) 0 else m.getD i 0 := by
  have hoff : (m.take off).length = off := by
    rw [List.length_take]
    omega
  have hpre : (m.take off ++ bs).length = off + bs.length := by
    rw [List.length_append, hoff]
  simp only [writeAt, List.getD_eq_getElem?_getD]
  split_ifs with hi
  · rw [List.getElem?_append_left (by omega), List.getElem?_append_right (by omega), hoff]
  · rcases Nat.lt_or_ge i off with hlt | hge
    · rw [List.getElem?_append_left (by omega), List.getElem?_append_left (by omega),
        List.getElem?_take_of_lt hlt]
    · rw [List.getElem?_append_right (by omega), hpre, List.getElem?_drop,
        show off + bs.length + (i - (off + bs.length)) = i by omega]

def decimal (n : ℕ) : Bytes :=
  if n = 0 then [48] else (Nat.digits 10 n).reverse.map fun d => UInt8.ofNat (48 + d)

/-- The text of a C++ `int`. -/
def intText : ℤ → Bytes
  | .ofNat n => decimal n
  | .negSucc n => 45 :: decimal (n + 1)

def isDigit (c : UInt8) : Bool := 48 ≤ c && c ≤ 57

def digitsValue (l : Bytes) : ℕ := l.foldl (fun v c => v * 10 + (c.toNat - 48)) 0

theorem toNat_of_isDigit {c : UInt8} (h : isDigit c = true) : 48 ≤ c.toNat ∧ c.toNat ≤ 57 := by
  simp only [isDigit, Bool.and_eq_true, decide_eq_true_eq, UInt8.le_iff_toNat_le] at h
  exact h

theorem not_space_of_isDigit {c : UInt8} (h : isDigit c = true) :
    (c = 32 || (9 ≤ c && c ≤ 13) : Bool) = false := by
  have hge := (toNat_of_isDigit h).1
  have h13 : ¬ c ≤ 13 := by
    rw [UInt8.le_iff_toNat_le]
    show ¬ c.toNat ≤ 13
    omega
  have h32 : c ≠ 32 := by
    rintro rfl
    exact absurd h (by decide)
  simp [h13, h32]

theorem decimal_ne_nil (n : ℕ) : decimal n ≠ [] := by
  unfold decimal
  split_ifs with h
  · simp
  · simpa [Nat.digits_eq_nil_iff_eq_zero] using h

theorem toNat_digit {d : ℕ} (hd : d < 10) : (UInt8.ofNat (48 + d)).toNat = 48 + d :=
  UInt8.toNat_ofNat_of_lt' (by simp [UInt8.size]; omega)

theorem isDigit_digit {d : ℕ} (hd : d < 10) : isDigit (UInt8.ofNat (48 + d)) = true := by
  have := toNat_digit hd
  simp only [isDigit, Bool.and_eq_true, decide_eq_true_eq, UInt8.le_iff_toNat_le, this]
  exact ⟨Nat.le_add_right 48 d, by show 48 + d ≤ 57; omega⟩

theorem isDigit_of_mem_decimal {n : ℕ} {c : UInt8} (h : c ∈ decimal n) : isDigit c = true := by
  unfold decimal at h
  split_ifs at h with hn
  · obtain rfl := List.mem_singleton.mp h
    rfl
  · obtain ⟨d, hd, rfl⟩ := List.mem_map.mp h
    exact isDigit_digit (Nat.digits_lt_base (by omega) (List.mem_reverse.mp hd))

theorem foldr_digits (l : List ℕ) (hl : ∀ d ∈ l, d < 10) :
    l.foldr (fun d v => v * 10 + ((UInt8.ofNat (48 + d)).toNat - 48)) 0 = Nat.ofDigits 10 l := by
  induction l with
  | nil => rfl
  | cons d l ih =>
    rw [List.foldr_cons, ih fun d hd => hl d (List.mem_cons_of_mem _ hd),
      toNat_digit (hl d List.mem_cons_self), Nat.ofDigits_cons]
    omega

theorem head_decimal {n : ℕ} (h : n ≠ 0) : (decimal n).head? ≠ some 48 := by
  have hne : Nat.digits 10 n ≠ [] := by simpa [Nat.digits_eq_nil_iff_eq_zero] using h
  have hlast := Nat.getLast_digit_ne_zero 10 h
  have hlt : (Nat.digits 10 n).getLast hne < 10 :=
    Nat.digits_lt_base (by omega) (List.getLast_mem hne)
  rw [decimal, if_neg h, List.head?_map, List.head?_reverse, List.getLast?_eq_some_getLast hne,
    Option.map_some]
  intro h48
  have hval := congrArg UInt8.toNat (Option.some.inj h48)
  rw [toNat_digit hlt] at hval
  exact hlast (Nat.add_left_cancel hval)

theorem length_decimal_le {n k : ℕ} (hk : 0 < k) (h : n < 10 ^ k) : (decimal n).length ≤ k := by
  unfold decimal
  split_ifs with hn
  · exact hk
  · have hlog : Nat.log 10 n < k := Nat.log_lt_of_lt_pow hn h
    rw [List.length_map, List.length_reverse, Nat.length_digits 10 _ (by decide) hn]
    omega

theorem length_intText_le {n : ℤ} {k : ℕ} (hk : 0 < k) (h : n.natAbs < 10 ^ k) :
    (intText n).length ≤ k + 1 := by
  cases n with
  | ofNat n => exact (length_decimal_le hk h).trans (Nat.le_succ k)
  | negSucc n => exact Nat.succ_le_succ (length_decimal_le hk h)

theorem pow_le_digitsValue {c : UInt8} (hc : isDigit c = true) (h0 : c ≠ 48) (l : Bytes) :
    10 ^ l.length ≤ digitsValue (c :: l) := by
  have hfold (l : Bytes) : ∀ v, 10 ^ l.length * v ≤
      l.foldl (fun v c => v * 10 + (c.toNat - 48)) v := by
    induction l with
    | nil => simp
    | cons b l ih =>
      intro v
      calc 10 ^ (b :: l).length * v = 10 ^ l.length * (v * 10) := by
            rw [List.length_cons, Nat.pow_succ, Nat.mul_assoc, Nat.mul_comm 10]
        _ ≤ 10 ^ l.length * (v * 10 + (b.toNat - 48)) :=
            Nat.mul_le_mul_left _ (Nat.le_add_right _ _)
        _ ≤ _ := ih _
  have hpos : 1 ≤ c.toNat - 48 := by
    have hge := (toNat_of_isDigit hc).1
    have hne : c.toNat ≠ 48 := fun h => h0 (UInt8.toNat_inj.mp h)
    omega
  calc 10 ^ l.length ≤ 10 ^ l.length * (0 * 10 + (c.toNat - 48)) :=
        Nat.le_mul_of_pos_right _ (by omega)
    _ ≤ digitsValue (c :: l) := hfold l _

theorem digitsValue_decimal (n : ℕ) : digitsValue (decimal n) = n := by
  unfold decimal
  split_ifs with h
  · simp [h, digitsValue]
  · rw [digitsValue, List.foldl_map, List.foldl_reverse,
      foldr_digits _ fun d hd => Nat.digits_lt_base (by omega) hd, Nat.ofDigits_digits]

end Bytes
