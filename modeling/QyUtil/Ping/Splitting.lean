import QyUtil.Bytes.Pairs
import QyUtil.Ping.LossRate

/-! # Splitting with positions of type `int`

`str_split` as it computes: its positions are converted between `int`, `unsigned int` and
`size_t`, and `npos` becomes -1. On texts of fewer than 2^31 bytes it takes the same turns as
the model without conversions, which stands for it elsewhere.
-/

namespace QyUtil.Ping

open Loops Outcome Turn Bytes Search Pairs

inductive SplitFault where
  /-- `std::out_of_range`, thrown by the constructor of `string` -/
  | outOfRange (pos : ℕ)
  /-- a result that is no `int` -/
  | intOverflow
  deriving DecidableEq, Repr

def npos : ℕ := 2 ^ 64 - 1

def sizeToInt (n : ℕ) : ℤ := (n : ℤ).bmod (2 ^ 32)

def intToSize (n : ℤ) : ℕ := (n % 2 ^ 64).toNat

def intToUnsigned (n : ℤ) : ℕ := (n % 2 ^ 32).toNat

/-- A result of arithmetic on `int` values. -/
def checked (n : ℤ) : Outcome SplitFault ℤ := do
  guard .intOverflow (-2 ^ 31 ≤ n ∧ n < 2 ^ 31)
  pure n

def substring (s : Bytes) (pos n : ℕ) : Outcome SplitFault Bytes := do
  guard (.outOfRange pos) (pos ≤ s.length)
  pure ((s.drop pos).take n)

structure IntSplit where
  findBegpos : ℤ
  findpos : ℤ
  vecPingres : List Bytes
  deriving DecidableEq

def intSplitTurn (spliter : UInt8) (pingresult : Bytes) (s : IntSplit) :
    Outcome SplitFault (Turn IntSplit (List Bytes)) :=
  if intToUnsigned s.findpos < pingresult.length then do
    let findpos := sizeToInt ((find pingresult [spliter] (intToSize s.findBegpos)).getD npos)
    let n ← checked (findpos - s.findBegpos)
    let piece ← substring pingresult (intToSize s.findBegpos) (intToSize n)
    let findBegpos ← checked (findpos + 1)
    pure (.again ⟨findBegpos, findpos, s.vecPingres ++ [piece]⟩)
  else pure (.exit s.vecPingres)

def intSplit (fuel : ℕ) (spliter : UInt8) (pingresult : Bytes) :
    Outcome SplitFault (List Bytes) :=
  loop (intSplitTurn spliter pingresult) fuel ⟨0, 0, []⟩

variable {spliter : UInt8} {text : Bytes} {s t : StrSplit}

theorem sizeToInt_npos : sizeToInt npos = -1 := by decide

theorem sizeToInt_of_lt {n : ℕ} (h : n < 2 ^ 31) : sizeToInt n = n := by
  unfold sizeToInt
  exact Int.bmod_eq_of_le (by omega) (by omega)

theorem intToSize_natCast {n : ℕ} (h : n < 2 ^ 64) : intToSize n = n := by
  unfold intToSize
  omega

theorem intToUnsigned_natCast {n : ℕ} (h : n < 2 ^ 32) : intToUnsigned n = n := by
  unfold intToUnsigned
  omega

theorem checked_eq {n : ℤ} (h : -2 ^ 31 ≤ n ∧ n < 2 ^ 31) : checked n = done n := by
  rw [checked, guard_true h]
  rfl

theorem substring_eq {pos n : ℕ} (h : pos ≤ text.length) :
    substring text pos n = done ((text.drop pos).take n) := by
  rw [substring, guard_true h]
  rfl

def StrSplit.toInt (s : StrSplit) : IntSplit :=
  ⟨s.findBegpos, (s.findpos.map Nat.cast).getD (-1), s.vecPingres⟩

/-- A match is inside the text, or the first one is still to be looked for. -/
def InText (text : Bytes) (s : StrSplit) : Prop :=
  ∀ p ∈ s.findpos, p < text.length ∧ s.findBegpos ≤ text.length

theorem intToUnsigned_lt_iff (hlen : text.length < 2 ^ 31) (hs : InText text s) :
    intToUnsigned s.toInt.findpos < text.length ↔ ∃ p ∈ s.findpos, p < text.length := by
  cases hp : s.findpos with
  | none =>
    have hwrap : intToUnsigned (-1) = 2 ^ 32 - 1 := by decide
    simp only [StrSplit.toInt, hp, Option.map_none, Option.getD_none, hwrap]
    refine iff_of_false (by omega) (by simp)
  | some p =>
    have hlt := (hs p hp).1
    simp only [StrSplit.toInt, hp, Option.map_some, Option.getD_some,
      intToUnsigned_natCast (show p < 2 ^ 32 by omega)]
    simp

theorem intSplitTurn_again (hlen : text.length < 2 ^ 31) (hs : InText text s)
    (hn : Next (strSplitTurn spliter text) s t) :
    Next (intSplitTurn spliter text) s.toInt t.toInt ∧ InText text t := by
  have hcond : ∃ p ∈ s.findpos, p < text.length := by
    by_contra hnot
    rw [Next, strSplitTurn, if_neg hnot] at hn
    cases hn
  have hbeg : s.findBegpos ≤ text.length := by
    obtain ⟨p, hp, -⟩ := hcond
    exact (hs p hp).2
  have hpos : intToSize s.findBegpos = s.findBegpos := intToSize_natCast (by omega)
  have hsub := @substring_eq text s.findBegpos
  rw [Next, strSplitTurn, if_pos hcond] at hn
  obtain rfl := again.inj (done.inj hn)
  cases hfind : find text [spliter] s.findBegpos with
  | some p =>
    obtain ⟨hle, hend⟩ := find_bounds hfind
    rw [List.length_singleton] at hend
    refine ⟨?_, fun q hq => ?_⟩
    · have hcount : intToSize (p - s.findBegpos) = p - s.findBegpos := by
        rw [← Nat.cast_sub hle, intToSize_natCast (by omega)]
      rw [Next, intSplitTurn, if_pos ((intToUnsigned_lt_iff hlen hs).mpr hcond)]
      simp only [StrSplit.toInt, hpos, hfind, Option.getD_some, Option.map_some,
        sizeToInt_of_lt (show p < 2 ^ 31 by omega)]
      rw [checked_eq (by omega), done_bind, hcount, hsub hbeg, done_bind, checked_eq (by omega)]
      rfl
    · obtain rfl : p = q := by simpa using hq
      exact ⟨by omega, by simpa using hend⟩
  | none =>
    refine ⟨?_, fun q hq => by simp at hq⟩
    have hcount : text.length - s.findBegpos ≤ intToSize (-1 - s.findBegpos) := by
      unfold intToSize
      omega
    rw [Next, intSplitTurn, if_pos ((intToUnsigned_lt_iff hlen hs).mpr hcond)]
    simp only [StrSplit.toInt, hpos, hfind, Option.getD_none, Option.map_none, sizeToInt_npos]
    rw [checked_eq (by omega), done_bind, hsub hbeg, done_bind, checked_eq (by omega),
      List.take_of_length_le (by rw [List.length_drop]; exact hcount)]
    rfl

theorem intSplitTurn_exit (hlen : text.length < 2 ^ 31) (hs : InText text s)
    {pieces : List Bytes} (h : strSplitTurn spliter text s = done (exit pieces)) :
    intSplitTurn spliter text s.toInt = done (exit pieces) := by
  have hcond : ¬ ∃ p ∈ s.findpos, p < text.length := by
    intro hcond
    rw [strSplitTurn, if_pos hcond] at h
    cases h
  rw [strSplitTurn, if_neg hcond] at h
  obtain rfl := exit.inj (done.inj h)
  rw [intSplitTurn, if_neg (mt (intToUnsigned_lt_iff hlen hs).mp hcond)]
  rfl

/-- On texts of fewer than 2^31 bytes the conversions make no difference. -/
theorem intSplit_returns (hne : text ≠ []) (hlen : text.length < 2 ^ 31) {pieces : List Bytes}
    (h : Returns (fun k => strSplit k spliter text) pieces) :
    Returns (fun k => intSplit k spliter text) pieces := by
  have hstart : InText text ⟨0, some 0, []⟩ := by
    intro p hp
    obtain rfl : 0 = p := by simpa using hp
    exact ⟨List.length_pos_iff.mpr hne, Nat.zero_le _⟩
  exact loop_returns_lockstep StrSplit.toInt (I := InText text)
    (fun _ _ hs hn => intSplitTurn_again hlen hs hn)
    (fun _ _ hs hr => intSplitTurn_exit hlen hs hr) hstart h

theorem strSplit_splitOn (hne : text ≠ []) (spliter : UInt8) :
    Returns (fun k => strSplit k spliter text) (text.splitOn spliter) := by
  have hlines := strSplit_lines (text.splitOn spliter) (List.splitOn_ne_nil spliter text) []
    (some 0) [] (fun l hl => (of_mem_splitOn hl).1)
  simp only [List.nil_append, List.intercalate_splitOn] at hlines
  exact hlines ⟨0, rfl, List.length_pos_iff.mpr hne⟩

/-- A text of fewer than 2^31 bytes is split at every separator: no piece has one in it,
there is one piece more than separators, and the pieces joined with it are the text. -/
theorem intSplit_pieces (spliter : UInt8) (hne : text ≠ []) (hlen : text.length < 2 ^ 31) :
    ∃ pieces, Returns (fun k => intSplit k spliter text) pieces ∧
      (∀ p ∈ pieces, spliter ∉ p) ∧ pieces.length = text.count spliter + 1 ∧
      [spliter].intercalate pieces = text :=
  ⟨text.splitOn spliter, intSplit_returns hne hlen (strSplit_splitOn hne spliter),
    fun _ hp => (of_mem_splitOn hp).1, length_splitOn spliter text,
    List.intercalate_splitOn spliter⟩

theorem intSplit_pieces_adjacent : ∃ pieces,
    Returns (fun k => intSplit k 10 (ascii "\na\n\nb\n")) pieces ∧ pieces.length = 5 := by
  obtain ⟨pieces, hret, -, hlen, -⟩ := @intSplit_pieces (ascii "\na\n\nb\n") 10
    (by decide) (by decide)
  exact ⟨pieces, hret, hlen.trans (by decide)⟩

end QyUtil.Ping
