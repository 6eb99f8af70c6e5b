import QyUtil.Bytes.Basic

/-! # IPv4 addresses as text

The dotted-decimal form of an address and `inet_pton` for `AF_INET`, which
accepts exactly four decimal octets without leading zeros.
-/

namespace QyUtil.Net

open Bytes

structure Address where
  b0 : UInt8
  b1 : UInt8
  b2 : UInt8
  b3 : UInt8
  deriving DecidableEq, Repr

/-- The text `address_v4::to_string` gives. -/
def Address.dotted (a : Address) : Bytes :=
  decimal a.b0.toNat ++ 46 :: (decimal a.b1.toNat ++ 46 :: (decimal a.b2.toNat ++
    46 :: decimal a.b3.toNat))

def parseOctet (s : Bytes) : Option UInt8 :=
  if s ≠ [] ∧ s.all isDigit ∧ (s.length = 1 ∨ s.head? ≠ some 48) ∧ digitsValue s ≤ 255 then
    some (UInt8.ofNat (digitsValue s))
  else none

/-- `inet_pton(AF_INET, ..)`; `none` is the result 0. -/
def inetPton (s : Bytes) : Option Address :=
  match (cString s).splitOn 46 with
  | [a, b, c, d] => do
    let b0 ← parseOctet a
    let b1 ← parseOctet b
    let b2 ← parseOctet c
    let b3 ← parseOctet d
    pure ⟨b0, b1, b2, b3⟩
  | _ => none

theorem notMem_dotted {c : UInt8} (hdigit : isDigit c = false) (hdot : c ≠ 46) (a : Address) :
    c ∉ a.dotted := by
  have hd (b : UInt8) : c ∉ decimal b.toNat := fun h => by
    rw [isDigit_of_mem_decimal h] at hdigit
    cases hdigit
  simp only [Address.dotted, List.mem_append, List.mem_cons, not_or]
  exact ⟨hd _, hdot, hd _, hdot, hd _, hdot, hd _⟩

theorem length_dotted (a : Address) : a.dotted.length ≤ 15 := by
  have hlen (b : UInt8) : (decimal b.toNat).length ≤ 3 :=
    length_decimal_le (by decide) (b.toNat_lt.trans (by decide))
  have h0 := hlen a.b0
  have h1 := hlen a.b1
  have h2 := hlen a.b2
  have h3 := hlen a.b3
  simp only [Address.dotted, List.length_append, List.length_cons]
  omega

theorem length_octet {s : Bytes} {b : UInt8} (h : parseOctet s = some b) : s.length ≤ 3 := by
  unfold parseOctet at h
  split_ifs at h with hs
  obtain ⟨hne, hdigits, hlead, hle⟩ := hs
  obtain ⟨c, l, rfl⟩ := List.exists_cons_of_ne_nil hne
  have hc : isDigit c = true := List.all_eq_true.mp hdigits c List.mem_cons_self
  rcases hlead with hone | hhead
  · omega
  · have hpow := pow_le_digitsValue hc (fun h => hhead (by rw [h]; rfl)) l
    have hlt : l.length < 3 := (Nat.pow_lt_pow_iff_right (show 1 < 10 by decide)).mp
      (by omega)
    rw [List.length_cons]
    omega

theorem length_of_inetPton {s : Bytes} (h : (inetPton s).isSome) : (cString s).length ≤ 15 := by
  obtain ⟨a, ha⟩ := Option.isSome_iff_exists.mp h
  unfold inetPton at ha
  split at ha
  · rename_i p q r t hsplit
    obtain ⟨_, hp, ha⟩ := Option.bind_eq_some_iff.mp ha
    obtain ⟨_, hq, ha⟩ := Option.bind_eq_some_iff.mp ha
    obtain ⟨_, hr, ha⟩ := Option.bind_eq_some_iff.mp ha
    obtain ⟨_, ht, -⟩ := Option.bind_eq_some_iff.mp ha
    have hjoin : [46].intercalate ((cString s).splitOn 46) = cString s :=
      List.intercalate_splitOn 46
    rw [hsplit] at hjoin
    have hp := length_octet hp
    have hq := length_octet hq
    have hr := length_octet hr
    have ht := length_octet ht
    rw [← hjoin]
    simp only [List.intercalate_cons_cons, List.intercalate_singleton, List.length_append,
      List.length_singleton]
    omega
  · cases ha

theorem dot_mem_of_inetPton {s : Bytes} (h : (inetPton s).isSome) : (46 : UInt8) ∈ s := by
  have hc : (46 : UInt8) ∈ cString s := by
    by_contra hn
    have hs : (cString s).splitOn 46 = [cString s] := by
      rw [List.splitOn_eq_splitOnP]
      refine List.splitOnP_eq_singleton fun x hx => beq_eq_false_iff_ne.mpr ?_
      rintro rfl
      exact hn hx
    simp [inetPton, hs] at h
  exact (List.takeWhile_sublist _).subset hc

theorem parseOctet_decimal (b : UInt8) : parseOctet (decimal b.toNat) = some b := by
  have hlead : (decimal b.toNat).length = 1 ∨ (decimal b.toNat).head? ≠ some 48 := by
    by_cases h : b.toNat = 0
    · exact .inl (by rw [h]; rfl)
    · exact .inr (head_decimal h)
  have hdigits : (decimal b.toNat).all isDigit = true :=
    List.all_eq_true.mpr fun c hc => isDigit_of_mem_decimal hc
  rw [parseOctet, digitsValue_decimal, UInt8.ofNat_toNat,
    if_pos ⟨decimal_ne_nil _, hdigits, hlead, Nat.le_of_lt_succ b.toNat_lt⟩]

theorem inetPton_dotted (a : Address) : inetPton a.dotted = some a := by
  have hdot (b : UInt8) : (46 : UInt8) ∉ decimal b.toNat := fun h =>
    absurd (isDigit_of_mem_decimal h) (by decide)
  have hjoin : a.dotted = [46].intercalate [decimal a.b0.toNat, decimal a.b1.toNat,
      decimal a.b2.toNat, decimal a.b3.toNat] := by
    simp [Address.dotted, List.intercalate_cons_cons]
  have hsplit : a.dotted.splitOn 46 = [decimal a.b0.toNat, decimal a.b1.toNat,
      decimal a.b2.toNat, decimal a.b3.toNat] := by
    rw [hjoin]
    exact List.splitOn_intercalate 46 (by simp [hdot]) (by simp)
  rw [inetPton, cString_eq_self (notMem_dotted (by decide) (by decide) a), hsplit]
  simp [parseOctet_decimal]

end QyUtil.Net
