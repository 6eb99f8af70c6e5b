import QyUtil.Bytes.Basic

/-! # The wire format of queries

The RFC 1035 form of a name without compression and of a message with one
question, as a parser that is independent of the code. Encoding a list of labels
and parsing it gives the labels back.
-/

namespace QyUtil.Dns

/-- Length-prefixed labels, without the terminating zero byte. -/
def encodeLabels (labels : List Bytes) : Bytes :=
  labels.flatMap fun l => UInt8.ofNat l.length :: l

def LabelSize (l : Bytes) : Prop := 1 ≤ l.length ∧ l.length ≤ 63

@[simp] theorem encodeLabels_nil : encodeLabels [] = [] := rfl

@[simp] theorem encodeLabels_cons (l : Bytes) (ls : List Bytes) :
    encodeLabels (l :: ls) = UInt8.ofNat l.length :: l ++ encodeLabels ls := rfl

@[simp] theorem encodeLabels_append (ls ms : List Bytes) :
    encodeLabels (ls ++ ms) = encodeLabels ls ++ encodeLabels ms := List.flatMap_append

theorem LabelSize.toNat {l : Bytes} (h : LabelSize l) :
    (UInt8.ofNat l.length).toNat = l.length :=
  UInt8.toNat_ofNat_of_lt' (by have := h.2; simp only [UInt8.size]; omega)

theorem LabelSize.ne_zero {l : Bytes} (h : LabelSize l) : UInt8.ofNat l.length ≠ 0 := by
  intro h0
  have ht := h.toNat
  rw [h0] at ht
  exact absurd h.1 (by rw [← ht]; decide)

theorem length_encodeLabels (ls : List Bytes) :
    (encodeLabels ls).length = (ls.map (·.length + 1)).sum := by
  induction ls with
  | nil => rfl
  | cons l ls ih => simp [ih]; omega

theorem zero_not_mem_encodeLabels {ls : List Bytes} (hs : ∀ l ∈ ls, LabelSize l)
    (h0 : ∀ l ∈ ls, (0 : UInt8) ∉ l) : (0 : UInt8) ∉ encodeLabels ls := by
  intro hm
  obtain ⟨l, hl, hm⟩ := List.mem_flatMap.mp hm
  rcases List.mem_cons.mp hm with h | h
  · exact (hs l hl).ne_zero h.symm
  · exact h0 l hl h

/-- Parse labels up to the zero byte, and return them with the bytes behind it. -/
def parseLabels : ℕ → Bytes → Option (List Bytes × Bytes)
  | 0, _ => none
  | _, [] => none
  | n + 1, l :: rest =>
    if l = 0 then some ([], rest)
    else if l ≤ 63 ∧ l.toNat ≤ rest.length then do
      let (ls, rest') ← parseLabels n (rest.drop l.toNat)
      pure (rest.take l.toNat :: ls, rest')
    else none

theorem parseLabels_encodeLabels {ls : List Bytes} (hs : ∀ l ∈ ls, LabelSize l) (rest : Bytes)
    {n : ℕ} (hn : ls.length < n) :
    parseLabels n (encodeLabels ls ++ 0 :: rest) = some (ls, rest) := by
  induction ls generalizing n with
  | nil =>
    obtain ⟨n, rfl⟩ : ∃ k, n = k + 1 := ⟨n - 1, by omega⟩
    simp [parseLabels]
  | cons l ls ih =>
    obtain ⟨n, rfl⟩ : ∃ k, n = k + 1 := ⟨n - 1, by omega⟩
    obtain ⟨hl, hls⟩ := List.forall_mem_cons.mp hs
    have ht := hl.toNat
    have hle : UInt8.ofNat l.length ≤ 63 := by
      rw [UInt8.le_iff_toNat_le, ht]
      exact hl.2
    simp only [encodeLabels_cons, List.cons_append, List.append_assoc]
    rw [parseLabels, if_neg hl.ne_zero, ht, if_pos ⟨hle, by simp⟩, List.drop_left,
      List.take_left, ih hls (by simpa using hn)]
    rfl

structure Header where
  id : ℕ
  qr : Bool
  opcode : ℕ
  aa : Bool
  tc : Bool
  rd : Bool
  ra : Bool
  z : ℕ
  rcode : ℕ
  qdcount : ℕ
  ancount : ℕ
  nscount : ℕ
  arcount : ℕ
  deriving DecidableEq, Repr

/-- A header as RFC 1035 draws it: bit 0 of a field is the most significant one. -/
def parseHeader : Bytes → Option (Header × Bytes)
  | b0 :: b1 :: b2 :: b3 :: b4 :: b5 :: b6 :: b7 :: b8 :: b9 :: b10 :: b11 :: rest =>
    some
      ({ id := Bytes.be16 b0 b1
         qr := b2.toNat.testBit 7
         opcode := b2.toNat / 8 % 16
         aa := b2.toNat.testBit 2
         tc := b2.toNat.testBit 1
         rd := b2.toNat.testBit 0
         ra := b3.toNat.testBit 7
         z := b3.toNat / 16 % 8
         rcode := b3.toNat % 16
         qdcount := Bytes.be16 b4 b5
         ancount := Bytes.be16 b6 b7
         nscount := Bytes.be16 b8 b9
         arcount := Bytes.be16 b10 b11 }, rest)
  | _ => none

/-- A message with one question, and the bytes behind the question. -/
structure Query where
  header : Header
  qname : List Bytes
  qtype : ℕ
  qclass : ℕ
  rest : Bytes
  deriving DecidableEq, Repr

def parseQuery (d : Bytes) : Option Query := do
  let (header, d') ← parseHeader d
  let (qname, d'') ← parseLabels d'.length d'
  match d'' with
  | t0 :: t1 :: c0 :: c1 :: rest =>
    pure
      { header := header
        qname := qname
        qtype := Bytes.be16 t0 t1
        qclass := Bytes.be16 c0 c1
        rest := rest }
  | _ => none

end QyUtil.Dns
