import QyUtil.Dns.RoundTrip

/-! # Message compression

A name as a server writes it (RFC 1035, 4.1.4): its labels, up to its end or up to a rest of
it that stands in the message already and to which a pointer leads. Which names it points to,
and when it points at all, is left to the server. The name that has been written is there in
any case, and so are its rests, to which later pointers may lead.
-/

namespace QyUtil.Dns

open Bytes

variable {d : Bytes} {s p n : ℕ} {l : Bytes} {ls name : List Bytes} {pick : List Bytes → Option ℕ}

abbrev Places := List (List Bytes × ℕ)

/-- How a server picks a place to point to. -/
structure Compression where
  pick : Places → List Bytes → Option ℕ
  mem_of_pick : ∀ {places name p}, pick places name = some p → (name, p) ∈ places

def Compression.inFull : Compression where
  pick _ _ := none
  mem_of_pick := nofun

/-- The first 2 ^ 14 bytes can be pointed to. -/
def pointerRange : ℕ := 2 ^ 14

def pointerTo (p : ℕ) : Bytes := [UInt8.ofNat (192 + p / 256), UInt8.ofNat p]

def writeName (pick : List Bytes → Option ℕ) : List Bytes → Bytes
  | [] => [0]
  | l :: ls =>
    match pick (l :: ls) with
    | some p => pointerTo p
    | none => UInt8.ofNat l.length :: l ++ writeName pick ls

/-- Where a name and its rests start when it is written at `s`, up to its pointer. -/
def newPlaces (pick : List Bytes → Option ℕ) : ℕ → List Bytes → Places
  | _, [] => []
  | s, l :: ls =>
    (if s < pointerRange then [(l :: ls, s)] else []) ++
      match pick (l :: ls) with
      | some _ => []
      | none => newPlaces pick (s + (l.length + 1)) ls

/-- A name that is read back: it is not the root, and its bytes are taken neither for an end
nor for a pointer. -/
structure Readable (name : List Bytes) : Prop where
  size : ∀ l ∈ name, LabelSize l
  plain : ∀ l ∈ name, ∀ b ∈ l, 1 ≤ b ∧ b ≤ 191
  ne_root : name ≠ []
  length_le : (encodeLabels name).length + 1 ≤ 255

def Placed (d : Bytes) (place : List Bytes × ℕ) : Prop :=
  place.2 < pointerRange ∧ ∃ n, WireName d place.2 place.1 n

theorem writeName_inFull (places : Places) (name : List Bytes) :
    writeName (Compression.inFull.pick places) name = encodeLabels name ++ [0] := by
  induction name with
  | nil => rfl
  | cons l ls ih => simp [writeName, Compression.inFull, ← ih]

theorem writeName_ne_nil (pick : List Bytes → Option ℕ) (name : List Bytes) :
    writeName pick name ≠ [] := by
  cases name with
  | nil => exact List.cons_ne_nil _ _
  | cons l ls =>
    unfold writeName
    split
    · exact List.cons_ne_nil _ _
    · simp

theorem length_writeName_le (pick : List Bytes → Option ℕ) (name : List Bytes) :
    (writeName pick name).length ≤ (encodeLabels name).length + 2 := by
  induction name with
  | nil => exact Nat.le_succ 1
  | cons l ls ih =>
    unfold writeName
    split
    · exact Nat.le_add_left 2 _
    · simp only [encodeLabels_cons, List.length_append]
      omega

theorem pointerTarget_to (hp : p < pointerRange) :
    pointerTarget (UInt8.ofNat (192 + p / 256)) (UInt8.ofNat p) = p := by
  simp only [pointerRange] at hp
  simp only [pointerTarget, UInt8.toNat_ofNat']
  omega

theorem Placed.pointer (h : Placed d (name, p)) (hd : pointerTo p <+: d.drop s) :
    WireName d s name 2 := by
  obtain ⟨hp, n, hname⟩ := h
  have hhigh : (192 : UInt8) ≤ UInt8.ofNat (192 + p / 256) := by
    simp only [pointerRange] at hp
    rw [UInt8.le_iff_toNat_le, UInt8.toNat_ofNat']
    show 192 ≤ _
    omega
  apply WireName.pointer hd hhigh
  rw [pointerTarget_to hp]
  exact hname

theorem writeName_tail (hd : UInt8.ofNat l.length :: l ++ writeName pick ls <+: d.drop s) :
    writeName pick ls <+: d.drop (s + (l.length + 1)) := by
  have hdrop := hd.drop (l.length + 1)
  rwa [List.drop_left' (by simp), List.drop_drop] at hdrop

theorem wireName_written (hs : ∀ l ∈ name, LabelSize l)
    (hb : ∀ l ∈ name, ∀ b ∈ l, 1 ≤ b ∧ b ≤ 191)
    (hpick : ∀ ls p, pick ls = some p → Placed d (ls, p)) (hd : writeName pick name <+: d.drop s) :
    WireName d s name (writeName pick name).length := by
  induction name generalizing s with
  | nil => exact .root hd
  | cons l ls ih =>
    obtain ⟨hl, hls⟩ := List.forall_mem_cons.mp hs
    obtain ⟨hbl, hbls⟩ := List.forall_mem_cons.mp hb
    unfold writeName at hd ⊢
    split at hd
    · rename_i p hp
      exact (hpick _ p hp).pointer hd
    · have hrest := ih hls hbls (writeName_tail hd)
      rw [List.length_append]
      exact .label hl hbl ((List.prefix_append _ _).trans hd) hrest

theorem placed_newPlaces (hs : ∀ l ∈ name, LabelSize l)
    (hb : ∀ l ∈ name, ∀ b ∈ l, 1 ≤ b ∧ b ≤ 191)
    (hpick : ∀ ls p, pick ls = some p → Placed d (ls, p)) (hd : writeName pick name <+: d.drop s) :
    ∀ place ∈ newPlaces pick s name, Placed d place := by
  induction name generalizing s with
  | nil => nofun
  | cons l ls ih =>
    have hname := wireName_written hs hb hpick hd
    intro place hplace
    rcases List.mem_append.mp hplace with hfirst | hrest
    · split_ifs at hfirst with hrange
      · obtain rfl := List.mem_singleton.mp hfirst
        exact ⟨hrange, _, hname⟩
      · cases hfirst
    · split at hrest
      · cases hrest
      · rename_i hnone
        rw [writeName, hnone] at hd
        exact ih (List.forall_mem_cons.mp hs).2 (List.forall_mem_cons.mp hb).2
          (writeName_tail hd) place hrest

end QyUtil.Dns
