import QyUtil.Dns.Hostile
import QyUtil.Dns.Wire

/-! # Well-formed responses

Names and answer records as RFC 1035 lays them out in a message, with compression,
and what the models of the reading functions make of them: the walk along a name
spells its labels, and the record walk goes from one record to the next.
-/

namespace QyUtil.Dns

open Loops Outcome Turn Relation Net

variable {buf : RecvBuf} {d bs w l : Bytes} {q s n k : ℕ} {ls : List Bytes}

def pointerTarget (hi lo : UInt8) : ℕ := hi.toNat % 64 * 256 + lo.toNat

/-- The name at `q` has the given labels and takes up `n` bytes there. -/
inductive WireName (d : Bytes) : ℕ → List Bytes → ℕ → Prop
  | root {q : ℕ} : [0] <+: d.drop q → WireName d q [] 1
  | label {q n : ℕ} {l : Bytes} {ls : List Bytes} : LabelSize l → (∀ b ∈ l, 1 ≤ b ∧ b ≤ 191) →
      UInt8.ofNat l.length :: l <+: d.drop q → WireName d (q + (l.length + 1)) ls n →
      WireName d q (l :: ls) (l.length + 1 + n)
  | pointer {q n : ℕ} {hi lo : UInt8} {ls : List Bytes} : [hi, lo] <+: d.drop q → 192 ≤ hi →
      WireName d (pointerTarget hi lo) ls n → WireName d q ls 2

/-- A name with at least one label whose expanded form has at most 255 bytes. -/
structure NameAt (d : Bytes) (q : ℕ) (ls : List Bytes) (n : ℕ) : Prop where
  wire : WireName d q ls n
  ne_root : ls ≠ []
  length_le : (encodeLabels ls).length + 1 ≤ 255

/-- The records from `s` on, each given by its address or as an alias. -/
inductive RecordsAt (d : Bytes) : ℕ → List (Option Address) → Prop
  | nil {s : ℕ} : RecordsAt d s []
  | address {s n : ℕ} {ls : List Bytes} {c0 c1 t0 t1 t2 t3 : UInt8} {a : Address}
      {rs : List (Option Address)} : NameAt d s ls n →
      [0, 1, c0, c1, t0, t1, t2, t3, 0, 4, a.b0, a.b1, a.b2, a.b3] <+: d.drop (s + n) →
      RecordsAt d (s + n + 14) rs → RecordsAt d s (some a :: rs)
  | cname {s n : ℕ} {ls ls' : List Bytes} {c0 c1 t0 t1 t2 t3 l0 l1 : UInt8}
      {rs : List (Option Address)} : NameAt d s ls n →
      [0, 5, c0, c1, t0, t1, t2, t3, l0, l1] <+: d.drop (s + n) →
      NameAt d (s + n + 10) ls' (Bytes.be16 l0 l1) →
      RecordsAt d (s + n + 10 + Bytes.be16 l0 l1) rs → RecordsAt d s (none :: rs)

theorem prefix_byte (h : bs <+: buf.datagram.drop q) (hk : k < bs.length) :
    buf.byte (q + k) = bs[k] ∧ q + k < bufLen := by
  obtain ⟨post, h⟩ := h
  have hlen := congrArg List.length h
  rw [List.length_append, List.length_drop] at hlen
  have hin : q + k < buf.datagram.length := by omega
  refine ⟨?_, hin.trans_le buf.fits⟩
  have hget : (buf.datagram.drop q)[k]? = bs[k]? := by
    rw [← h, List.getElem?_append_left hk]
  rw [List.getElem?_drop, List.getElem?_eq_getElem hin, List.getElem?_eq_getElem hk] at hget
  rw [RecvBuf.byte, List.getD_eq_getElem _ _ hin, Option.some.inj hget]

theorem spells_append (hb : ∀ b ∈ bs, b ≠ 0 ∧ b < 192) (hd : bs <+: buf.datagram.drop q)
    (h : Spells buf (q + bs.length) w) :
    Spells buf q (bs ++ w) ∧ wireLength buf q = bs.length + wireLength buf (q + bs.length) := by
  induction bs generalizing q with
  | nil => exact ⟨h, by simp⟩
  | cons b bs ih =>
    obtain ⟨⟨hn, hl⟩, hbs⟩ := List.forall_mem_cons.mp hb
    obtain ⟨hget, hq⟩ : buf.byte q = b ∧ q < bufLen := prefix_byte (k := 0) hd (by simp)
    have hrest : bs <+: buf.datagram.drop (q + 1) := by
      rw [← List.drop_drop]
      exact hd.drop 1
    have hpos : q + (b :: bs).length = q + 1 + bs.length := by simp; omega
    rw [hpos] at h ⊢
    obtain ⟨hs, hlen⟩ := ih hbs hrest h
    rw [← hget] at hn hl
    refine ⟨?_, by rw [wireLength_byte hn hl, hlen, List.length_cons]; omega⟩
    have := Spells.byte hq hn hl hs
    rwa [hget] at this

theorem pointerOffset_eq {hi lo : UInt8} (h : 192 ≤ hi.toNat) :
    pointerOffset hi lo = pointerTarget hi lo := by
  have hlt := hi.toNat_lt
  unfold pointerOffset pointerTarget Bytes.be16
  omega

theorem LabelSize.length_byte (h : LabelSize l) :
    UInt8.ofNat l.length ≠ 0 ∧ UInt8.ofNat l.length < 192 := by
  refine ⟨h.ne_zero, ?_⟩
  rw [UInt8.lt_iff_toNat_lt, h.toNat]
  exact lt_of_le_of_lt h.2 (by decide)

/-- The walk along a well-formed name spells its labels, and the name takes up as
many bytes as RFC 1035 says. -/
theorem WireName.spells (h : WireName buf.datagram q ls n) :
    Spells buf q (encodeLabels ls) ∧ wireLength buf q = n := by
  induction h with
  | @root q hd =>
    obtain ⟨hb, hq⟩ := prefix_byte (k := 0) hd (by simp)
    exact ⟨.nil hq hb, wireLength_zero hb⟩
  | @label q n l ls hl hb hd _ ih =>
    have hplain : ∀ b ∈ UInt8.ofNat l.length :: l, b ≠ 0 ∧ b < 192 := by
      refine List.forall_mem_cons.mpr ⟨hl.length_byte, fun b hm => ⟨?_, ?_⟩⟩
      · rintro rfl
        exact absurd (hb 0 hm).1 (by decide)
      · exact UInt8.lt_of_le_of_lt (hb b hm).2 (by decide)
    have hpos : (UInt8.ofNat l.length :: l).length = l.length + 1 := List.length_cons
    obtain ⟨hs, hlen⟩ := spells_append hplain hd (w := encodeLabels ls) (by rw [hpos]; exact ih.1)
    rw [hpos, ih.2] at hlen
    exact ⟨hs, hlen⟩
  | @pointer q n hi lo ls hd hp _ ih =>
    obtain ⟨h0, -⟩ := prefix_byte (k := 0) hd (by simp)
    obtain ⟨h1, hq⟩ := prefix_byte (k := 1) hd (by simp)
    have h0 : buf.byte q = hi := h0
    have h1 : buf.byte (q + 1) = lo := h1
    refine ⟨.pointer hq (h0 ▸ hp) ?_, wireLength_pointer (h0 ▸ hp)⟩
    rw [h0, h1, pointerOffset_eq (UInt8.le_iff_toNat_le.mp hp)]
    exact ih.1

theorem labelsEnd_encodeLabels (hs : ∀ l ∈ ls, LabelSize l) :
    labelsEnd (encodeLabels ls) = (encodeLabels ls).length := by
  induction ls with
  | nil => simp
  | cons l ls ih =>
    obtain ⟨hl, hls⟩ := List.forall_mem_cons.mp hs
    rw [encodeLabels_cons, List.cons_append, labelsEnd_cons, hl.toNat, List.drop_left, ih hls]
    simp only [List.length_cons, List.length_append]
    omega

theorem WireName.labelSize (h : WireName d q ls n) : ∀ l ∈ ls, LabelSize l := by
  induction h with
  | root => simp
  | label hl _ _ _ ih => exact List.forall_mem_cons.mpr ⟨hl, ih⟩
  | pointer _ _ _ ih => exact ih

theorem NameAt.acyclic (h : NameAt buf.datagram q ls n) : Acyclic buf q :=
  exists_spells_iff_acyclic.mp ⟨_, h.wire.spells.1⟩

/-- A name that RFC 1035 allows never outgrows the first allocation. -/
theorem NameAt.fits (h : NameAt buf.datagram q ls n) : NameFits buf q := by
  have hcap : 256 ≤ capacityFor (inlineLength buf q + 1) := by
    simp only [capacityFor, capacity, initSize, increment]
    omega
  have hlen := h.length_le
  refine ⟨_, h.wire.spells.1, ?_, by omega, ?_⟩
  · intro hnil
    obtain ⟨l, ls', rfl⟩ := List.exists_cons_of_ne_nil h.ne_root
    simp at hnil
  · rw [labelsEnd_encodeLabels h.wire.labelSize]
    omega

theorem prefix_be16 (h : bs <+: buf.datagram.drop q) (hk : k + 1 < bs.length) :
    buf.be16 (q + k) = Bytes.be16 bs[k] bs[k + 1] := by
  rw [RecvBuf.be16, (prefix_byte h (by omega : k < bs.length)).1, Nat.add_assoc,
    (prefix_byte h hk).1]

theorem prefix_recordData (h : bs <+: buf.datagram.drop (dataAt buf s))
    (hlen : dataLength buf s = bs.length) : recordData buf s = bs := by
  apply List.ext_getElem (by rw [recordData_length, hlen])
  intro k hk hk'
  simp only [recordData, List.getElem_map, List.getElem_range', Nat.one_mul]
  exact (prefix_byte h hk').1

structure Reads (buf : RecvBuf) (s next : ℕ) (r : Option Address) : Prop where
  ends : RecordEnds buf s
  fits : RecordFits buf s
  loadable : Loadable buf s
  after : recordAfter buf s = next
  copied : ∀ info, copyRecord buf info s =
    match r with
    | some a => info.push a.dotted
    | none => info

theorem reads_address {c0 c1 t0 t1 t2 t3 : UInt8} {a : Address}
    (hn : NameAt buf.datagram s ls n)
    (hd : [0, 1, c0, c1, t0, t1, t2, t3, 0, 4, a.b0, a.b1, a.b2, a.b3] <+:
      buf.datagram.drop (s + n)) :
    Reads buf s (s + n + 14) (some a) := by
  have hf : fieldsAt buf s = s + n := by rw [fieldsAt, hn.wire.spells.2]
  have ht : recordType buf s = 1 := by
    rw [recordType, hf]
    simpa [Bytes.be16] using prefix_be16 (k := 0) hd (by simp)
  have hlen : dataLength buf s = 4 := by
    rw [dataLength, hf]
    simpa [Bytes.be16, dataLenOffset] using prefix_be16 (k := 8) hd (by simp)
  have hat : dataAt buf s = s + n + 10 := by rw [dataAt, hf, rDataSize]
  have hin : s + n + 13 < bufLen := (prefix_byte (k := 13) hd (by simp)).2
  have haddr : recordAddress buf s = a := by
    have hdrop : [a.b0, a.b1, a.b2, a.b3] <+: buf.datagram.drop (dataAt buf s) := by
      rw [hat, ← List.drop_drop]
      exact hd.drop 10
    rw [recordAddress, prefix_recordData hdrop hlen]
    rfl
  refine ⟨⟨hn.acyclic, ?_⟩, ⟨hn.fits, fun h => absurd ht h⟩, fun _ => by omega, ?_, fun info => ?_⟩
  · rw [if_pos ht]
    omega
  · rw [recordAfter, if_pos ht, hat, hlen]
  · rw [copyRecord, if_pos ht, haddr]

theorem reads_cname {c0 c1 t0 t1 t2 t3 l0 l1 : UInt8} {ls' : List Bytes}
    (hn : NameAt buf.datagram s ls n)
    (hd : [0, 5, c0, c1, t0, t1, t2, t3, l0, l1] <+: buf.datagram.drop (s + n))
    (hn' : NameAt buf.datagram (s + n + 10) ls' (Bytes.be16 l0 l1)) :
    Reads buf s (s + n + 10 + Bytes.be16 l0 l1) none := by
  have hf : fieldsAt buf s = s + n := by rw [fieldsAt, hn.wire.spells.2]
  have ht : recordType buf s = 5 := by
    rw [recordType, hf]
    simpa [Bytes.be16] using prefix_be16 (k := 0) hd (by simp)
  have hne : recordType buf s ≠ 1 := by omega
  have hat : dataAt buf s = s + n + 10 := by rw [dataAt, hf, rDataSize]
  rw [← hat] at hn'
  refine ⟨⟨hn.acyclic, ?_⟩, ⟨hn.fits, fun _ => hn'.fits⟩, fun h => absurd h hne, ?_, fun info => ?_⟩
  · rw [if_neg hne]
    exact hn'.acyclic
  · rw [recordAfter, if_neg hne, hn'.wire.spells.2, hat]
  · rw [copyRecord, if_neg hne]

def pushAll (info : SocketIpInfo) (as : List Address) : SocketIpInfo :=
  as.foldl (fun info a => info.push a.dotted) info

/-- Over well-formed records the walk goes from record to record, and the copy
loop stores the addresses in record order. -/
theorem RecordsAt.reads {rs : List (Option Address)} (h : RecordsAt buf.datagram s rs) :
    ∀ n ≤ rs.length, RecordsEnd buf n s ∧
      (∀ s' ∈ recordStarts buf n s, RecordFits buf s' ∧ Loadable buf s') ∧
      ∀ info, (recordStarts buf n s).foldl (copyRecord buf) info =
        pushAll info ((rs.take n).filterMap id) := by
  have step {s next : ℕ} {r : Option Address} {rs : List (Option Address)}
      (hr : Reads buf s next r) (ih : ∀ n ≤ rs.length, RecordsEnd buf n next ∧
        (∀ s' ∈ recordStarts buf n next, RecordFits buf s' ∧ Loadable buf s') ∧
        ∀ info, (recordStarts buf n next).foldl (copyRecord buf) info =
          pushAll info ((rs.take n).filterMap id)) :
      ∀ n ≤ (r :: rs).length, RecordsEnd buf n s ∧
        (∀ s' ∈ recordStarts buf n s, RecordFits buf s' ∧ Loadable buf s') ∧
        ∀ info, (recordStarts buf n s).foldl (copyRecord buf) info =
          pushAll info (((r :: rs).take n).filterMap id) := by
    intro n hn
    cases n with
    | zero => exact ⟨trivial, by simp [recordStarts], fun _ => rfl⟩
    | succ n =>
      obtain ⟨he, hall, hcopy⟩ := ih n (by simpa using hn)
      have hstarts : recordStarts buf (n + 1) s = s :: recordStarts buf n next := by
        rw [← hr.after]
        rfl
      refine ⟨⟨hr.ends, hr.after ▸ he⟩, ?_, fun info => ?_⟩
      · rw [hstarts]
        exact List.forall_mem_cons.mpr ⟨⟨hr.fits, hr.loadable⟩, hall⟩
      · rw [hstarts, List.foldl_cons, hcopy, hr.copied]
        cases r <;> rfl
  induction h with
  | nil =>
    intro n hn
    obtain rfl : n = 0 := by simpa using hn
    exact ⟨trivial, by simp [recordStarts], fun _ => rfl⟩
  | address hn hd _ ih => exact step (reads_address hn hd) ih
  | cname hn hd hn' _ ih => exact step (reads_cname hn hd hn') ih

end QyUtil.Dns
