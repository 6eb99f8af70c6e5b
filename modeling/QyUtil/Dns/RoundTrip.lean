import QyUtil.Dns.NameText

/-! # Encoding a host and reading it back

The encoder takes every byte into a label, and the reading loop takes every byte of
192 or more for a pointer, wherever it stands. So a host is read back exactly when
it has no such byte.
-/

namespace QyUtil.Dns

open Loops Outcome Relation

variable {heap : Heap} {buf : RecvBuf} {d : Bytes} {q calls : ℕ} {ls : List Bytes} {r : NameRead}

theorem wireName_append (hs : ∀ l ∈ ls, LabelSize l)
    (hb : ∀ l ∈ ls, ∀ b ∈ l, 1 ≤ b ∧ b ≤ 191) (h : encodeLabels ls <+: d.drop q)
    {ms : List Bytes} {n : ℕ} (hn : WireName d (q + (encodeLabels ls).length) ms n) :
    WireName d q (ls ++ ms) ((encodeLabels ls).length + n) := by
  induction ls generalizing q with
  | nil => simpa using hn
  | cons l ls ih =>
    obtain ⟨hl, hls⟩ := List.forall_mem_cons.mp hs
    obtain ⟨hbl, hbls⟩ := List.forall_mem_cons.mp hb
    rw [encodeLabels_cons] at h
    have hfirst : UInt8.ofNat l.length :: l <+: d.drop q := (List.prefix_append _ _).trans h
    have hrest : encodeLabels ls <+: d.drop (q + (l.length + 1)) := by
      have hdrop := h.drop (l.length + 1)
      rwa [List.drop_left' (by simp), List.drop_drop] at hdrop
    have hlen : (encodeLabels (l :: ls)).length = l.length + 1 + (encodeLabels ls).length := by
      simp
      omega
    rw [hlen, ← Nat.add_assoc] at hn
    rw [hlen, Nat.add_assoc]
    exact .label hl hbl hfirst (ih hls hbls hrest hn)

theorem wireName_encoded (hs : ∀ l ∈ ls, LabelSize l)
    (hb : ∀ l ∈ ls, ∀ b ∈ l, 1 ≤ b ∧ b ≤ 191) (h : encodeLabels ls ++ [0] <+: d.drop q) :
    WireName d q ls ((encodeLabels ls).length + 1) := by
  have hroot : WireName d (q + (encodeLabels ls).length) [] 1 := by
    apply WireName.root
    have hdrop := h.drop (encodeLabels ls).length
    rwa [List.drop_left, List.drop_drop] at hdrop
  have hname := wireName_append hs hb ((List.prefix_append _ _).trans h) hroot
  rwa [List.append_nil] at hname

theorem readName_lt (hr : Returns (fun k => readName k heap buf q calls) r) {b : Block}
    (hb : r.name = some b) : heap.succeeds calls = true ∧ ∀ x ∈ b.bytes, x < 192 := by
  rcases readName_exits hr with ⟨-, rfl⟩ | ⟨hm, s, hreach, -, ⟨hq, h0, hfinish⟩ |
    ⟨t, s', -, -, -, -, rfl⟩⟩
  · cases hb
  · obtain ⟨w, hw⟩ :=
      exists_spells_of_walk (reach_walk (start_sized q calls) hreach).1 (.nil hq h0)
    have hname := name_eq hw hreach hq h0
    exact ⟨hm, finishName_lt (fun x hx => hw.mem x (hname ▸ hx)) hfinish hb⟩
  · cases hb

theorem HostLabels.plain (hl : HostLabels ls) (hlt : ∀ l ∈ ls, ∀ b ∈ l, b < 192) :
    ∀ l ∈ ls, ∀ b ∈ l, 1 ≤ b ∧ b ≤ 191 := by
  intro l hm b hb
  have h0 : b ≠ 0 := fun h => hl.no_nul l hm (h ▸ hb)
  have h192 := hlt l hm b hb
  rw [Ne, ← UInt8.toNat_inj] at h0
  rw [UInt8.lt_iff_toNat_lt] at h192
  rw [UInt8.le_iff_toNat_le, UInt8.le_iff_toNat_le]
  exact ⟨Nat.pos_of_ne_zero h0, Nat.le_of_lt_succ h192⟩

theorem mem_joined {l : Bytes} (hl : l ∈ ls) {x : UInt8} (hx : x ∈ l) :
    x ∈ [46].intercalate ls := by
  induction ls with
  | nil => cases hl
  | cons l' ls ih =>
    cases ls with
    | nil =>
      obtain rfl := List.mem_singleton.mp hl
      simpa using hx
    | cons l'' ls =>
      rw [List.intercalate_cons_cons, List.mem_append, List.mem_append]
      rcases List.mem_cons.mp hl with rfl | hl
      · exact .inl (.inl hx)
      · exact .inr (ih hl)

/-- A host that has been encoded anywhere in a buffer is read back, and all its bytes
are counted, exactly when there is memory for it and it has no byte of 192 or more. -/
theorem round_trip_iff (heap : Heap) (buf : RecvBuf) (q calls : ℕ) (ls : List Bytes)
    (hl : HostLabels ls)
    (hat : changetoDnsNameFormat (hostName ls false) <+: buf.datagram.drop q) :
    (∃ r b, Returns (fun k => readName k heap buf q calls) r ∧
      r.name = some ⟨b, hostName ls false⟩ ∧
      r.count = (changetoDnsNameFormat (hostName ls false)).length) ↔
    heap.succeeds calls = true ∧ ∀ l ∈ ls, ∀ x ∈ l, x < 192 := by
  have hhost : hostName ls false = [46].intercalate ls := by simp [hostName]
  have henc : changetoDnsNameFormat (hostName ls false) = encodeLabels ls ++ [0] :=
    hl.changeto false
  rw [henc] at hat ⊢
  constructor
  · rintro ⟨r, b, hr, hname, -⟩
    obtain ⟨hm, hlt⟩ := readName_lt hr hname
    rw [hhost] at hlt
    exact ⟨hm, fun l hl x hx => hlt x (mem_joined hl hx)⟩
  · rintro ⟨hm, hlt⟩
    have hlen := hl.length_encode
    have hname : NameAt buf.datagram q ls ((encodeLabels ls).length + 1) :=
      ⟨wireName_encoded hl.size (hl.plain hlt) hat, hl.ne_nil, by omega⟩
    obtain ⟨r, b, hr, htext, hcount⟩ := hname.readName hm
    exact ⟨r, b, hr, by rw [htext, hhost], by rw [hcount, List.length_append]; rfl⟩

def encodedQq : RecvBuf := ⟨[2, 113, 113, 0], by decide⟩

theorem labelsQq : HostLabels [[113, 113]] where
  ne_nil := by decide
  size := by simp only [LabelSize]; decide
  no_nul := by decide
  no_dot := by decide
  length_le := by decide

theorem round_trip_qq :
    (∃ r b, Returns (fun k => readName k plentiful encodedQq 0 0) r ∧
      r.name = some ⟨b, hostName [[113, 113]] false⟩ ∧
      r.count = (changetoDnsNameFormat (hostName [[113, 113]] false)).length) ↔
    plentiful.succeeds 0 = true ∧ ∀ l ∈ ([[113, 113]] : List Bytes), ∀ x ∈ l, x < 192 :=
  round_trip_iff plentiful encodedQq 0 0 [[113, 113]] labelsQq (by decide)

/-- The host `é` in UTF-8 in place. -/
def encodedAccent : RecvBuf := ⟨[2, 195, 169, 0], by decide⟩

/-- The byte 195 of the label is taken for a pointer, and the host does not come back. -/
theorem accent_lost :
    HostLabels [[195, 169]] ∧
    changetoDnsNameFormat (hostName [[195, 169]] false) <+: encodedAccent.datagram.drop 0 ∧
    ¬ ∃ r b, Returns (fun k => readName k plentiful encodedAccent 0 0) r ∧
      r.name = some ⟨b, hostName [[195, 169]] false⟩ ∧
      r.count = (changetoDnsNameFormat (hostName [[195, 169]] false)).length := by
  refine ⟨⟨by decide, by simp only [LabelSize]; decide, by decide, by decide, by decide⟩,
    by decide, ?_⟩
  rintro ⟨r, b, hr, hname, -⟩
  have hmem : (195 : UInt8) ∈ hostName [[195, 169]] false := by decide
  exact absurd ((readName_lt hr hname).2 195 hmem) (by decide)

end QyUtil.Dns
