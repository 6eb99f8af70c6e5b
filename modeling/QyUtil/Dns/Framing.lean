import QyUtil.Dns.AddressWalk
import QyUtil.Dns.Resolve

/-! # The frames of records

The records of an answer section as RFC 1035 frames them, with names and data of any
bytes, and where `ReadRecvAnswer` takes them to start. Its cursor follows RDLENGTH for
the records of one type only. The data of all others is read as a name, and where this
name does not end with the data the following records are read from the wrong place.
-/

namespace QyUtil.Dns

open Loops Outcome

variable {heap : Heap} {buf : RecvBuf} {q s k i s' k' c f : ℕ}

/-- The name at `q` takes up `n` bytes there. Its labels have 1 to 63 bytes, of any value. -/
inductive NameSpan (d : Bytes) : ℕ → ℕ → Prop

  | root {q : ℕ} : [0] <+: d.drop q → NameSpan d q 1

  | label {q n : ℕ} {l : Bytes} : LabelSize l → UInt8.ofNat l.length :: l <+: d.drop q →
      NameSpan d (q + (l.length + 1)) n → NameSpan d q (l.length + 1 + n)

  | pointer {q n : ℕ} {hi lo : UInt8} : [hi, lo] <+: d.drop q → 192 ≤ hi →
      NameSpan d (pointerTarget hi lo) n → NameSpan d q 2

/-- Where a record starts, and the size of its owner name. -/
structure RecordSpan where
  start : ℕ
  nameSize : ℕ

namespace RecordSpan

def fields (r : RecordSpan) : ℕ := r.start + r.nameSize

def data (r : RecordSpan) : ℕ := r.fields + rDataSize

def type (buf : RecvBuf) (r : RecordSpan) : ℕ := buf.be16 r.fields

def dataLen (buf : RecvBuf) (r : RecordSpan) : ℕ := buf.be16 (r.fields + dataLenOffset)

def dataBytes (buf : RecvBuf) (r : RecordSpan) : Bytes :=
  (List.range' r.data (r.dataLen buf)).map buf.byte

def stop (buf : RecvBuf) (r : RecordSpan) : ℕ := r.data + r.dataLen buf

end RecordSpan

variable {r : RecordSpan} {rs : List RecordSpan}

/-- The records from `q` on, each behind the end of the one before it. -/
inductive SectionAt (buf : RecvBuf) : ℕ → List RecordSpan → Prop

  | nil {q : ℕ} : SectionAt buf q []

  | cons {r : RecordSpan} {rs : List RecordSpan} : NameSpan buf.datagram r.start r.nameSize →
      r.stop buf ≤ buf.datagram.length → SectionAt buf (r.stop buf) rs →
      SectionAt buf r.start (r :: rs)

/-- Iteration `i` of the loop of `ReadRecvAnswer` starts with its cursor at `s'`, when
the loop starts at `s`; `k` and `k'` number the heap calls. -/
inductive Started (heap : Heap) (buf : RecvBuf) (s k : ℕ) : ℕ → ℕ → ℕ → Prop

  | first : Started heap buf s k 0 s k

  | next {i s' k' : ℕ} {a : AnswerRead} : Started heap buf s k i s' k' →
      Returns (fun n => readAnswer n heap buf s' k') a → a.more = true →
      Started heap buf s k (i + 1) a.reader a.calls

/-- The record is read from its own bytes: the fixed fields through `resource`, and the data. -/
structure OwnBytes (buf : RecvBuf) (r : RecordSpan) (record : ResRecord) : Prop where
  resource : record.resource = some r.fields
  rdata : ∃ b, record.rdata = some b ∧ b.bytes = r.dataBytes buf ++ [0]

/-- Each record is started where it starts, and those of type A are read from their own bytes. -/
def Framed (heap : Heap) (buf : RecvBuf) (s k : ℕ) (rs : List RecordSpan) : Prop :=
  ∀ i r, rs[i]? = some r →
    (∀ s', (∃ k', Started heap buf s k i s' k') ↔ s' = r.start) ∧
    (r.type buf = 1 → ∃ k' a, Started heap buf s k i r.start k' ∧
      Returns (fun n => readAnswer n heap buf r.start k') a ∧ OwnBytes buf r a.record)

theorem started_zero_iff : Started heap buf s k 0 s' k' ↔ s' = s ∧ k' = k := by
  constructor
  · rintro ⟨⟩
    exact ⟨rfl, rfl⟩
  · rintro ⟨rfl, rfl⟩
    exact .first

theorem started_succ_iff : Started heap buf s k (i + 1) s' k' ↔
    ∃ a, Returns (fun n => readAnswer n heap buf s k) a ∧ a.more = true ∧
      Started heap buf a.reader a.calls i s' k' := by
  constructor
  · intro h
    induction i generalizing s' k' with
    | zero =>
      rcases h with _ | ⟨hs, ha, hmore⟩
      obtain ⟨rfl, rfl⟩ := started_zero_iff.mp hs
      exact ⟨_, ha, hmore, .first⟩
    | succ i ih =>
      rcases h with _ | ⟨hs, ha, hmore⟩
      obtain ⟨a₀, ha₀, hmore₀, hs₀⟩ := ih hs
      exact ⟨a₀, ha₀, hmore₀, .next hs₀ ha hmore⟩
  · rintro ⟨a₀, ha₀, hmore₀, hs⟩
    induction hs with
    | first => exact .next .first ha₀ hmore₀
    | next _ ha hmore ih => exact .next ih ha hmore

theorem started_tail {a : AnswerRead} (ha : Returns (fun n => readAnswer n heap buf s k) a)
    (hmore : a.more = true) :
    Started heap buf s k (i + 1) s' k' ↔ Started heap buf a.reader a.calls i s' k' := by
  rw [started_succ_iff]
  constructor
  · rintro ⟨a', ha', -, hs⟩
    obtain rfl := ha.unique (readAnswer_progressive heap buf s k) ha'
    exact hs
  · exact fun hs => ⟨a, ha, hmore, hs⟩

theorem Framed.tail {a : AnswerRead} (ha : Returns (fun n => readAnswer n heap buf s k) a)
    (hmore : a.more = true) :
    Framed heap buf a.reader a.calls rs ↔ ∀ i r', rs[i]? = some r' →
      (∀ s', (∃ k', Started heap buf s k (i + 1) s' k') ↔ s' = r'.start) ∧
      (r'.type buf = 1 → ∃ k' a', Started heap buf s k (i + 1) r'.start k' ∧
        Returns (fun n => readAnswer n heap buf r'.start k') a' ∧ OwnBytes buf r' a'.record) := by
  simp only [Framed, started_tail ha hmore]

theorem framed_cons_iff : Framed heap buf s k (r :: rs) ↔
    s = r.start ∧
    (r.type buf = 1 → ∃ a, Returns (fun n => readAnswer n heap buf s k) a ∧
      OwnBytes buf r a.record) ∧
    (rs ≠ [] → ∃ a, Returns (fun n => readAnswer n heap buf s k) a ∧ a.more = true ∧
      Framed heap buf a.reader a.calls rs) := by
  constructor
  · intro h
    obtain ⟨hstart, haddress⟩ := h 0 r rfl
    obtain rfl := (hstart s).mp ⟨k, .first⟩
    refine ⟨rfl, fun ht => ?_, fun hne => ?_⟩
    · obtain ⟨k', a, hs, ha, hown⟩ := haddress ht
      obtain ⟨-, rfl⟩ := started_zero_iff.mp hs
      exact ⟨a, ha, hown⟩
    · obtain ⟨r', rs', rfl⟩ := List.exists_cons_of_ne_nil hne
      obtain ⟨k', hs⟩ := ((h 1 r' rfl).1 r'.start).mpr rfl
      obtain ⟨a, ha, hmore, -⟩ := started_succ_iff.mp hs
      exact ⟨a, ha, hmore, (Framed.tail ha hmore).mpr fun i r'' hr => h (i + 1) r'' hr⟩
  · rintro ⟨rfl, haddress, htail⟩ i r' hr
    cases i with
    | zero =>
      obtain rfl := Option.some.inj hr
      refine ⟨fun s' => ⟨?_, ?_⟩, fun ht => ?_⟩
      · rintro ⟨k', hs⟩
        exact (started_zero_iff.mp hs).1
      · rintro rfl
        exact ⟨k, .first⟩
      · obtain ⟨a, ha, hown⟩ := haddress ht
        exact ⟨k, a, .first, ha, hown⟩
    | succ i =>
      obtain ⟨a, ha, hmore, hrest⟩ := htail (by rintro rfl; simp at hr)
      exact (Framed.tail ha hmore).mp hrest i r' hr

theorem Framed.start_eq (h : Framed heap buf s' k rs) (hsec : SectionAt buf s rs) (hne : rs ≠ []) :
    s' = s := by
  cases hsec with
  | nil => exact absurd rfl hne
  | cons => exact (framed_cons_iff.mp h).1

/-- The records are read to their ends, as `k` numbers the heap calls. An owner name is
`measured` when what `ReadName` reports for it is its size. -/
inductive Aligned (heap : Heap) (buf : RecvBuf) : ℕ → List RecordSpan → Prop

  | nil {k : ℕ} : Aligned heap buf k []

  /-- Behind the last record nothing is read. -/
  | last {k : ℕ} {r : RecordSpan} : r.type buf ≠ 1 → Aligned heap buf k [r]

  /-- An address has a measured name, and gets a block. -/
  | address {k k' : ℕ} {r : RecordSpan} {rs : List RecordSpan} : r.type buf = 1 →
      NameEnd heap buf r.start k r.nameSize k' → heap.succeeds k' = true →
      Aligned heap buf (k' + 1) rs → Aligned heap buf k (r :: rs)

  /-- The data of any other record ends where a name ends. -/
  | name {k k' k'' : ℕ} {r : RecordSpan} {rs : List RecordSpan} : r.type buf ≠ 1 →
      NameEnd heap buf r.start k r.nameSize k' →
      NameEnd heap buf r.data k' (r.dataLen buf) k'' →
      Aligned heap buf k'' rs → Aligned heap buf k (r :: rs)

  /-- What is taken for the fixed fields, at `f`, leads to the end of the record all the same. -/
  | cancelled {k k' f : ℕ} {r : RecordSpan} {rs : List RecordSpan} : r.type buf ≠ 1 →
      f ≠ r.fields → RecordRead heap buf r.start k f (r.stop buf) k' →
      Aligned heap buf k' rs → Aligned heap buf k (r :: rs)

theorem readAnswer_data {a : AnswerRead} (h : Returns (fun n => readAnswer n heap buf s k) a)
    (hf : a.record.resource = some f) (ht : buf.be16 f = 1) (hmore : a.more = true) :
    ∃ b, a.record.rdata = some b ∧ b.bytes =
      (List.range' (f + rDataSize) (buf.be16 (f + dataLenOffset))).map buf.byte ++ [0] := by
  obtain ⟨owner, -, fuel, hn⟩ := h.of_bind
  obtain ⟨type, htype, hn⟩ := bind_eq_done.mp hn
  obtain ⟨-, rfl⟩ := ntohs_eq_done htype
  by_cases ht' : buf.be16 (s + owner.count) = 1
  · rw [if_pos ht'] at hn
    obtain ⟨len, hlen, hn⟩ := bind_eq_done.mp hn
    obtain ⟨hin, rfl⟩ := ntohs_eq_done hlen
    split_ifs at hn with hm
    · obtain ⟨data, hdata, hn⟩ := bind_eq_done.mp hn
      have hle : s + owner.count + rDataSize ≤ bufLen := by
        simp only [dataLenOffset, rDataSize] at hin ⊢
        omega
      obtain ⟨-, rfl⟩ := copy_eq_done hle hdata
      obtain rfl := done.inj hn
      obtain rfl := Option.some.inj hf
      exact ⟨_, rfl, rfl⟩
    · obtain rfl := done.inj hn
      cases hmore
  · rw [if_neg ht'] at hn
    obtain ⟨data, -, hn⟩ := bind_eq_done.mp hn
    obtain rfl := done.inj hn
    obtain rfl := Option.some.inj hf
    exact absurd ht ht'

theorem OwnBytes.read {a : AnswerRead} (h : OwnBytes buf r a.record) (ht : r.type buf = 1)
    (ha : Returns (fun n => readAnswer n heap buf r.start k) a) :
    ∃ k', NameEnd heap buf r.start k r.nameSize k' ∧ heap.succeeds k' = true ∧
      a.calls = k' + 1 := by
  rcases readAnswer_read ha with ⟨-, f, hread, hkept⟩ | ⟨-, f, -, -, -, hnone⟩
  · obtain rfl : f = r.fields := Option.some.inj (hkept.resource.symm.trans h.resource)
    generalize hf : r.fields = f at hread
    generalize a.reader = s' at hread
    generalize a.calls = k' at hread ⊢
    cases hread with
    | @address c k' hname _ hm _ =>
      obtain rfl : c = r.nameSize := by
        simp only [RecordSpan.fields] at hf
        omega
      exact ⟨k', hname, hm, rfl⟩
    | name _ _ ht' => exact absurd (hf ▸ ht) ht'
  · obtain ⟨b, hb, -⟩ := h.rdata
    rw [hnone] at hb
    cases hb

theorem RecordRead.aligned (h : RecordRead heap buf r.start k f (r.stop buf) k')
    (ht : r.type buf ≠ 1) (hrest : Aligned heap buf k' rs) : Aligned heap buf k (r :: rs) := by
  by_cases hf : f = r.fields
  · generalize hstop : r.stop buf = s' at h
    cases h with
    | address _ ht' =>
      rw [hf] at ht'
      exact absurd ht' ht
    | @name c k₁ c' _ hname _ _ hdata =>
      obtain rfl : c = r.nameSize := by
        simp only [RecordSpan.fields] at hf
        omega
      obtain rfl : c' = r.dataLen buf := by
        simp only [RecordSpan.stop, RecordSpan.data, RecordSpan.fields] at hstop
        omega
      exact .name ht hname hdata hrest
  · exact .cancelled ht hf h hrest

theorem Framed.aligned (hsec : SectionAt buf s rs) (h : Framed heap buf s k rs) :
    Aligned heap buf k rs := by
  induction hsec generalizing k with
  | nil => exact .nil
  | @cons r rs _ _ hrest ih =>
    obtain ⟨-, haddress, htail⟩ := framed_cons_iff.mp h
    by_cases ht : r.type buf = 1
    · obtain ⟨a, ha, hown⟩ := haddress ht
      obtain ⟨k', hname, hm, hcalls⟩ := hown.read ht ha
      refine .address ht hname hm ?_
      by_cases hne : rs = []
      · exact hne ▸ .nil
      · obtain ⟨a', ha', hmore, hframed⟩ := htail hne
        obtain rfl := ha.unique (readAnswer_progressive heap buf r.start k) ha'
        have hreader : a.reader = r.stop buf := hframed.start_eq hrest hne
        rw [hreader, hcalls] at hframed
        exact ih hframed
    · by_cases hne : rs = []
      · exact hne ▸ .last ht
      · obtain ⟨a, ha, hmore, hframed⟩ := htail hne
        have hreader : a.reader = r.stop buf := hframed.start_eq hrest hne
        rcases readAnswer_read ha with ⟨-, f, hread, -⟩ | ⟨hstop, -⟩
        · rw [hreader] at hread hframed
          exact hread.aligned ht (ih hframed)
        · rw [hmore] at hstop
          cases hstop

theorem RecordRead.ownBytes (h : RecordRead heap buf s k r.fields s' k')
    (ht : r.type buf = 1) : ∃ a, Returns (fun n => readAnswer n heap buf s k) a ∧
      a.more = true ∧ a.reader = s' ∧ a.calls = k' ∧ OwnBytes buf r a.record := by
  obtain ⟨a, ha, hmore, hreader, hcalls, hkept⟩ := h.returns
  exact ⟨a, ha, hmore, hreader, hcalls, hkept.resource,
    readAnswer_data ha hkept.resource ht hmore⟩

theorem RecordRead.framed (h : RecordRead heap buf r.start k f (r.stop buf) k')
    (ht : r.type buf ≠ 1) (hrest : Framed heap buf (r.stop buf) k' rs) :
    Framed heap buf r.start k (r :: rs) := by
  obtain ⟨a, ha, hmore, hreader, rfl, -⟩ := h.returns
  exact framed_cons_iff.mpr ⟨rfl, fun ht' => absurd ht' ht, fun _ => ⟨a, ha, hmore,
    hreader ▸ hrest⟩⟩

theorem Aligned.framed (hsec : SectionAt buf s rs) (h : Aligned heap buf k rs) :
    Framed heap buf s k rs := by
  induction h generalizing s with
  | nil => exact fun i r hr => by simp at hr
  | @last k r ht =>
    cases hsec
    exact framed_cons_iff.mpr ⟨rfl, fun ht' => absurd ht' ht, fun hne => absurd rfl hne⟩
  | @address k k' r rs ht hname hm _ ih =>
    cases hsec with
    | cons _ hstop hrest =>
    have hread : RecordRead heap buf r.start k r.fields (r.stop buf) (k' + 1) :=
      .address hname ht hm (hstop.trans buf.fits)
    obtain ⟨a, ha, hmore, hreader, hcalls, hown⟩ := hread.ownBytes ht
    refine framed_cons_iff.mpr ⟨rfl, fun _ => ⟨a, ha, hown⟩, fun _ => ⟨a, ha, hmore, ?_⟩⟩
    rw [hreader, hcalls]
    exact ih hrest
  | @name k k' k'' r rs ht hname hdata _ ih =>
    cases hsec with
    | cons _ hstop hrest =>
    have hin : r.fields + 1 < bufLen := by
      have := hstop.trans buf.fits
      simp only [RecordSpan.stop, RecordSpan.data, rDataSize] at this
      omega
    exact RecordRead.framed (.name hname hin ht hdata) ht (ih hrest)
  | cancelled ht _ hread _ ih =>
    cases hsec with
    | cons _ _ hrest => exact hread.framed ht (ih hrest)

theorem SectionAt.take (h : SectionAt buf s rs) (m : ℕ) : SectionAt buf s (rs.take m) := by
  induction h generalizing m with
  | nil =>
    rw [List.take_nil]
    exact .nil
  | cons hname hstop _ ih =>
    cases m with
    | zero => exact .nil
    | succ m => exact .cons hname hstop (ih m)

/-- `ReadRecvAnswer` starts each record it goes over where it starts, and reads those of
type A from their own bytes. -/
def CursorFramed (heap : Heap) (buf : RecvBuf) (q : ℕ) (rs : List RecordSpan) : Prop :=
  ∀ i r, i < recordCount buf → rs[i]? = some r →
    (∀ s, (∃ k, Started heap buf q 0 i s k) ↔ s = r.start) ∧
    (r.type buf = 1 → ∃ k a, Started heap buf q 0 i r.start k ∧
      Returns (fun n => readAnswer n heap buf r.start k) a ∧ OwnBytes buf r a.record)

/-- The records of a section are read from their own places exactly when the names and
data that are scanned take up their frames. -/
theorem cursor_framed_iff (heap : Heap) (hsec : SectionAt buf q rs) :
    CursorFramed heap buf q rs ↔ Aligned heap buf 0 (rs.take (recordCount buf)) := by
  have hframed : CursorFramed heap buf q rs ↔
      Framed heap buf q 0 (rs.take (recordCount buf)) := by
    refine forall_congr' fun i => forall_congr' fun r => ?_
    rw [List.getElem?_take]
    split_ifs with hi
    · exact forall_prop_of_true hi
    · simp [hi]
  rw [hframed]
  exact ⟨fun h => h.aligned (hsec.take _), fun h => h.framed (hsec.take _)⟩

theorem aliasResponse_section : SectionAt aliasResponse 21 [⟨21, 2⟩, ⟨37, 2⟩] := by
  have ha : NameSpan aliasResponse.datagram 14 3 :=
    .label (l := [97]) ⟨by decide, by decide⟩ (by decide) (.root (by decide))
  have hq : NameSpan aliasResponse.datagram 12 5 :=
    .label (l := [113]) ⟨by decide, by decide⟩ (by decide) ha
  have hptr : [192, 14] <+: aliasResponse.datagram.drop 35 := by decide
  have hb : NameSpan aliasResponse.datagram 33 4 :=
    .label (l := [98]) ⟨by decide, by decide⟩ (by decide) (.pointer hptr (by decide) ha)
  have hname : [192, 12] <+: aliasResponse.datagram.drop 21 := by decide
  have hname' : [192, 33] <+: aliasResponse.datagram.drop 37 := by decide
  exact .cons (r := ⟨21, 2⟩) (.pointer hname (by decide) hq) (by decide)
    (.cons (r := ⟨37, 2⟩) (.pointer hname' (by decide) hb) (by decide) .nil)

theorem cursor_framed_alias : CursorFramed plentiful aliasResponse 21 [⟨21, 2⟩, ⟨37, 2⟩] ↔
    Aligned plentiful aliasResponse 0
      (([⟨21, 2⟩, ⟨37, 2⟩] : List RecordSpan).take (recordCount aliasResponse)) :=
  cursor_framed_iff plentiful aliasResponse_section

def textResponse : RecvBuf where
  datagram := [18, 52, 129, 128, 0, 1, 0, 2, 0, 0, 0, 0, 1, 113, 1, 97, 0, 0, 1, 0, 1,
    192, 12, 0, 16, 0, 1, 0, 0, 0, 60, 0, 4, 3, 97, 98, 99,
    192, 12, 0, 1, 0, 1, 0, 0, 0, 60, 0, 4, 93, 184, 216, 34]
  fits := by decide

theorem textResponse_section : SectionAt textResponse 21 [⟨21, 2⟩, ⟨37, 2⟩] := by
  have ha : NameSpan textResponse.datagram 14 3 :=
    .label (l := [97]) ⟨by decide, by decide⟩ (by decide) (.root (by decide))
  have hq : NameSpan textResponse.datagram 12 5 :=
    .label (l := [113]) ⟨by decide, by decide⟩ (by decide) ha
  have hname : [192, 12] <+: textResponse.datagram.drop 21 := by decide
  have hname' : [192, 12] <+: textResponse.datagram.drop 37 := by decide
  exact .cons (r := ⟨21, 2⟩) (.pointer hname (by decide) hq) (by decide)
    (.cons (r := ⟨37, 2⟩) (.pointer hname' (by decide) hq) (by decide) .nil)

theorem NameEnd.count_eq (hh : heap.Reliable) (h : NameEnd heap buf q k c k') :
    c = wireLength buf q := by
  cases h with
  | noBuffer hm =>
    rw [hh] at hm
    cases hm
  | refused _ hr =>
    have hf := hr.refused
    rw [hh] at hf
    cases hf
  | read => rfl

/-- The data `3 a b c` is read on into the next record, which is started two bytes late. -/
theorem text_record_misread : SectionAt textResponse 21 [⟨21, 2⟩, ⟨37, 2⟩] ∧
    textResponse.be16 6 = 2 ∧ ¬ CursorFramed plentiful textResponse 21 [⟨21, 2⟩, ⟨37, 2⟩] := by
  refine ⟨textResponse_section, by decide, fun h => ?_⟩
  have hcount : recordCount textResponse = 2 := by decide
  have hframed : Framed plentiful textResponse 21 0 [⟨21, 2⟩, ⟨37, 2⟩] := fun i r hr =>
    h i r (hcount ▸ (List.getElem?_eq_some_iff.mp hr).1) hr
  cases hframed.aligned textResponse_section with
  | address ht => exact absurd ht (by decide)
  | name _ _ hdata => exact absurd (hdata.count_eq plentiful_reliable) (by decide)
  | cancelled _ hf hread =>
    generalize RecordSpan.stop textResponse ⟨21, 2⟩ = s' at hread
    cases hread with
    | address hname => exact hf (congrArg (21 + ·) (hname.count_eq plentiful_reliable))
    | name hname => exact hf (congrArg (21 + ·) (hname.count_eq plentiful_reliable))

end QyUtil.Dns
