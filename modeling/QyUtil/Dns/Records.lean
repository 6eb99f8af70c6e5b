import QyUtil.Dns.Answer
import QyUtil.Dns.NameFate

/-! # The record walk

With a reliable allocator the cursor of `ReadRecvAnswer` depends on the buffer
alone: a record ends where its name, its fixed fields and its data end on the
wire. So the fate of the walk is decided record by record, by where the names of
each record lead and by what RDLENGTH says.
-/

namespace QyUtil.Dns

open Loops Outcome Turn Relation

variable {heap : Heap} {buf : RecvBuf} {q s i n calls : ℕ} {w : Bytes}

def RecvBuf.be16 (buf : RecvBuf) (i : ℕ) : ℕ := Bytes.be16 (buf.byte i) (buf.byte (i + 1))

def fieldsAt (buf : RecvBuf) (s : ℕ) : ℕ := s + wireLength buf s

def recordType (buf : RecvBuf) (s : ℕ) : ℕ := buf.be16 (fieldsAt buf s)

def dataLength (buf : RecvBuf) (s : ℕ) : ℕ := buf.be16 (fieldsAt buf s + dataLenOffset)

def dataAt (buf : RecvBuf) (s : ℕ) : ℕ := fieldsAt buf s + rDataSize

def recordData (buf : RecvBuf) (s : ℕ) : Bytes :=
  (List.range' (dataAt buf s) (dataLength buf s)).map buf.byte

/-- Where `ReadRecvAnswer` takes the next record to start. -/
def recordAfter (buf : RecvBuf) (s : ℕ) : ℕ :=
  dataAt buf s +
    if recordType buf s = 1 then dataLength buf s else wireLength buf (dataAt buf s)

/-- The record at `s` is read to its end. -/
def RecordEnds (buf : RecvBuf) (s : ℕ) : Prop :=
  Acyclic buf s ∧
    if recordType buf s = 1 then dataAt buf s + dataLength buf s ≤ bufLen
    else Acyclic buf (dataAt buf s)

/-- No byte outside the buffer is needed to read the record at `s`. -/
def RecordInside (buf : RecvBuf) (s : ℕ) : Prop :=
  StaysInside buf s ∧ (Acyclic buf s →
    if recordType buf s = 1 then dataAt buf s + dataLength buf s ≤ bufLen
    else StaysInside buf (dataAt buf s))

def RecordsEnd (buf : RecvBuf) : ℕ → ℕ → Prop
  | 0, _ => True
  | n + 1, s => RecordEnds buf s ∧ RecordsEnd buf n (recordAfter buf s)

def RecordsInside (buf : RecvBuf) : ℕ → ℕ → Prop
  | 0, _ => True
  | n + 1, s => RecordInside buf s ∧ (RecordEnds buf s → RecordsInside buf n (recordAfter buf s))

/-- All stores made for the record at `s` are inside their buffers. -/
def RecordFits (buf : RecvBuf) (s : ℕ) : Prop :=
  NameFits buf s ∧ (recordType buf s ≠ 1 → NameFits buf (dataAt buf s))

structure RecordOf (buf : RecvBuf) (s : ℕ) (r : ResRecord) : Prop where
  resource : r.resource = some (fieldsAt buf s)
  rdata : recordType buf s = 1 → ∃ b, r.rdata = some ⟨b, recordData buf s ++ [0]⟩

theorem RecordEnds.inside (h : RecordEnds buf s) : RecordInside buf s := by
  refine ⟨h.1.staysInside, fun _ => ?_⟩
  have h2 := h.2
  split_ifs at h2 ⊢
  · exact h2
  · exact h2.staysInside

theorem RecordsEnd.inside (h : RecordsEnd buf n s) : RecordsInside buf n s := by
  induction n generalizing s with
  | zero => trivial
  | succ n ih => exact ⟨h.1.inside, fun _ => ih h.2⟩

theorem Acyclic.lt (h : Acyclic buf q) : q < bufLen := (h q .refl).1.1

theorem StaysInside.lt (h : StaysInside buf q) : q < bufLen := (h q .refl).1

theorem ntohs_done (h : i + 1 < bufLen) : buf.ntohs i = done (buf.be16 i) := by
  simp [RecvBuf.ntohs, load_of_lt (show i < bufLen by omega), load_of_lt h, RecvBuf.be16]

theorem ntohs_fault (buf : RecvBuf) (h : bufLen ≤ i + 1) : ∃ e, buf.ntohs i = fault e := by
  by_cases hi : i < bufLen
  · exact ⟨_, by simp [RecvBuf.ntohs, load_of_lt hi, load_of_le h]; rfl⟩
  · exact ⟨_, by simp [RecvBuf.ntohs, load_of_le (not_lt.mp hi)]; rfl⟩

theorem copy_done (h : i + n ≤ bufLen) :
    buf.copy n i = done ((List.range' i n).map buf.byte) := by
  induction n generalizing i with
  | zero => rfl
  | succ n ih =>
    simp only [RecvBuf.copy, load_of_lt (show i < bufLen by omega), done_bind,
      ih (show i + 1 + n ≤ bufLen by omega), List.range'_succ, List.map_cons]
    rfl

theorem copy_fault (buf : RecvBuf) (hi : i ≤ bufLen) (h : bufLen < i + n) :
    ∃ e, buf.copy n i = fault e := by
  induction n generalizing i with
  | zero => omega
  | succ n ih =>
    by_cases hlt : i < bufLen
    · obtain ⟨e, he⟩ := ih (i := i + 1) hlt (by omega)
      exact ⟨e, by simp only [RecvBuf.copy, load_of_lt hlt, done_bind, he, fault_bind]⟩
    · exact ⟨_, by simp only [RecvBuf.copy, load_of_le (not_lt.mp hlt), fault_bind]; rfl⟩

theorem readRecord_progressive (heap : Heap) (buf : RecvBuf) (reader : ℕ) (owner : NameRead) :
    Progressive fun k => readRecord k heap buf reader owner := by
  apply Progressive.bind (progressive_const _)
  intro type
  by_cases ht : type = 1
  · simp only [if_pos ht]
    exact progressive_const _
  · simp only [if_neg ht]
    exact Progressive.bind (readName_progressive _ _ _ _) fun _ => progressive_const _

theorem readAnswer_progressive (heap : Heap) (buf : RecvBuf) (reader calls : ℕ) :
    Progressive fun k => readAnswer k heap buf reader calls :=
  Progressive.bind (readName_progressive _ _ _ _) fun _ => readRecord_progressive _ _ _ _

theorem readAnswers_progressive (heap : Heap) (buf : RecvBuf) (n reader calls : ℕ) :
    Progressive fun k => readAnswers k heap buf n reader calls := by
  induction n generalizing reader calls with
  | zero => exact progressive_const _
  | succ n ih =>
    apply Progressive.bind (readAnswer_progressive _ _ _ _)
    intro a
    split_ifs
    · exact Progressive.bind (ih _ _) fun _ => progressive_const _
    · exact progressive_const _

theorem readResponse_progressive (heap : Heap) (buf : RecvBuf) (reader : ℕ)
    (info : SocketIpInfo) : Progressive fun k => readResponse k heap buf reader info :=
  Progressive.bind (Progressive.bind (progressive_const _) fun n =>
    readAnswers_progressive heap buf n reader 0) fun _ => progressive_const _

theorem fillStores_inBounds (block n : ℕ) : InBounds (fillStores block n) := by
  simp only [fillStores, InBounds, List.forall_mem_cons, List.forall_mem_map, inBounds_store,
    List.mem_range]
  exact ⟨trivial, fun k hk => ⟨by omega, by exact_mod_cast hk⟩⟩

theorem readRecord_address (hh : heap.Reliable) {owner : NameRead}
    (hc : owner.count = wireLength buf s) (hs : fieldsAt buf s + 1 < bufLen)
    (ht : recordType buf s = 1) :
    (dataAt buf s + dataLength buf s ≤ bufLen ∧ ∃ a,
      Returns (fun k => readRecord k heap buf s owner) a ∧ a.more = true ∧
      a.reader = recordAfter buf s ∧ RecordOf buf s a.record ∧
      (InBounds a.trace ↔ InBounds owner.trace)) ∨
    (¬ dataAt buf s + dataLength buf s ≤ bufLen ∧
      ∃ e, Faults (fun k => readRecord k heap buf s owner) e) := by
  have hf : s + owner.count = fieldsAt buf s := by rw [hc, fieldsAt]
  have hty : buf.ntohs (fieldsAt buf s) = done 1 := by rw [ntohs_done hs]; exact congrArg done ht
  have hd : fieldsAt buf s + rDataSize = dataAt buf s := rfl
  by_cases hl : fieldsAt buf s + dataLenOffset + 1 < bufLen
  · have hle : dataAt buf s ≤ bufLen := by
      simp only [dataAt, rDataSize, dataLenOffset] at hl ⊢
      omega
    have hlen : buf.ntohs (fieldsAt buf s + dataLenOffset) = done (dataLength buf s) :=
      ntohs_done hl
    by_cases hin : dataAt buf s + dataLength buf s ≤ bufLen
    · refine .inl ⟨hin,
        { record := ⟨owner.name, some (fieldsAt buf s),
            some ⟨owner.calls, recordData buf s ++ [0]⟩⟩
          reader := dataAt buf s + dataLength buf s
          calls := owner.calls + 1
          trace := owner.trace ++ fillStores owner.calls (dataLength buf s)
          more := true }, ⟨0, ?_⟩, rfl, by rw [recordAfter, if_pos ht],
        ⟨rfl, fun _ => ⟨_, rfl⟩⟩, by simp [fillStores_inBounds]⟩
      simp only [readRecord, hf, hty, hd, done_bind, if_true, hlen, if_pos (hh _), copy_done hin]
      rfl
    · obtain ⟨e, he⟩ := copy_fault buf hle (not_le.mp hin)
      refine .inr ⟨hin, e, 0, ?_⟩
      simp only [readRecord, hf, hty, hd, done_bind, if_true, hlen, if_pos (hh _), he, fault_bind]
  · obtain ⟨e, he⟩ := ntohs_fault buf (not_lt.mp hl)
    refine .inr ⟨?_, e, 0, ?_⟩
    · simp only [dataAt, rDataSize, dataLenOffset] at hl ⊢
      omega
    · simp only [readRecord, hf, hty, done_bind, if_true, he, fault_bind]

def namedRecord (buf : RecvBuf) (s : ℕ) (owner data : NameRead) : AnswerRead where
  record := ⟨owner.name, some (fieldsAt buf s), data.name⟩
  reader := dataAt buf s + data.count
  calls := data.calls
  trace := owner.trace ++ data.trace
  more := true

theorem readRecord_name (heap : Heap) {owner : NameRead}
    (hc : owner.count = wireLength buf s) (hs : fieldsAt buf s + 1 < bufLen)
    (ht : recordType buf s ≠ 1) (k : ℕ) :
    readRecord k heap buf s owner =
      readName k heap buf (dataAt buf s) owner.calls >>= fun data =>
        pure (namedRecord buf s owner data) := by
  have hf : s + owner.count = fieldsAt buf s := by rw [hc, fieldsAt]
  have hty : buf.ntohs (fieldsAt buf s) = done (recordType buf s) := ntohs_done hs
  simp only [readRecord, hf, hty, done_bind, if_neg ht]
  rfl

theorem fields_outside (hs : bufLen ≤ fieldsAt buf s + 1) :
    recordType buf s ≠ 1 ∧ bufLen ≤ dataAt buf s := by
  have hle : buf.datagram.length ≤ fieldsAt buf s + 1 := buf.fits.trans hs
  refine ⟨?_, ?_⟩
  · rw [recordType, RecvBuf.be16, byte_eq_zero_of_le hle, Bytes.be16]
    simp only [UInt8.toNat_zero]
    omega
  · simp only [dataAt, rDataSize]
    omega

theorem readAnswer_fate (hh : heap.Reliable) (buf : RecvBuf) (s calls : ℕ) :
    (RecordEnds buf s ∧ ∃ a, Returns (fun k => readAnswer k heap buf s calls) a ∧
      a.more = true ∧ a.reader = recordAfter buf s ∧ RecordOf buf s a.record ∧
      (InBounds a.trace ↔ RecordFits buf s)) ∨
    (¬ RecordInside buf s ∧ ∃ e, Faults (fun k => readAnswer k heap buf s calls) e) ∨
    (RecordInside buf s ∧ ¬ RecordEnds buf s ∧
      Diverges fun k => readAnswer k heap buf s calls) := by
  have hname := readName_progressive heap buf s calls
  rcases readName_fate hh buf s calls with ⟨ha, owner, hr, hc, hb⟩ | ⟨hi, e, he⟩ | ⟨hi, ha, hd⟩
  · have hrec := readRecord_progressive heap buf s owner
    by_cases hs : fieldsAt buf s + 1 < bufLen
    · by_cases ht : recordType buf s = 1
      · rcases readRecord_address hh hc hs ht with
          ⟨hin, a, hra, hmore, hreader, hof, hba⟩ | ⟨hout, e, he⟩
        · refine .inl ⟨⟨ha, by rwa [if_pos ht]⟩, a, hr.bind hname hrec hra, hmore, hreader, hof, ?_⟩
          rw [hba, hb, RecordFits, and_iff_left fun h => absurd ht h]
        · refine .inr (.inl ⟨fun h => hout ?_, e, hr.bind_faults hname hrec he⟩)
          have := h.2 ha
          rwa [if_pos ht] at this
      · have hbody := funext (readRecord_name heap hc hs ht)
        have hdata := readName_progressive heap buf (dataAt buf s) owner.calls
        rcases readName_fate hh buf (dataAt buf s) owner.calls with
          ⟨ha', data, hr', hc', hb'⟩ | ⟨hi', e, he⟩ | ⟨hi', ha', hd⟩
        · refine .inl ⟨⟨ha, by rwa [if_neg ht]⟩, namedRecord buf s owner data,
            hr.bind hname hrec ?_, rfl, ?_, ⟨rfl, fun h => absurd h ht⟩, ?_⟩
          · rw [hbody]
            exact hr'.bind hdata (progressive_const _) ⟨0, rfl⟩
          · rw [recordAfter, if_neg ht, ← hc']
            rfl
          · rw [namedRecord, inBounds_append, hb, hb', RecordFits, forall_prop_of_true ht]
        · refine .inr (.inl ⟨fun h => hi' ?_, e, hr.bind_faults hname hrec ?_⟩)
          · have := h.2 ha
            rwa [if_neg ht] at this
          · rw [hbody]
            exact he.bind
        · refine .inr (.inr ⟨⟨ha.staysInside, fun _ => by rwa [if_neg ht]⟩, fun h => ha' ?_,
            hr.bind_diverges hname ?_⟩)
          · have := h.2
            rwa [if_neg ht] at this
          · rw [hbody]
            exact hd.bind
    · obtain ⟨ht, hle⟩ := fields_outside (not_lt.mp hs)
      obtain ⟨e, he⟩ := ntohs_fault buf (not_lt.mp hs)
      refine .inr (.inl ⟨fun h => ?_, e, hr.bind_faults hname hrec ⟨0, ?_⟩⟩)
      · have := h.2 ha
        rw [if_neg ht] at this
        exact absurd this.lt (not_lt.mpr hle)
      · have hf : s + owner.count = fieldsAt buf s := by rw [hc, fieldsAt]
        simp only [readRecord, hf, he, fault_bind]
  · exact .inr (.inl ⟨fun h => hi h.1, e, he.bind⟩)
  · exact .inr (.inr ⟨⟨hi, fun h => absurd h ha⟩, fun h => ha h.1, hd.bind⟩)

def recordStarts (buf : RecvBuf) (n s : ℕ) : List ℕ := List.iterate (recordAfter buf) s n

/-- With a reliable heap, the records are all read to their end, some record
needs a byte outside the buffer, or some record is never finished. -/
theorem readAnswers_fate (hh : heap.Reliable) (buf : RecvBuf) (n s calls : ℕ) :
    (RecordsEnd buf n s ∧ ∃ a, Returns (fun k => readAnswers k heap buf n s calls) a ∧
      List.Forall₂ (RecordOf buf) (recordStarts buf n s) a.records ∧
      (InBounds a.trace ↔ ∀ s' ∈ recordStarts buf n s, RecordFits buf s')) ∨
    (¬ RecordsInside buf n s ∧ ∃ e, Faults (fun k => readAnswers k heap buf n s calls) e) ∨
    (RecordsInside buf n s ∧ ¬ RecordsEnd buf n s ∧
      Diverges fun k => readAnswers k heap buf n s calls) := by
  induction n generalizing s calls with
  | zero =>
    exact .inl ⟨trivial, _, ⟨0, rfl⟩, .nil, by simp [InBounds, recordStarts]⟩
  | succ n ih =>
    have hfirst := readAnswer_progressive heap buf s calls
    rcases readAnswer_fate hh buf s calls with
      ⟨he, a, hr, hmore, hreader, hrec, hb⟩ | ⟨hi, e, hf⟩ | ⟨hi, he, hd⟩
    · have hbody : (fun k => if a.more then do
            let rest ← readAnswers k heap buf n a.reader a.calls
            pure (rest.cons a.record a.trace)
          else pure { records := [a.record], calls := a.calls, trace := a.trace }) =
          fun k => readAnswers k heap buf n (recordAfter buf s) a.calls >>= fun rest =>
            (pure (rest.cons a.record a.trace) : Outcome Fault Answers) := by
        simp only [hmore, if_true, hreader]
      have hrest := readAnswers_progressive heap buf n (recordAfter buf s) a.calls
      have hprog : Progressive (fun k => if a.more then do
            let rest ← readAnswers k heap buf n a.reader a.calls
            pure (rest.cons a.record a.trace)
          else pure { records := [a.record], calls := a.calls, trace := a.trace }) := by
        rw [hbody]
        exact Progressive.bind hrest fun _ => progressive_const _
      rcases ih (recordAfter buf s) a.calls with
        ⟨hes, as, hrs, hall, hbs⟩ | ⟨his, e, hfs⟩ | ⟨his, hes, hds⟩
      · refine .inl ⟨⟨he, hes⟩, as.cons a.record a.trace, hr.bind hfirst hprog
          (hbody ▸ hrs.bind hrest (progressive_const _) ⟨0, rfl⟩), .cons hrec hall, ?_⟩
        rw [Answers.cons, inBounds_append, hb, hbs]
        exact List.forall_mem_cons.symm
      · exact .inr (.inl ⟨fun h => his (h.2 he), e, hr.bind_faults hfirst hprog
          (hbody ▸ hfs.bind)⟩)
      · exact .inr (.inr ⟨⟨he.inside, fun _ => his⟩, fun h => hes h.2,
          hr.bind_diverges hfirst (hbody ▸ hds.bind)⟩)
    · exact .inr (.inl ⟨fun h => hi h.1, e, hf.bind⟩)
    · exact .inr (.inr ⟨⟨hi, fun h => absurd h he⟩, fun h => he h.1, hd.bind⟩)

def recordCount (buf : RecvBuf) : ℕ := min socketMaxIpCount (buf.be16 6)

theorem answerCount_done (buf : RecvBuf) : answerCount buf = done (recordCount buf) := by
  rw [answerCount, ntohs_done (show 6 + 1 < bufLen by decide)]
  rfl

theorem readRecvAnswer_eq (k : ℕ) :
    readRecvAnswer k heap buf s calls = readAnswers k heap buf (recordCount buf) s calls := by
  rw [readRecvAnswer, answerCount_done, done_bind]

end QyUtil.Dns
