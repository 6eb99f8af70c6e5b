import QyUtil.Dns.Records

/-! # Damaged and hostile responses

What the received bytes alone decide: whether the reading of a response ends,
whether it stays in the receive buffer, and whether the name buffers and the
blocks of the address data are large enough for the accesses made to them.
-/

namespace QyUtil.Dns

open Loops Outcome Turn Relation Net

variable {heap : Heap} {buf : RecvBuf} {q s n i calls : ℕ} {w : Bytes}

/-- An allocator whose calls all succeed, with memory that is zero at first. -/
def plentiful : Heap := ⟨fun _ => true, fun _ _ => 0⟩

theorem plentiful_reliable : plentiful.Reliable := fun _ => rfl

theorem read_returns_iff (buf : RecvBuf) (q calls : ℕ) :
    (∀ heap : Heap, ∃ r, Returns (fun n => loop (readTurn heap buf) n (.start q calls)) r) ↔
      Acyclic buf q := by
  constructor
  · intro h
    obtain ⟨r, hr⟩ := h plentiful
    have hw := spells_of_returns plentiful_reliable (start_sized q calls) hr
    exact exists_spells_iff_acyclic.mp hw
  · intro ha heap
    obtain ⟨w, hw⟩ := ha.exists_spells
    obtain ⟨r, hr, -⟩ := read_returns heap hw (.start q calls) rfl (start_sized q calls)
      (fun _ => rfl)
    exact ⟨r, hr⟩

theorem readRecvAnswer_returns_iff (hh : heap.Reliable) (buf : RecvBuf) (q calls : ℕ) :
    (∃ a, Returns (fun n => readRecvAnswer n heap buf q calls) a) ↔
      RecordsEnd buf (recordCount buf) q := by
  have hprog := readAnswers_progressive heap buf (recordCount buf) q calls
  simp only [readRecvAnswer_eq]
  rcases readAnswers_fate hh buf (recordCount buf) q calls with
    ⟨he, a, hr, -⟩ | ⟨hi, e, hf⟩ | ⟨-, he, hd⟩
  · exact ⟨fun _ => he, fun _ => ⟨a, hr⟩⟩
  · exact ⟨fun ⟨a, hr⟩ => (hr.not_faults hprog hf).elim, fun he => absurd he.inside hi⟩
  · exact ⟨fun ⟨a, hr⟩ => (hr.not_diverges hd).elim, fun h => absurd h he⟩

/-- The reading loop ends exactly when the walk along the name stays in the buffer
and never comes back to a position, and `ReadRecvAnswer` exactly when the names of
all its records are of this kind and their data is in the buffer. -/
theorem reading_ends_iff (buf : RecvBuf) :
    (∀ q calls, (∀ heap : Heap, ∃ r,
      Returns (fun n => loop (readTurn heap buf) n (.start q calls)) r) ↔ Acyclic buf q) ∧
    ∀ heap : Heap, heap.Reliable → ∀ q calls,
      ((∃ a, Returns (fun n => readRecvAnswer n heap buf q calls) a) ↔
        RecordsEnd buf (recordCount buf) q) :=
  ⟨read_returns_iff buf, fun _ hh => readRecvAnswer_returns_iff hh buf⟩

/-- A response to a query for `q` whose only record starts with a pointer to itself. -/
def selfPointer : RecvBuf where
  datagram := [0, 1, 129, 128, 0, 1, 0, 1, 0, 0, 0, 0, 1, 113, 0, 0, 1, 0, 1, 192, 19]
  fits := by decide

theorem selfPointer_walk (h : ReflTransGen (Successor selfPointer) 19 q) : q = 19 := by
  induction h with
  | refl => rfl
  | tail _ hs ih =>
    subst ih
    cases hs with
    | byte _ _ hl => exact absurd hl (by decide)
    | pointer => rfl

theorem selfPointer_staysInside : StaysInside selfPointer 19 := by
  intro q hq
  rw [selfPointer_walk hq]
  exact ⟨by decide, fun _ => by decide⟩

theorem selfPointer_cyclic : ¬ Acyclic selfPointer 19 := fun h =>
  (h 19 .refl).2 (.single (.pointer (by decide) (by decide)))

theorem selfPointer_never_ends :
    (Diverges fun n => loop (readTurn plentiful selfPointer) n (.start 19 0)) ∧
      Diverges fun n => readRecvAnswer n plentiful selfPointer 19 0 := by
  have hi := selfPointer_staysInside
  have ha := selfPointer_cyclic
  constructor
  · rcases read_fate plentiful_reliable selfPointer 19 0 with h | ⟨h, -⟩ | ⟨-, -, hd⟩
    · exact absurd h ha
    · exact absurd hi h
    · exact hd
  · simp only [readRecvAnswer_eq, show recordCount selfPointer = 1 by decide]
    have hin : RecordsInside selfPointer 1 19 :=
      ⟨⟨hi, fun h => absurd h ha⟩, fun _ => trivial⟩
    rcases readAnswers_fate plentiful_reliable selfPointer 1 19 0 with ⟨h, -⟩ | ⟨h, -⟩ | ⟨-, -, hd⟩
    · exact absurd h.1.1 ha
    · exact absurd hin h
    · exact hd

/-- The stores of `ReadName` are all inside its buffer exactly when the name has a
byte, and the string and its labels fit the capacity that the count asks for. -/
theorem stores_inBounds_iff (h : Spells buf q w) :
    (∀ heap calls r, Returns (fun n => readName n heap buf q calls) r → InBounds r.trace) ↔
      StoresFit buf q w := by
  constructor
  · intro hall
    obtain ⟨r, hr, -, -, hiff⟩ := readName_returns_reliable plentiful_reliable h 0
    exact hiff.mp (hall plentiful 0 r hr)
  · intro hfit heap calls r hr
    obtain ⟨r', hr', hfate⟩ := readName_returns heap h calls
    obtain rfl := hr.unique (readName_progressive heap buf q calls) hr'
    rcases hfate with ⟨-, -, hiff⟩ | ⟨-, hb⟩
    · exact hiff.mpr hfit
    · exact hb

def labelQ : RecvBuf := ⟨[1, 113, 0], by decide⟩

theorem stores_inBounds_labelQ : Spells labelQ 0 [1, 113] ∧ ∀ heap calls r,
    Returns (fun n => readName n heap labelQ 0 calls) r → InBounds r.trace := by
  have hw : Spells labelQ 0 [1, 113] :=
    .byte (by decide) (by decide) (by decide)
      (.byte (by decide) (by decide) (by decide) (.nil (by decide) rfl))
  have hend : labelsEnd [1, 113] = 2 := by simp [labelsEnd_cons]
  exact ⟨hw, (stores_inBounds_iff hw).mpr ⟨by decide, by decide, hend ▸ by decide⟩⟩

def zeroBuf : RecvBuf := ⟨[], Nat.zero_le _⟩

/-- The root name has no last dot, and the store that removes it is at index `-1`. -/
theorem root_name_stores_outside :
    Spells zeroBuf 12 [] ∧ ∃ r, Returns (fun n => readName n plentiful zeroBuf 12 0) r ∧
      .store 0 (-1) 256 ∈ r.trace ∧ ¬ InBounds r.trace := by
  refine ⟨.nil (by decide) rfl, _, ⟨2, rfl⟩, by decide, fun h => ?_⟩
  exact absurd (h (.store 0 (-1) 256) (by decide)).1 (by decide)

def recordAddress (buf : RecvBuf) (s : ℕ) : Address :=
  (Block.mk 0 (recordData buf s ++ [0])).address

def copyRecord (buf : RecvBuf) (info : SocketIpInfo) (s : ℕ) : SocketIpInfo :=
  if recordType buf s = 1 then info.push (recordAddress buf s).dotted else info

/-- Four bytes can be loaded from the block allocated for the record at `s`. -/
def Loadable (buf : RecvBuf) (s : ℕ) : Prop := recordType buf s = 1 → 3 ≤ dataLength buf s

theorem RecordEnds.fields_lt (h : RecordEnds buf s) : fieldsAt buf s + 1 < bufLen := by
  by_contra hs
  obtain ⟨ht, hle⟩ := fields_outside (not_lt.mp hs)
  have h2 := h.2
  rw [if_neg ht] at h2
  exact absurd h2.lt (not_lt.mpr hle)

theorem RecordsEnd.mem (h : RecordsEnd buf n q) : ∀ s ∈ recordStarts buf n q, RecordEnds buf s := by
  induction n generalizing q with
  | zero => simp [recordStarts]
  | succ n ih =>
    intro s hs
    rw [recordStarts, List.iterate, List.mem_cons] at hs
    rcases hs with rfl | hs
    · exact h.1
    · exact ih h.2 s hs

theorem recordData_length (buf : RecvBuf) (s : ℕ) :
    (recordData buf s).length = dataLength buf s := by simp [recordData]

theorem loadAddress_done {r : ResRecord} (h : RecordOf buf s r) (ht : recordType buf s = 1)
    (hl : 3 ≤ dataLength buf s) : loadAddress i r = done (recordAddress buf s) := by
  obtain ⟨b, hb⟩ := h.rdata ht
  have hlen : 4 ≤ (recordData buf s ++ [0]).length := by
    rw [List.length_append, recordData_length, List.length_singleton]
    omega
  simp only [loadAddress, hb, guard_true hlen, done_bind]
  rfl

theorem loadAddress_fault {r : ResRecord} (h : RecordOf buf s r) (ht : recordType buf s = 1)
    (hl : ¬ 3 ≤ dataLength buf s) : loadAddress i r = fault (.addressOutside i) := by
  obtain ⟨b, hb⟩ := h.rdata ht
  have hlen : ¬ 4 ≤ (recordData buf s ++ [0]).length := by
    rw [List.length_append, recordData_length, List.length_singleton]
    omega
  simp only [loadAddress, hb, guard_false hlen, fault_bind]

theorem copyAnswers_fate {starts : List ℕ} {records : List ResRecord}
    (hr : List.Forall₂ (RecordOf buf) starts records)
    (hs : ∀ s ∈ starts, fieldsAt buf s + 1 < bufLen) (info : SocketIpInfo) :
    ((∀ s ∈ starts, Loadable buf s) ∧
      copyAnswers buf i records info = done (starts.foldl (copyRecord buf) info)) ∨
    ((¬ ∀ s ∈ starts, Loadable buf s) ∧ ∃ e, copyAnswers buf i records info = fault e) := by
  induction hr generalizing i info with
  | nil => exact .inl ⟨by simp, rfl⟩
  | @cons s r starts records h _ ih =>
    rw [List.forall_mem_cons] at hs
    have hty : buf.ntohs (fieldsAt buf s) = done (recordType buf s) := ntohs_done hs.1
    simp only [List.forall_mem_cons, List.foldl_cons, copyAnswers, h.resource, hty, done_bind]
    by_cases ht : recordType buf s = 1
    · by_cases hl : 3 ≤ dataLength buf s
      · have hload : Loadable buf s := fun _ => hl
        simpa only [hload, true_and, ht, if_true, loadAddress_done h ht hl, done_bind, copyRecord]
          using ih (i := i + 1) hs.2 (info.push (recordAddress buf s).dotted)
      · have hload : ¬ Loadable buf s := fun h => hl (h ht)
        refine .inr ⟨fun h => hload h.1, .addressOutside i, ?_⟩
        simp only [ht, if_true, loadAddress_fault h ht hl, fault_bind]
    · have hload : Loadable buf s := fun h => absurd h ht
      simpa only [hload, true_and, if_neg ht, copyRecord] using ih (i := i + 1) hs.2 info

theorem Answers.first_eq {a : Answers} (h : a.records.length = n) : a.first n = a.records := by
  rw [Answers.first, List.take_append_of_le_length h.ge, ← h, List.take_length]

/-- With a reliable heap, the reading of a response returns, reads outside the
buffer or outside an address block, or never ends. -/
theorem readResponse_fate (hh : heap.Reliable) (buf : RecvBuf) (q : ℕ) (info : SocketIpInfo) :
    (RecordsEnd buf (recordCount buf) q ∧
      (∀ s ∈ recordStarts buf (recordCount buf) q, Loadable buf s) ∧
      ∃ a, Returns (fun n => readResponse n heap buf q info)
        ((recordStarts buf (recordCount buf) q).foldl (copyRecord buf) { info with size := 0 }, a) ∧
      (InBounds a.trace ↔ ∀ s ∈ recordStarts buf (recordCount buf) q, RecordFits buf s)) ∨
    (RecordsEnd buf (recordCount buf) q ∧
      (¬ ∀ s ∈ recordStarts buf (recordCount buf) q, Loadable buf s) ∧
      ∃ e, Faults (fun n => readResponse n heap buf q info) e) ∨
    (¬ RecordsInside buf (recordCount buf) q ∧
      ∃ e, Faults (fun n => readResponse n heap buf q info) e) ∨
    (RecordsInside buf (recordCount buf) q ∧ ¬ RecordsEnd buf (recordCount buf) q ∧
      Diverges fun n => readResponse n heap buf q info) := by
  have hprog := readAnswers_progressive heap buf (recordCount buf) q 0
  simp only [readResponse, readRecvAnswer_eq, answerCount_done, done_bind]
  rcases readAnswers_fate hh buf (recordCount buf) q 0 with
    ⟨he, a, hr, hall, hb⟩ | ⟨hi, e, hf⟩ | ⟨hi, he, hd⟩
  · have hlen : a.records.length = recordCount buf := by
      rw [← hall.length_eq, recordStarts, List.length_iterate]
    have hfields : ∀ s ∈ recordStarts buf (recordCount buf) q, fieldsAt buf s + 1 < bufLen :=
      fun s hs => (he.mem s hs).fields_lt
    rcases copyAnswers_fate (i := 0) hall hfields { info with size := 0 } with
      ⟨hl, hc⟩ | ⟨hl, e, hc⟩
    · refine .inl ⟨he, hl, a, hr.bind hprog (progressive_const _) ⟨0, ?_⟩, hb⟩
      simp only [Answers.first_eq hlen, hc, done_bind]
      rfl
    · refine .inr (.inl ⟨he, hl, e, hr.bind_faults hprog (progressive_const _) ⟨0, ?_⟩⟩)
      simp only [Answers.first_eq hlen, hc, fault_bind]
  · exact .inr (.inr (.inl ⟨hi, e, hf.bind⟩))
  · exact .inr (.inr (.inr ⟨hi, he, hd.bind⟩))

def emptyInfo : SocketIpInfo := ⟨0, List.replicate socketMaxIpCount [], List.length_replicate⟩

/-- Every read is inside its buffer exactly when the walk over the records stays in
the receive buffer and no address record has fewer than three bytes of data. -/
theorem reads_inside_iff (buf : RecvBuf) (q : ℕ) :
    (∀ heap : Heap, heap.Reliable → ∀ info e,
      ¬ Faults (fun n => readResponse n heap buf q info) e) ↔
    RecordsInside buf (recordCount buf) q ∧ (RecordsEnd buf (recordCount buf) q →
      ∀ s ∈ recordStarts buf (recordCount buf) q, recordType buf s = 1 → 3 ≤ dataLength buf s) := by
  constructor
  · intro h
    rcases readResponse_fate plentiful_reliable buf q emptyInfo with
      ⟨he, hl, -⟩ | ⟨-, -, e, hf⟩ | ⟨-, e, hf⟩ | ⟨hi, he, -⟩
    · exact ⟨he.inside, fun _ => hl⟩
    · exact absurd hf (h plentiful plentiful_reliable emptyInfo e)
    · exact absurd hf (h plentiful plentiful_reliable emptyInfo e)
    · exact ⟨hi, fun h => absurd h he⟩
  · rintro ⟨hi, hl⟩ heap hh info e hf
    rcases readResponse_fate hh buf q info with
      ⟨-, -, a, hr, -⟩ | ⟨he, hl', -⟩ | ⟨hi', -⟩ | ⟨-, -, hd⟩
    · exact hr.not_faults (readResponse_progressive heap buf q info) hf
    · exact hl' (hl he)
    · exact hi' hi
    · exact hf.not_diverges hd

def emptyAddress : RecvBuf where
  datagram := [0, 1, 129, 128, 0, 1, 0, 1, 0, 0, 0, 0, 1, 113, 0, 0, 1, 0, 1,
    192, 12, 0, 1, 0, 1, 0, 0, 0, 60, 0, 0]
  fits := by decide

def emptyAddressAnswers : Answers where
  records := [⟨some ⟨0, [113]⟩, some 21, some ⟨1, [0]⟩⟩]
  calls := 2
  trace := [.malloc 0, .store 0 0 256, .store 0 0 256, .store 0 1 256, .store 0 2 256,
    .store 0 0 256, .store 0 1 256, .store 0 1 256, .malloc 1, .store 1 0 1]

theorem emptyAddress_load_outside :
    Faults (fun n => readResponse n plentiful emptyAddress 19 emptyInfo) (.addressOutside 0) := by
  have hread : readRecvAnswer 10 plentiful emptyAddress 19 0 = done emptyAddressAnswers := by
    decide
  have hcount : recordCount emptyAddress = 1 := by decide
  have htype : emptyAddress.ntohs 21 = done 1 := by decide
  have hload : loadAddress 0 ⟨some ⟨0, [113]⟩, some 21, some ⟨1, [0]⟩⟩ =
      fault (.addressOutside 0) := by decide
  have hfirst : emptyAddressAnswers.first 1 = emptyAddressAnswers.records := Answers.first_eq rfl
  have hcopy : ∀ info, copyAnswers emptyAddress 0 emptyAddressAnswers.records info =
      fault (.addressOutside 0) := fun _ => by
    simp only [emptyAddressAnswers, copyAnswers, htype, done_bind, if_true, hload, fault_bind]
  exact ⟨10, by simp only [readResponse, hread, answerCount_done, hcount, hfirst, hcopy, done_bind,
    fault_bind]⟩

end QyUtil.Dns
