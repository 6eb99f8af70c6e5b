import QyUtil.Dns.Allocation
import QyUtil.Dns.Hostile

/-! # Addresses in a response

The walk over the records with any allocator, told by the positions of the fixed
fields it comes to. A response gives an address exactly when this walk ends and
comes to a record of type A whose data, like that of all others, can be loaded.
-/

namespace QyUtil.Dns

open Loops Outcome

variable {heap : Heap} {buf : RecvBuf} {n s k f s' k' i : ℕ} {fs : List ℕ}
  {info info' : SocketIpInfo}

/-- The record at `s` is read: its fields are at `f`, and the walk goes on at `s'`. -/
inductive RecordRead (heap : Heap) (buf : RecvBuf) (s k : ℕ) : ℕ → ℕ → ℕ → Prop

  | address {c k' : ℕ} : NameEnd heap buf s k c k' → buf.be16 (s + c) = 1 →
      heap.succeeds k' = true →
      s + c + rDataSize + buf.be16 (s + c + dataLenOffset) ≤ bufLen →
      RecordRead heap buf s k (s + c)
        (s + c + rDataSize + buf.be16 (s + c + dataLenOffset)) (k' + 1)

  | name {c k' c' k'' : ℕ} : NameEnd heap buf s k c k' → s + c + 1 < bufLen →
      buf.be16 (s + c) ≠ 1 → NameEnd heap buf (s + c + rDataSize) k' c' k'' →
      RecordRead heap buf s k (s + c) (s + c + rDataSize + c') k''

inductive Walk (heap : Heap) (buf : RecvBuf) : ℕ → ℕ → ℕ → List ℕ → Prop

  | nil {s k : ℕ} : Walk heap buf 0 s k []

  | cons {n s k f s' k' : ℕ} {fs : List ℕ} : RecordRead heap buf s k f s' k' →
      Walk heap buf n s' k' fs → Walk heap buf (n + 1) s k (f :: fs)

/-- The walk over the records from `q` on ends, and the data of every address can be loaded. -/
structure Copied (heap : Heap) (buf : RecvBuf) (q : ℕ) (fs : List ℕ) : Prop where
  walk : Walk heap buf (recordCount buf) q 0 fs
  loadable : ∀ f ∈ fs, buf.be16 f = 1 → 3 ≤ buf.be16 (f + dataLenOffset)

structure Kept (buf : RecvBuf) (f : ℕ) (r : ResRecord) : Prop where
  resource : r.resource = some f
  inside : f + 1 < bufLen
  rdata : buf.be16 f = 1 →
    ∃ b, r.rdata = some b ∧ b.bytes.length = buf.be16 (f + dataLenOffset) + 1

def NoBlock (buf : RecvBuf) (r : ResRecord) : Prop :=
  ∃ f, r.resource = some f ∧ f + 1 < bufLen ∧ buf.be16 f = 1 ∧ r.rdata = none

theorem ntohs_eq_done {x : ℕ} (h : buf.ntohs i = done x) : i + 1 < bufLen ∧ x = buf.be16 i := by
  by_cases hi : i + 1 < bufLen
  · rw [ntohs_done hi] at h
    exact ⟨hi, (done.inj h).symm⟩
  · obtain ⟨e, he⟩ := ntohs_fault buf (not_lt.mp hi)
    rw [he] at h
    cases h

theorem copy_eq_done {bs : Bytes} (hi : i ≤ bufLen) (h : buf.copy n i = done bs) :
    i + n ≤ bufLen ∧ bs = (List.range' i n).map buf.byte := by
  by_cases hn : i + n ≤ bufLen
  · rw [copy_done hn] at h
    exact ⟨hn, (done.inj h).symm⟩
  · obtain ⟨e, he⟩ := copy_fault buf hi (not_le.mp hn)
    rw [he] at h
    cases h

theorem readAnswer_read {a : AnswerRead} (h : Returns (fun n => readAnswer n heap buf s k) a) :
    (a.more = true ∧ ∃ f, RecordRead heap buf s k f a.reader a.calls ∧ Kept buf f a.record) ∨
      (a.more = false ∧ NoBlock buf a.record) := by
  obtain ⟨owner, howner, hrest⟩ := h.of_bind
  have hname := readName_end howner
  obtain ⟨fuel, hn⟩ := hrest
  obtain ⟨type, htype, hn⟩ := bind_eq_done.mp hn
  obtain ⟨hin, rfl⟩ := ntohs_eq_done htype
  by_cases ht : buf.be16 (s + owner.count) = 1
  · rw [if_pos ht] at hn
    obtain ⟨len, hlen, hn⟩ := bind_eq_done.mp hn
    obtain ⟨hin', rfl⟩ := ntohs_eq_done hlen
    cases hm : heap.succeeds owner.calls with
    | true =>
      rw [hm, if_pos rfl] at hn
      obtain ⟨data, hdata, hn⟩ := bind_eq_done.mp hn
      have hle : s + owner.count + rDataSize ≤ bufLen := by
        simp only [dataLenOffset, rDataSize] at hin' ⊢
        omega
      obtain ⟨hfit, rfl⟩ := copy_eq_done hle hdata
      obtain rfl := done.inj hn
      exact .inl ⟨rfl, _, .address hname ht hm hfit, rfl, hin, fun _ => ⟨_, rfl, by simp⟩⟩
    | false =>
      rw [hm, if_neg Bool.false_ne_true] at hn
      obtain rfl := done.inj hn
      exact .inr ⟨rfl, _, rfl, hin, ht, rfl⟩
  · rw [if_neg ht] at hn
    obtain ⟨data, hdata, hn⟩ := bind_eq_done.mp hn
    obtain rfl := done.inj hn
    have hdata := readName_end ⟨fuel, hdata⟩
    exact .inl ⟨rfl, _, .name hname hin ht hdata, rfl, hin, fun h => absurd h ht⟩

theorem RecordRead.returns (h : RecordRead heap buf s k f s' k') :
    ∃ a, Returns (fun n => readAnswer n heap buf s k) a ∧ a.more = true ∧ a.reader = s' ∧
      a.calls = k' ∧ Kept buf f a.record := by
  have hprog := readName_progressive heap buf s k
  cases h with
  | @address c k' hname ht hm hfit =>
    obtain ⟨owner, howner, rfl, rfl⟩ := hname.returns
    have hin : s + owner.count + 1 < bufLen ∧ s + owner.count + dataLenOffset + 1 < bufLen := by
      simp only [dataLenOffset, rDataSize] at hfit ⊢
      omega
    have htype : buf.ntohs (s + owner.count) = done 1 := by rw [ntohs_done hin.1, ht]
    have hrec : ∃ a, readRecord 0 heap buf s owner = done a ∧ a.more = true ∧
        a.reader = s + owner.count + rDataSize + buf.be16 (s + owner.count + dataLenOffset) ∧
        a.calls = owner.calls + 1 ∧ Kept buf (s + owner.count) a.record := by
      simp only [readRecord, htype, done_bind, if_true, ntohs_done hin.2, hm, copy_done hfit]
      exact ⟨_, rfl, rfl, rfl, rfl, rfl, hin.1, fun _ => ⟨_, rfl, by simp⟩⟩
    obtain ⟨a, ha, hfacts⟩ := hrec
    exact ⟨a, howner.bind hprog (readRecord_progressive heap buf s owner) ⟨0, ha⟩, hfacts⟩
  | @name c k' c' k'' hname hin ht hname' =>
    obtain ⟨owner, howner, rfl, rfl⟩ := hname.returns
    obtain ⟨data, hdata, rfl, rfl⟩ := hname'.returns
    have hrec : ∃ a, Returns (fun n => readRecord n heap buf s owner) a ∧ a.more = true ∧
        a.reader = s + owner.count + rDataSize + data.count ∧ a.calls = data.calls ∧
        Kept buf (s + owner.count) a.record := by
      simp only [readRecord, ntohs_done hin, done_bind, if_neg ht]
      exact ⟨
        { record := ⟨owner.name, some (s + owner.count), data.name⟩
          reader := s + owner.count + rDataSize + data.count
          calls := data.calls
          trace := owner.trace ++ data.trace
          more := true },
        hdata.bind (readName_progressive _ _ _ _) (progressive_const _) ⟨0, rfl⟩,
        rfl, rfl, rfl, rfl, hin, fun h => absurd h ht⟩
    obtain ⟨a, ha, hfacts⟩ := hrec
    exact ⟨a, howner.bind hprog (readRecord_progressive heap buf s owner) ha, hfacts⟩

theorem Walk.length_eq (h : Walk heap buf n s k fs) : fs.length = n := by
  induction h with
  | nil => rfl
  | cons _ _ ih => rw [List.length_cons, ih]

theorem Walk.returns (h : Walk heap buf n s k fs) :
    ∃ a, Returns (fun m => readAnswers m heap buf n s k) a ∧
      List.Forall₂ (Kept buf) fs a.records := by
  induction h with
  | nil => exact ⟨_, ⟨0, rfl⟩, .nil⟩
  | @cons n s k f s' k' fs hread _ ih =>
    obtain ⟨first, hfirst, hmore, rfl, rfl, hkept⟩ := hread.returns
    obtain ⟨rest, hrest, hall⟩ := ih
    refine ⟨rest.cons first.record first.trace, ?_, .cons hkept hall⟩
    obtain ⟨m, hm⟩ := hfirst.at_least (readAnswer_progressive heap buf s k)
    obtain ⟨m', hm'⟩ := hrest.at_least (readAnswers_progressive heap buf n _ _)
    refine ⟨max m m', ?_⟩
    simp only [readAnswers, hm _ (le_max_left m m'), done_bind, hmore, if_true,
      hm' _ (le_max_right m m'), pure_eq]

theorem copyAnswers_size {rs : List ResRecord} (i : ℕ) (info : SocketIpInfo)
    (h : List.Forall₂ (Kept buf) fs rs)
    (hl : ∀ f ∈ fs, buf.be16 f = 1 → 3 ≤ buf.be16 (f + dataLenOffset)) :
    ∃ info', copyAnswers buf i rs info = done info' ∧
      info'.size = info.size + fs.countP fun f => buf.be16 f = 1 := by
  induction h generalizing i info with
  | nil => exact ⟨info, rfl, rfl⟩
  | @cons f r fs rs hr _ ih =>
    rw [List.forall_mem_cons] at hl
    have htype : buf.ntohs f = done (buf.be16 f) := ntohs_done hr.inside
    by_cases ht : buf.be16 f = 1
    · obtain ⟨b, hb, hlen⟩ := hr.rdata ht
      have hload : loadAddress i r = done b.address := by
        have := hl.1 ht
        simp only [loadAddress, hb, guard_true (show 4 ≤ b.bytes.length by omega), done_bind]
        rfl
      obtain ⟨info', hcopy, hsize⟩ := ih (i + 1) (info.push b.address.dotted) hl.2
      refine ⟨info', ?_, ?_⟩
      · simp only [copyAnswers, hr.resource, htype, done_bind, if_pos ht, hload, hcopy]
      · rw [hsize, List.countP_cons_of_pos (by simpa using ht)]
        show info.size + 1 + _ = _
        omega
    · obtain ⟨info', hcopy, hsize⟩ := ih (i + 1) info hl.2
      refine ⟨info', ?_, ?_⟩
      · simp only [copyAnswers, hr.resource, htype, done_bind, if_neg ht, hcopy]
      · rw [hsize, List.countP_cons_of_neg (by simpa using ht)]

theorem Copied.returns {q : ℕ} (h : Copied heap buf q fs) (info : SocketIpInfo) :
    ∃ info' a, Returns (fun m => readResponse m heap buf q info) (info', a) ∧
      info'.size = fs.countP fun f => buf.be16 f = 1 := by
  obtain ⟨a, hread, hall⟩ := h.walk.returns
  have hcount : a.records.length = recordCount buf := by
    rw [← hall.length_eq, h.walk.length_eq]
  obtain ⟨info', hcopy, hsize⟩ := copyAnswers_size 0 { info with size := 0 } hall h.loadable
  refine ⟨info', a, ?_, by rw [hsize, Nat.zero_add]⟩
  obtain ⟨m, hm⟩ := hread
  refine ⟨m, ?_⟩
  simp only [readResponse, readRecvAnswer_eq, hm, done_bind, answerCount_done,
    Answers.first_eq hcount, hcopy, pure_eq]

end QyUtil.Dns
