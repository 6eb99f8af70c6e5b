import QyUtil.Http.Response

/-! # What reaches the output

`get_header` stores the received bytes one after the other and stops with the
read that completes the header. The bytes that come with that read never get to
the output. Without such bytes the header buffer keeps its padding, and the test
of `get_boday` compares the content length with a difference that is too small,
or that has wrapped around.
-/

namespace QyUtil.Http

open Loops Outcome Turn Bytes Search

variable {g : ℕ → UInt8} {r r' : Response} {bs c os o h b l : Bytes} {cs ds : List Bytes}
  {s : Stream} {i n : ℕ}

/-- The size of `m_header` when `n` bytes have been received. -/
def paddedLength (n : ℕ) : ℕ := readBufLength * (n / readBufLength + 1)

theorem lt_paddedLength (n : ℕ) : n < paddedLength n := by
  simp only [paddedLength, readBufLength]
  omega

theorem paddedLength_le (n : ℕ) : paddedLength n ≤ n + readBufLength := by
  simp only [paddedLength, readBufLength]
  omega

structure Received (g : ℕ → UInt8) (r : Response) (bs : Bytes) : Prop where
  header : r.mHeader = bs ++ List.replicate (paddedLength bs.length - bs.length) 0
  readLength : r.readLength = bs.length
  boday : r.mBoday = (List.range readBufLength).map g
  noBody : r.isHasSomeBody = false

theorem new_received (s : Stream) (g : ℕ → UInt8) : Received g (.new s g) [] := by
  have hpad : paddedLength ([] : Bytes).length - ([] : Bytes).length = readBufLength := by decide
  refine ⟨?_, rfl, ?_, rfl⟩
  · rw [hpad, List.nil_append, Response.new]
  · rw [Response.new]

theorem Received.size (h : Received g r bs) : r.mHeader.length = paddedLength bs.length := by
  have := lt_paddedLength bs.length
  rw [h.header, List.length_append, List.length_replicate]
  omega

theorem search_eof_padded (bs : Bytes) (n : ℕ) :
    search httpHeaderEof (bs ++ List.replicate n 0) = search httpHeaderEof bs :=
  search_append_replicate (t := [13, 10, 13]) (b := 10) (by decide) n

theorem headerTurn_chunk (hr : Received g r bs) (hc : r.stream.chunks = c :: cs)
    (hb : bs.length + c.length < sizeBound) :
    ∃ r', Received g r' (bs ++ c) ∧ r'.stream.chunks = cs ∧
      r'.stream.failing = r.stream.failing ∧
      headerTurn r = done (match search httpHeaderEof (bs ++ c) with
        | none => again r'
        | some i => exit (r', i)) := by
  obtain ⟨s', hread, hcs, hfail⟩ := read_chunk hc
  have hc' : c.length ≤ readBufLength := r.stream.sizes c (hc ▸ List.mem_cons_self)
  have hlt := lt_paddedLength bs.length
  have hadd : sizeAdd r.readLength c.length = bs.length + c.length := by
    rw [hr.readLength, sizeAdd_eq hb]
  have hpad : (if r.mHeader.length ≤ bs.length + c.length then
      r.mHeader ++ List.replicate readBufLength 0 else r.mHeader) =
      bs ++ List.replicate c.length 0 ++
        List.replicate (paddedLength (bs ++ c).length - (bs ++ c).length) 0 := by
    rw [hr.size, hr.header, List.length_append]
    simp only [List.append_assoc, List.replicate_append_replicate]
    split_ifs with hle
    · congr 2
      simp only [paddedLength, readBufLength] at hc' hle ⊢
      omega
    · congr 2
      simp only [paddedLength, readBufLength] at hc' hle ⊢
      omega
  have hstore := writeAt_append c bs (List.replicate c.length 0)
    (List.replicate (paddedLength (bs ++ c).length - (bs ++ c).length) 0) (by simp)
  refine ⟨{ r with
    mHeader := bs ++ c ++
      List.replicate (paddedLength (bs ++ c).length - (bs ++ c).length) 0
    stream := s'
    readLength := bs.length + c.length }, ⟨rfl, by simp, hr.boday, hr.noBody⟩, hcs, hfail, ?_⟩
  have hguard : r.readLength + c.length ≤ (bs ++ List.replicate c.length 0 ++
      List.replicate (paddedLength (bs ++ c).length - (bs ++ c).length) 0).length := by
    rw [hr.readLength]
    simp only [List.length_append, List.length_replicate]
    omega
  simp only [headerTurn, hread, hadd, hpad, guard_true hguard, done_bind]
  rw [hr.readLength, hstore, find_zero, search_eof_padded]
  cases search httpHeaderEof (bs ++ c) <;> rfl

theorem header_reads {rest : List Bytes} (cs : List Bytes) : ∀ r bs, Received g r bs →
    r.stream.chunks = cs ++ rest → search httpHeaderEof (bs ++ cs.flatten) = none →
    (bs ++ cs.flatten).length < sizeBound →
    ∃ r', Reach headerTurn r r' ∧ Received g r' (bs ++ cs.flatten) ∧ r'.stream.chunks = rest ∧
      r'.stream.failing = r.stream.failing := by
  induction cs with
  | nil =>
    intro r bs hr hc _ _
    exact ⟨r, .refl, by simpa using hr, hc, rfl⟩
  | cons c cs ih =>
    intro r bs hr hc hnone hb
    have hflat : bs ++ (c :: cs).flatten = bs ++ c ++ cs.flatten := by simp
    rw [hflat] at hnone hb ⊢
    obtain ⟨r₁, hr₁, hcs, hfail, hturn⟩ := headerTurn_chunk hr hc
      (by simp only [List.length_append] at hb; omega)
    rw [search_eq_none_of_append hnone] at hturn
    obtain ⟨r', hreach, hr', hrest, hfail'⟩ := ih r₁ _ hr₁ hcs hnone hb
    exact ⟨r', .head hturn hreach, hr', hrest, hfail'.trans hfail⟩

end QyUtil.Http
