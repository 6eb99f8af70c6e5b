import QyUtil.Http.Header

/-! # The buffer of the header

The loop of `get_header` lets its buffer grow by one step of 1024 bytes, at most, for
each read, and a read gives no more. So there is always room for a NUL behind the bytes
that have been received. The read that brings the end of the header begins in front of
this end, and leaves fewer than 1024 bytes behind it.
-/

namespace QyUtil.Http

open Loops Outcome Turn Bytes Search

variable {g : ℕ → UInt8} {s : Stream} {r r' : Response} {bs c : Bytes} {i : ℕ}

/-- The buffer holds what the reads have brought so far, and zeros behind it. -/
structure HeaderInvariant (s : Stream) (r : Response) : Prop where
  received : ∃ bs, s.chunks.flatten = bs ++ r.stream.chunks.flatten ∧
    r.readLength = bs.length ∧ r.mHeader.take r.readLength = bs
  padding : ∀ b ∈ r.mHeader.drop r.readLength, b = 0
  below : r.readLength < r.mHeader.length

structure HeaderReading (g : ℕ → UInt8) (s : Stream) (r : Response) (bs : Bytes) : Prop where
  received : Received g r bs
  stream : s.chunks.flatten = bs ++ r.stream.chunks.flatten
  unfinished : search httpHeaderEof bs = none

theorem new_reading (s : Stream) (g : ℕ → UInt8) : HeaderReading g s (.new s g) [] :=
  ⟨new_received s g, rfl, by decide⟩

theorem Received.invariant (hr : Received g r bs)
    (hs : s.chunks.flatten = bs ++ r.stream.chunks.flatten) : HeaderInvariant s r where
  received := ⟨bs, hs, hr.readLength, by rw [hr.readLength, hr.header, List.take_left]⟩
  padding b hb := by
    rw [hr.readLength, hr.header, List.drop_left] at hb
    exact List.eq_of_mem_replicate hb
  below := by
    rw [hr.readLength, hr.size]
    exact lt_paddedLength _

theorem Received.add_lt (hr : Received g r bs) (hsize : r.mHeader.length < sizeBound)
    (hc : c.length ≤ readBufLength) : bs.length + c.length < sizeBound := by
  rw [hr.size] at hsize
  simp only [paddedLength, readBufLength, sizeBound] at *
  omega

theorem HeaderReading.turn (h : HeaderReading g s r bs) (hsize : r.mHeader.length < sizeBound)
    (hread : r.stream.read.1 = some c) :
    c.length ≤ readBufLength ∧ ∃ r', Received g r' (bs ++ c) ∧
      s.chunks.flatten = bs ++ c ++ r'.stream.chunks.flatten ∧
      headerTurn r = done (match search httpHeaderEof (bs ++ c) with
        | none => again r'
        | some i => exit (r', i)) := by
  cases hchunks : r.stream.chunks with
  | nil =>
    rw [read_nil hchunks] at hread
    split_ifs at hread with hfail
    obtain rfl := Option.some.inj hread
    have hlt : bs.length < sizeBound := by
      simpa using h.received.add_lt hsize (c := []) (Nat.zero_le _)
    have hturn := headerTurn_closed h.received hchunks (Bool.not_eq_true _ ▸ hfail) h.unfinished hlt
    refine ⟨Nat.zero_le _, r, ?_, ?_, ?_⟩
    · rw [List.append_nil]
      exact h.received
    · rw [List.append_nil]
      exact h.stream
    · rw [List.append_nil, h.unfinished]
      exact hturn
  | cons d ds =>
    obtain ⟨s', hd, -, -⟩ := read_chunk hchunks
    rw [hd] at hread
    obtain rfl := Option.some.inj hread
    have hle : d.length ≤ readBufLength := r.stream.sizes d (hchunks ▸ List.mem_cons_self)
    obtain ⟨r', hr', hds, -, hturn⟩ := headerTurn_chunk h.received hchunks
      (h.received.add_lt hsize hle)
    refine ⟨hle, r', hr', ?_, hturn⟩
    rw [h.stream, hchunks, hds, List.flatten_cons, List.append_assoc]

theorem headerTurn_grows (h : Next headerTurn r r') : r.mHeader.length ≤ r'.mHeader.length := by
  unfold Next headerTurn at h
  dsimp only at h
  split at h
  · cases h
  · next c _ =>
    obtain ⟨_, hroom, h⟩ := bind_eq_done.mp h
    have hfits : r.readLength + c.length ≤
        (if r.mHeader.length ≤ sizeAdd r.readLength c.length then
          r.mHeader ++ List.replicate readBufLength 0 else r.mHeader).length := by
      by_contra hnot
      rw [guard_false hnot] at hroom
      cases hroom
    split at h
    · obtain rfl := again.inj (done.inj h)
      simp only
      rw [length_writeAt hfits]
      split_ifs <;> simp
    · cases h

theorem reach_reading (hreach : Reach headerTurn (.new s g) r)
    (hsize : r.mHeader.length < sizeBound) : ∃ bs, HeaderReading g s r bs := by
  refine hreach.invariant
    (I := fun r => r.mHeader.length < sizeBound → ∃ bs, HeaderReading g s r bs)
    (fun _ => ⟨[], new_reading s g⟩) (fun u u' hu hn hsize' => ?_) hsize
  have hsize_u := (headerTurn_grows hn).trans_lt hsize'
  obtain ⟨bs, hbs⟩ := hu hsize_u
  cases hread : u.stream.read.1 with
  | none =>
    simp only [Next, headerTurn, hread] at hn
    cases hn
  | some c =>
    obtain ⟨-, u₁, hr, hstream, hturn⟩ := hbs.turn hsize_u hread
    cases hs : search httpHeaderEof (bs ++ c) with
    | none =>
      rw [hs] at hturn
      obtain rfl := again.inj (done.inj (hn.symm.trans hturn))
      exact ⟨bs ++ c, hr, hstream, hs⟩
    | some i =>
      rw [hs] at hturn
      cases hn.symm.trans hturn

/-- What is left behind the end of the header goes to `get_boday`, from a block that is
long enough. -/
structure LeavesRest (r : Response) (eofPos : ℕ) : Prop where
  ends : eofPos + httpHeaderEof.length ≤ r.readLength
  rest : r.readLength - (eofPos + httpHeaderEof.length) ≤ 1023
  finish : ∃ r', finishHeader r eofPos = done r' ∧ r'.mBoday.length = 1024 ∧
    (r'.isHasSomeBody = true → ∀ os, getBoday r' os = done ({ r' with isHasSomeBody := false },
      os ++ r'.mBoday.take (r.readLength - (eofPos + httpHeaderEof.length)),
      ((r.readLength - (eofPos + httpHeaderEof.length) : ℕ) : ℤ)))

theorem HeaderReading.leavesRest (h : HeaderReading g s r bs) (hsize : r.mHeader.length < sizeBound)
    (hc : c.length ≤ readBufLength) (hr : Received g r' (bs ++ c))
    (hs : search httpHeaderEof (bs ++ c) = some i) : LeavesRest r' i := by
  have hle := search_le hs
  have hgt := lt_of_search_append h.unfinished hs
  have hlt := h.received.add_lt hsize hc
  rw [List.length_append] at hle
  -- the header, and what was read with it
  obtain ⟨h', l, hsplit, hlen⟩ : ∃ h' l, bs ++ c = h' ++ l ∧ i + httpHeaderEof.length = h'.length :=
    ⟨(bs ++ c).take (i + httpHeaderEof.length), (bs ++ c).drop (i + httpHeaderEof.length),
      (List.take_append_drop _ _).symm, by rw [List.length_take, List.length_append]; omega⟩
  have hsum := congrArg List.length hsplit
  rw [List.length_append, List.length_append] at hsum
  have hl : l.length ≤ 1023 := by
    simp only [readBufLength] at hc
    omega
  have hread : r'.readLength = h'.length + l.length := by
    rw [hr.readLength, List.length_append]
    exact hsum
  have hrest : r'.readLength - (i + httpHeaderEof.length) = l.length := by omega
  have hblock : r'.mBoday.length = 1024 := by
    rw [hr.boday, List.length_map, List.length_range]
    rfl
  have hb : (h' ++ l).length < sizeBound := by
    rw [List.length_append]
    omega
  refine ⟨by omega, by omega, ?_⟩
  rcases finishHeader_cases (hsplit ▸ hr) (hl.trans (by decide)) hb hlen with
    ⟨-, hfinish⟩ | ⟨-, hfinish⟩
  · refine ⟨_, hfinish, hblock, fun _ os => ?_⟩
    have hsub : sizeSub r'.readLength h'.length = l.length := by
      rw [hread, sizeSub_eq (Nat.le_add_right _ _) (by omega), Nat.add_sub_cancel_left]
    have hguard : l.length ≤ r'.mBoday.length := by omega
    simp only [getBoday, if_true, hsub, guard_true hguard, done_bind, pure_eq, hrest]
  · refine ⟨_, hfinish, hblock, fun hbody => ?_⟩
    rw [hr.noBody] at hbody
    cases hbody

/-- In every state of the loop the buffer holds the bytes received so far and zeros behind
them. The next read is stored inside the buffer, and when a header has ended with it, what is
left behind the header fits the block that it goes through. -/
theorem headerTurn_invariant (hreach : Reach headerTurn (.new s g) r)
    (hsize : r.mHeader.length < sizeBound) :
    HeaderInvariant s r ∧ ∀ c, r.stream.read.1 = some c →
      ∃ r', HeaderInvariant s r' ∧ r'.readLength = r.readLength + c.length ∧
        (headerTurn r = done (again r') ∨
          ∃ eofPos, headerTurn r = done (exit (r', eofPos)) ∧ LeavesRest r' eofPos) := by
  obtain ⟨bs, hbs⟩ := reach_reading hreach hsize
  refine ⟨hbs.received.invariant hbs.stream, fun c hread => ?_⟩
  obtain ⟨hc, r', hr, hstream, hturn⟩ := hbs.turn hsize hread
  refine ⟨r', hr.invariant hstream, ?_, ?_⟩
  · rw [hr.readLength, hbs.received.readLength, List.length_append]
  · cases hs : search httpHeaderEof (bs ++ c) with
    | none => exact .inl (by rw [hturn, hs])
    | some i => exact .inr ⟨i, by rw [hturn, hs], hbs.leavesRest hsize hc hr hs⟩

theorem headerTurn_invariant_statusOnly : ∃ r,
    Reach headerTurn (.new (statusOnly false) fun _ => 0) r ∧ r.readLength = 17 ∧
      HeaderInvariant (statusOnly false) r := by
  obtain ⟨r, hr, -, -, hturn⟩ := headerTurn_chunk (new_received (statusOnly false) fun _ => 0)
    rfl (by decide)
  have hnone : search httpHeaderEof ([] ++ ascii "HTTP/1.0 200 OK\r\n") = none := by decide
  rw [hnone] at hturn
  have hreach : Reach headerTurn (.new (statusOnly false) fun _ => 0) r := .single hturn
  have hsize : r.mHeader.length < sizeBound := by
    rw [hr.size]
    decide
  exact ⟨r, hreach, hr.readLength, (headerTurn_invariant hreach hsize).1⟩

end QyUtil.Http
