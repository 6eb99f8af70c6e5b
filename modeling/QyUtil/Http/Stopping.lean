import QyUtil.Http.Body

/-! # When the reading stops

The loop over the body is to read as long as the response is not complete. The test
of `get_boday` measures what has arrived against the size of `m_header`: with a
buffer that was not cut behind the header, it comes too late, or the difference
wraps; and bytes that came with the header are handed on without any test.
-/

namespace QyUtil.Http

open Loops Outcome Turn Bytes Search

variable {g : ℕ → UInt8} {r r' : Response} {c os h l : Bytes} {cs : List Bytes} {s : Stream}
  {t : Response × Bytes} {len : Option ℕ} {m size n k : ℕ}

/-- A response of this length, if it has one, is complete with `n` bytes of its body. -/
def Complete (len : Option ℕ) (n : ℕ) : Prop := ∃ k ∈ len, k ≤ n

theorem Complete.mono (hc : Complete len n) (h : n ≤ k) : Complete len k := by
  obtain ⟨j, hj, hle⟩ := hc
  exact ⟨j, hj, hle.trans h⟩

def arrived (s : Stream) (h : Bytes) (r : Response) : ℕ :=
  s.chunks.flatten.length - (h.length + r.stream.chunks.flatten.length)

/-- The next turn of the loop does what it should: it reads only if the response is not
complete, it stops behind a chunk only if the response is, and no difference wraps. -/
structure RightAt (len : Option ℕ) (s : Stream) (h : Bytes) (t : Response × Bytes) : Prop where
  leftover : t.1.isHasSomeBody = true → t.1.mHeader.length ≤ t.1.readLength
  reads : t.1.isHasSomeBody = false → ¬ Complete len (arrived s h t.1)
  chunk : t.1.isHasSomeBody = false → ∀ c cs, t.1.stream.chunks = c :: cs →
    t.1.mHeader.length ≤ sizeAdd t.1.readLength c.length ∧
    ∀ os, bodyTurn t = done (exit os) → Complete len (arrived s h t.1 + c.length)

/-- In every state that the loop reaches, the next turn does what it should. -/
def StopsRightly (len : Option ℕ) (s : Stream) (h : Bytes) (t : Response × Bytes) : Prop :=
  ∀ t', Reach bodyTurn t t' → RightAt len s h t'

def counted (h : Bytes) (n : ℕ) : ℕ := (h.length + n) % sizeBound

/-- The reads `cs`, behind `n` bytes of the body, agree with the test that the code makes
with the content length `m` and an `m_header` of the given size. -/
structure InStep (len : Option ℕ) (h : Bytes) (m size n : ℕ) (cs : List Bytes) : Prop where
  incomplete : ¬ Complete len n
  agrees : ∀ p c q, cs = p ++ c :: q → ¬ Complete len (n + p.flatten.length) →
    size ≤ counted h (n + p.flatten.length + c.length) ∧
    (m + size ≤ counted h (n + p.flatten.length + c.length) ↔
      Complete len (n + p.flatten.length + c.length))

theorem inStep_nil : InStep len h m size n [] ↔ ¬ Complete len n :=
  ⟨fun hs => hs.incomplete, fun hn => ⟨hn, by simp⟩⟩

theorem inStep_cons : InStep len h m size n (c :: cs) ↔ ¬ Complete len n ∧
    size ≤ counted h (n + c.length) ∧
    (m + size ≤ counted h (n + c.length) ↔ Complete len (n + c.length)) ∧
    (¬ Complete len (n + c.length) → InStep len h m size (n + c.length) cs) := by
  constructor
  · intro hs
    have hfirst := hs.agrees [] c cs rfl (by simpa using hs.incomplete)
    rw [List.flatten_nil, List.length_nil, Nat.add_zero] at hfirst
    refine ⟨hs.incomplete, hfirst.1, hfirst.2, fun hinc => ⟨hinc, fun p d q hsplit hp => ?_⟩⟩
    have hlater := hs.agrees (c :: p) d q (by rw [hsplit, List.cons_append])
    rw [List.flatten_cons, List.length_append, ← Nat.add_assoc] at hlater
    exact hlater hp
  · rintro ⟨hinc, hfills, hiff, hrest⟩
    refine ⟨hinc, fun p d q hsplit hp => ?_⟩
    cases p with
    | nil =>
      obtain ⟨rfl, -⟩ := List.cons.inj hsplit
      exact ⟨hfills, hiff⟩
    | cons b p =>
      obtain ⟨rfl, hcs⟩ := List.cons.inj hsplit
      rw [List.flatten_cons, List.length_append, ← Nat.add_assoc] at hp ⊢
      exact (hrest (mt (fun hc => hc.mono (Nat.le_add_right _ _)) hp)).agrees p d q hcs hp

structure Reading (s : Stream) (h : Bytes) (m size n : ℕ) (cs : List Bytes) (r : Response) :
    Prop where
  noBody : r.isHasSomeBody = false
  chunks : r.stream.chunks = cs
  readLength : r.readLength = counted h n
  header : r.mHeader.length = size
  contentLength : r.contentLength = m
  total : s.chunks.flatten.length = h.length + n + cs.flatten.length

theorem Reading.arrived_eq (hr : Reading s h m size n cs r) : arrived s h r = n := by
  rw [arrived, hr.chunks, hr.total]
  omega

theorem sizeAdd_counted (h : Bytes) (n k : ℕ) : sizeAdd (counted h n) k = counted h (n + k) := by
  rw [sizeAdd, counted, counted, Nat.mod_add_mod, Nat.add_assoc]

/-- A read of a chunk stops the loop when the count reaches the content length behind
the size of `m_header`. -/
theorem Reading.turn (hr : Reading s h m size n (c :: cs) r) (hne : c ≠ [])
    (hfills : size ≤ counted h (n + c.length)) :
    ∃ r', Reading s h m size (n + c.length) cs r' ∧ bodyTurn (r, os) =
      done (if m + size ≤ counted h (n + c.length) then exit (os ++ c)
        else again (r', os ++ c)) := by
  have htotal := hr.total
  rw [List.flatten_cons, List.length_append] at htotal
  obtain ⟨s', hs', hturn⟩ := bodyTurn_chunk hr.noBody hr.chunks hne
  have hadd : sizeAdd r.readLength c.length = counted h (n + c.length) := by
    rw [hr.readLength, sizeAdd_counted]
  have hsub : sizeSub (counted h (n + c.length)) r.mHeader.length =
      counted h (n + c.length) - size := by
    rw [hr.header, sizeSub_eq hfills (Nat.mod_lt _ (by decide))]
  refine ⟨{ r with stream := s', readLength := counted h (n + c.length) },
    ⟨hr.noBody, hs', rfl, hr.header, hr.contentLength, by omega⟩, ?_⟩
  have hiff : r.contentLength ≤ counted h (n + c.length) - size ↔
      m + size ≤ counted h (n + c.length) := by
    rw [hr.contentLength]
    omega
  rw [hturn]
  simp only [hadd, hsub, hiff]

theorem Reading.rightAt_nil (hr : Reading s h m size n [] r) :
    RightAt len s h (r, os) ↔ ¬ Complete len n := by
  constructor
  · intro hright
    have := hright.reads hr.noBody
    rwa [hr.arrived_eq] at this
  · intro hinc
    refine ⟨fun hb => ?_, fun _ => by rwa [hr.arrived_eq], fun _ c cs hc => ?_⟩
    · exact absurd (hr.noBody.symm.trans hb) (by decide)
    · exact absurd (hr.chunks.symm.trans hc) (by simp)

theorem Reading.rightAt_cons (hr : Reading s h m size n (c :: cs) r) : RightAt len s h (r, os) ↔
    ¬ Complete len n ∧ size ≤ counted h (n + c.length) ∧
      ∀ o, bodyTurn (r, os) = done (exit o) → Complete len (n + c.length) := by
  have hcount : sizeAdd r.readLength c.length = counted h (n + c.length) := by
    rw [hr.readLength, sizeAdd_counted]
  constructor
  · intro hright
    have hreads := hright.reads hr.noBody
    obtain ⟨hwrap, hstop⟩ := hright.chunk hr.noBody c cs hr.chunks
    rw [hr.arrived_eq] at hreads hstop
    rw [hr.header, hcount] at hwrap
    exact ⟨hreads, hwrap, hstop⟩
  · rintro ⟨hinc, hfills, hstop⟩
    refine ⟨fun hb => ?_, fun _ => by rwa [hr.arrived_eq], fun _ d ds hc => ?_⟩
    · exact absurd (hr.noBody.symm.trans hb) (by decide)
    · obtain ⟨rfl, -⟩ := List.cons.inj (hr.chunks.symm.trans hc)
      rw [hr.arrived_eq, hr.header, hcount]
      exact ⟨hfills, hstop⟩

/-- From a reading state on, the loop stops rightly exactly when the reads are in step. -/
theorem Reading.stopsRightly_iff (cs : List Bytes) :
    ∀ n r os, (∀ c ∈ cs, c ≠ []) → Reading s h m size n cs r →
      (StopsRightly len s h (r, os) ↔ InStep len h m size n cs) := by
  induction cs with
  | nil =>
    intro n r os _ hr
    have hend : bodyTurn (r, os) = _ := bodyTurn_end hr.noBody hr.chunks
    rw [StopsRightly, forall_reach_iff, hr.rightAt_nil, inStep_nil, and_iff_left]
    intro t hn
    rw [Next, hend] at hn
    cases hn
  | cons c cs ih =>
    intro n r os hne hr
    obtain ⟨hc, hcs⟩ := List.forall_mem_cons.mp hne
    rw [StopsRightly, forall_reach_iff, hr.rightAt_cons, inStep_cons]
    by_cases hfills : size ≤ counted h (n + c.length)
    swap
    · exact iff_of_false (fun h => hfills h.1.2.1) fun h => hfills h.2.1
    obtain ⟨r', hr', hturn⟩ := hr.turn hc hfills
    by_cases hstop : m + size ≤ counted h (n + c.length)
    · rw [if_pos hstop] at hturn
      have hno : ∀ t, ¬ Next bodyTurn (r, os) t := by
        intro t hn
        rw [Next, hturn] at hn
        cases hn
      constructor
      · rintro ⟨⟨hinc, -, hright⟩, -⟩
        have hcomplete := hright _ hturn
        exact ⟨hinc, hfills, iff_of_true hstop hcomplete, fun h => absurd hcomplete h⟩
      · rintro ⟨hinc, -, hiff, -⟩
        exact ⟨⟨hinc, hfills, fun _ _ => hiff.mp hstop⟩, fun t hn => absurd hn (hno t)⟩
    · rw [if_neg hstop] at hturn
      have hrest := ih (n + c.length) r' (os ++ c) hcs hr'
      have hexit : ∀ o, bodyTurn (r, os) ≠ done (exit o) := by
        intro o ho
        rw [hturn] at ho
        cases ho
      constructor
      · rintro ⟨⟨hinc, -, -⟩, hnext⟩
        have hstep := hrest.mp (hnext _ hturn)
        exact ⟨hinc, hfills, iff_of_false hstop hstep.incomplete, fun _ => hstep⟩
      · rintro ⟨hinc, -, hiff, hstep⟩
        refine ⟨⟨hinc, hfills, fun o ho => absurd ho (hexit o)⟩, fun t hn => ?_⟩
        obtain rfl := Next.functional hturn hn
        exact hrest.mpr (hstep (mt hiff.mpr hstop))

/-- What `m_header` holds behind `get_header`, when the read that completes the header
`h` brings the bytes `l` as well. -/
def headerBuffer (h l : Bytes) : Bytes :=
  if Cut h l then h
  else h ++ l ++ List.replicate (paddedLength (h ++ l).length - (h ++ l).length) 0

theorem headerBuffer_cut (hc : Cut h l) : headerBuffer h l = h := if_pos hc

theorem headerBuffer_kept (hc : ¬ Cut h l) : headerBuffer h l =
    h ++ l ++ List.replicate (paddedLength (h ++ l).length - (h ++ l).length) 0 := if_neg hc

theorem headerTurn_contentLength {x : Turn Response (Response × ℕ)}
    (h : headerTurn r = done x) : (∀ r', x = again r' → r'.contentLength = r.contentLength) ∧
      ∀ r' i, x = exit (r', i) → r'.contentLength = r.contentLength := by
  unfold headerTurn at h
  cases hread : r.stream.read with
  | mk y stream =>
    cases y with
    | none => simp [hread] at h
    | some c =>
      simp only [hread] at h
      obtain ⟨_, -, h⟩ := bind_eq_done.mp h
      split at h
      · obtain rfl := done.inj h
        exact ⟨fun r' hr' => by cases hr'; rfl, by simp⟩
      · obtain rfl := done.inj h
        exact ⟨by simp, fun r' i hr' => by cases hr'; rfl⟩

theorem finishHeader_contentLength {i : ℕ} (h : finishHeader r i = done r') :
    r'.contentLength = r.contentLength := by
  simp only [finishHeader] at h
  split_ifs at h
  · obtain ⟨_, -, h⟩ := bind_eq_done.mp h
    obtain rfl := done.inj h
    rfl
  · obtain rfl := done.inj h
    rfl

theorem getHeader_contentLength (h : Returns (fun k => getHeader k r) r') :
    r'.contentLength = r.contentLength := by
  obtain ⟨⟨r₁, i⟩, hloop, _, hfinish⟩ := h.of_bind
  obtain ⟨r₂, hreach, hexit⟩ := loop_returns_iff.mp hloop
  have hinv : r₂.contentLength = r.contentLength :=
    Reach.invariant (I := fun u => u.contentLength = r.contentLength) rfl
      (fun u u' hu hn => ((headerTurn_contentLength hn).1 u' rfl).trans hu) hreach
  calc r'.contentLength = r₁.contentLength := finishHeader_contentLength hfinish
    _ = r₂.contentLength := (headerTurn_contentLength hexit).2 r₁ i rfl
    _ = r.contentLength := hinv

theorem Arrival.length_le (ha : Arrival s.chunks h l cs) : l.length ≤ readBufLength := by
  obtain ⟨cs₀, c, hsplit, hc, hlt⟩ := ha.split
  have hsize : c.length ≤ readBufLength := s.sizes c (by simp [hsplit])
  have := congrArg List.length hc
  simp only [List.length_append] at this
  omega

/-- The loop over the body starts: the next turn reads, or, when the buffer was cut, it
hands on the bytes `l` that came with the header. -/
def BodyStart (s : Stream) (h l : Bytes) (m : ℕ) (cs : List Bytes) (r : Response) : Prop :=
  Reading s h m (headerBuffer h l).length l.length cs r ∨
    Cut h l ∧ l.length ≤ r.mBoday.length ∧ r.isHasSomeBody = true ∧
    Reading s h m (headerBuffer h l).length l.length cs { r with isHasSomeBody := false }

theorem body_starts (ha : Arrival s.chunks h l cs) (hb : h.length + readBufLength < sizeBound)
    (g : ℕ → UInt8) :
    ∃ r m, Returns (fun k => getHeader k (.new s g) >>= parseHeader k) r ∧
      getContentLength (headerBuffer h l) 0 = done m ∧ BodyStart s h l m cs r := by
  have htotal := congrArg List.length ha.flatten
  simp only [List.length_append] at htotal
  have hlen := ha.length_le
  have hcount : counted h l.length = h.length + l.length := Nat.mod_eq_of_lt (by omega)
  obtain ⟨m, hm⟩ := getContentLength_done (headerBuffer h l) 0
  obtain ⟨r, hr, hcs, hcases⟩ := ha.getHeader (by omega) g
  have hparse (r₁ : Response) (hret : Returns (fun k => getHeader k (.new s g)) r₁)
      (hbuf : r₁.mHeader = headerBuffer h l) : ∃ fields,
      Returns (fun k => getHeader k (.new s g) >>= parseHeader k)
        { r₁ with respHeader := fields, contentLength := m } := by
    obtain ⟨fields, hf⟩ := parseFields_returns r₁.mHeader r₁.respHeader
    have hzero : r₁.contentLength = 0 := getHeader_contentLength hret
    refine ⟨fields, hret.bind (getHeader_progressive _) (parseHeader_progressive _)
      (hf.bind (parseFields_progressive _ _) (progressive_const _) ⟨0, ?_⟩)⟩
    simp only [hzero, hbuf, hm, done_bind]
    rfl
  have hread : r.readLength = counted h l.length := by
    rw [hr.readLength, List.length_append, hcount]
  rcases hcases with ⟨hcut, hret⟩ | ⟨hcut, hret⟩
  · obtain ⟨fields, hret'⟩ := hparse _ hret (headerBuffer_cut hcut).symm
    refine ⟨_, m, hret', hm, .inr ⟨hcut, ?_, rfl, rfl, hcs, hread, ?_, rfl, by omega⟩⟩
    · show l.length ≤ r.mBoday.length
      rw [hr.boday, List.length_map, List.length_range]
      exact hlen
    · rw [headerBuffer_cut hcut]
  · have hbuf : r.mHeader = headerBuffer h l := by rw [hr.header, headerBuffer_kept hcut]
    obtain ⟨fields, hret'⟩ := hparse _ hret hbuf
    exact ⟨_, m, hret', hm, .inl ⟨hr.noBody, hcs, hread, congrArg List.length hbuf, rfl, by omega⟩⟩

theorem leftover_next (hb : r.isHasSomeBody = true)
    (hn : sizeSub r.readLength r.mHeader.length ≤ r.mBoday.length) :
    ∃ os', Next bodyTurn (r, os) ({ r with isHasSomeBody := false }, os') := by
  obtain ⟨t, ht⟩ : ∃ t, bodyTurn (r, os) = done t := by
    simp only [bodyTurn, getBoday, hb, if_true, guard_true hn, done_bind, pure_eq]
    split_ifs
    · exact ⟨_, rfl⟩
    · exact ⟨_, rfl⟩
  exact ⟨_, ht.trans (congrArg done (bodyTurn_leftover hb ht))⟩

theorem BodyStart.stopsRightly_iff (hr : BodyStart s h l m cs r) (hne : ∀ c ∈ cs, c ≠ [])
    (hb : h.length + l.length < sizeBound) : StopsRightly len s h (r, []) ↔
      InStep len h m (headerBuffer h l).length l.length cs := by
  rcases hr with hr | ⟨hcut, hboday, hbody, hr⟩
  · exact Reading.stopsRightly_iff cs _ r [] hne hr
  · have hheader : r.mHeader.length = h.length := by
      rw [← headerBuffer_cut hcut]
      exact hr.header
    have hread : r.readLength = h.length + l.length := hr.readLength.trans (Nat.mod_eq_of_lt hb)
    have hsub : sizeSub r.readLength r.mHeader.length ≤ r.mBoday.length := by
      rw [hheader, hread, sizeSub_eq (by omega) hb]
      omega
    obtain ⟨os', hnext⟩ : ∃ os', Next bodyTurn (r, []) _ := leftover_next hbody hsub
    rw [StopsRightly, forall_reach_iff, ← Reading.stopsRightly_iff cs _ _ os' hne hr]
    constructor
    · exact fun hright => hright.2 _ hnext
    · intro hright
      refine ⟨⟨fun _ => ?_, fun hb => ?_, fun hb => ?_⟩, fun t ht => ?_⟩
      · show r.mHeader.length ≤ r.readLength
        omega
      · exact absurd (hbody.symm.trans hb) (by decide)
      · exact absurd (hbody.symm.trans hb) (by decide)
      · obtain rfl := Next.functional hnext ht
        exact hright

/-- With a field that announces the length and a buffer cut behind the header, the loop
stops rightly unless the whole body came with the header. -/
theorem stopsRightly_of_cut (hh : HeaderBlock h n) (hn : n < sizeBound)
    (ha : Arrival s.chunks h l cs) (hne : ∀ c ∈ cs, c ≠ [])
    (hb : s.chunks.flatten.length + readBufLength < sizeBound) (hc : Cut h l) (g : ℕ → UInt8) :
    ∃ r, Returns (fun k => getHeader k (.new s g) >>= parseHeader k) r ∧
      (StopsRightly (some n) s h (r, []) ↔ l.length < n) := by
  have hcomplete (j : ℕ) : Complete (some n) j ↔ n ≤ j := by simp [Complete]
  have htotal := congrArg List.length ha.flatten
  simp only [List.length_append] at htotal
  obtain ⟨r, m, hret, hm, hstart⟩ := body_starts ha (by omega) g
  rw [headerBuffer_cut hc, ← List.append_nil h, hh.contentLength hn] at hm
  obtain rfl := done.inj hm
  refine ⟨r, hret, ?_⟩
  rw [hstart.stopsRightly_iff hne (by omega), headerBuffer_cut hc]
  constructor
  · intro hstep
    have := hstep.incomplete
    rwa [hcomplete, not_le] at this
  · intro hlt
    refine ⟨by rwa [hcomplete, not_le], fun p c q hsplit _ => ?_⟩
    have hsum := congrArg (fun ds : List Bytes => ds.flatten.length) hsplit
    simp only [List.flatten_append, List.flatten_cons, List.length_append] at hsum
    have hcount : counted h (l.length + p.flatten.length + c.length) =
        h.length + (l.length + p.flatten.length + c.length) := Nat.mod_eq_of_lt (by omega)
    rw [hcomplete, hcount]
    omega

/-- Without the text `Content-Length` in the buffer, the loop reads until the peer closes
only if nothing follows the read that completes the header. -/
theorem stopsRightly_without_length (hkey : search httpKetContentLength (headerBuffer h l) = none)
    (ha : Arrival s.chunks h l cs) (hne : ∀ c ∈ cs, c ≠ [])
    (hb : h.length + readBufLength < sizeBound) (g : ℕ → UInt8) :
    ∃ r, Returns (fun k => getHeader k (.new s g) >>= parseHeader k) r ∧
      (StopsRightly none s h (r, []) ↔ cs = []) := by
  have hcomplete (j : ℕ) : ¬ Complete none j := by simp [Complete]
  have hlen := ha.length_le
  obtain ⟨r, m, hret, hm, hstart⟩ := body_starts ha hb g
  rw [getContentLength, find_zero, hkey] at hm
  obtain rfl := done.inj hm
  refine ⟨r, hret, ?_⟩
  rw [hstart.stopsRightly_iff hne (by omega)]
  cases cs with
  | nil => simpa [inStep_nil] using hcomplete _
  | cons c cs =>
    -- the first chunk that fills the buffer stops the loop
    rw [inStep_cons]
    refine iff_of_false (fun hstep => ?_) (by simp)
    exact hcomplete _ (hstep.2.2.1.mp (by rw [Nat.zero_add]; exact hstep.2.1))

/-- Whatever the length of the response is, the loop over the body reads exactly while
the response is incomplete, and no difference wraps, if and only if the reads are in
step with the test that the code makes. -/
theorem body_stops_iff (ha : Arrival s.chunks h l cs) (hne : ∀ c ∈ cs, c ≠ [])
    (hb : h.length + readBufLength < sizeBound) (len : Option ℕ) (g : ℕ → UInt8) :
    ∃ r m, Returns (fun k => getHeader k (.new s g) >>= parseHeader k) r ∧
      getContentLength (headerBuffer h l) 0 = done m ∧
      (StopsRightly len s h (r, []) ↔
        InStep len h m (headerBuffer h l).length l.length cs) := by
  have hlen := ha.length_le
  obtain ⟨r, m, hret, hm, hstart⟩ := body_starts ha hb g
  exact ⟨r, m, hret, hm, hstart.stopsRightly_iff hne (by omega)⟩

def helloSplit : Stream := ⟨[helloHeader ++ ascii "he", ascii "llo"], by decide, false⟩

theorem body_stops_helloSplit :
    ∃ r, Returns (fun k => getHeader k (.new helloSplit fun _ => 0) >>= parseHeader k) r ∧
      StopsRightly (some 5) helloSplit helloHeader (r, []) := by
  have ha : Arrival helloSplit.chunks helloHeader (ascii "he") [ascii "llo"] :=
    ⟨by decide, [], _, rfl, rfl, by decide⟩
  obtain ⟨r, m, hret, hm, hiff⟩ := body_stops_iff ha (by decide) (by decide) (some 5) fun _ => 0
  have hfive : getContentLength (headerBuffer helloHeader (ascii "he")) 0 = done 5 := by
    decide +kernel
  obtain rfl := done.inj (hm.symm.trans hfive)
  have hsize : (headerBuffer helloHeader (ascii "he")).length = helloHeader.length := by
    decide +kernel
  have hcomplete (j : ℕ) : Complete (some 5) j ↔ 5 ≤ j := by simp [Complete]
  refine ⟨r, hret, hiff.mpr ?_⟩
  rw [hsize, inStep_cons]
  simp only [hcomplete]
  exact ⟨by decide, by decide, by decide, fun h => absurd h (by decide)⟩

/-- The body comes with the header, and the loop reads once more. -/
theorem reads_behind_the_body : ∃ r, Returns (fun k => getHeader k
      (.new ⟨[helloHeader ++ ascii "hello"], by decide, false⟩ fun _ => 0) >>= parseHeader k) r ∧
    ¬ StopsRightly (some 5) ⟨[helloHeader ++ ascii "hello"], by decide, false⟩ helloHeader
      (r, []) := by
  have ha : Arrival [helloHeader ++ ascii "hello"] helloHeader (ascii "hello") [] :=
    ⟨by decide, [], _, rfl, rfl, by decide⟩
  obtain ⟨r, m, hret, -, hstart⟩ := body_starts
    (s := ⟨[helloHeader ++ ascii "hello"], by decide, false⟩) ha (by decide) fun _ => 0
  refine ⟨r, hret, fun hright => ?_⟩
  have hstep := (hstart.stopsRightly_iff (by simp) (by decide)).mp hright
  exact hstep.incomplete ⟨5, rfl, by decide⟩

end QyUtil.Http
