import QyUtil.Http.Header

/-! # The body

Which streams `Request::get` passes on unchanged. The bytes that arrive with the
end of the header are lost, so a read has to end with the header. The padded
header then makes the first test of `get_boday` end the loop, unless the header
and the first chunk of the body fill the padded length.
-/

namespace QyUtil.Http

open Loops Outcome Turn Bytes Search

variable {g : ℕ → UInt8} {r r' : Response} {bs c os o h b l : Bytes} {cs ds : List Bytes}
  {s : Stream} {i n : ℕ}

/-- A header of a response with a body of `n` bytes. -/
structure HeaderBlock (h : Bytes) (n : ℕ) : Prop where
  ends : search httpHeaderEof h = some (h.length - httpHeaderEof.length)
  no_nul : (0 : UInt8) ∉ h
  field : ∃ pre post,
    h = pre ++ (ascii "Content-Length: " ++ decimal n ++ httpHeaderBreak ++ post) ∧
      ∀ j, httpKetContentLength <+: h.drop j → j = pre.length

theorem not_mem_field (n : ℕ) : (13 : UInt8) ∉ 58 :: 32 :: decimal n := by
  simp only [List.mem_cons, not_or]
  refine ⟨by decide, by decide, fun h => ?_⟩
  exact absurd (isDigit_of_mem_decimal h) (by decide)

theorem HeaderBlock.contentLength (hh : HeaderBlock h n) (hn : n < sizeBound) (l : Bytes)
    (old : ℕ) : getContentLength (h ++ l) old = done n := by
  obtain ⟨pre, post, hfield, honly⟩ := hh.field
  have hkey : find (h ++ l) httpKetContentLength 0 = some pre.length := by
    rw [find_zero]
    refine Search.search_append (search_eq_some.mpr ⟨by simp [hfield], ?_, fun j hj hp => ?_⟩) l
    · rw [hfield, List.drop_left]
      exact ⟨ascii ": " ++ decimal n ++ httpHeaderBreak ++ post, by simp [← List.append_assoc]; rfl⟩
    · exact absurd (honly j hp) (by omega)
  have hform : h ++ l = pre ++ httpKetContentLength ++
      (58 :: 32 :: decimal n ++ (httpHeaderBreak ++ (post ++ l))) := by
    rw [hfield]
    simp only [List.append_assoc, List.cons_append]
    rfl
  have hlen : pre.length + httpKetContentLength.length =
      (pre ++ httpKetContentLength).length := List.length_append.symm
  have hbreak : find (h ++ l) httpHeaderBreak (pre ++ httpKetContentLength).length =
      some ((58 :: 32 :: decimal n).length + (pre ++ httpKetContentLength).length) := by
    rw [hform, find, if_pos (by simp only [List.length_append]; omega), List.drop_left,
      httpHeaderBreak, search_append_cons (not_mem_field n)]
    rfl
  have hcolon : find (58 :: 32 :: decimal n) [58] 0 = some 0 := by
    rw [find_zero, search, if_pos ⟨_, rfl⟩]
  have hpos : (pre ++ httpKetContentLength).length ≤ (h ++ l).length := by
    rw [hform]
    simp only [List.length_append]
    omega
  have htake : ((h ++ l).drop (pre ++ httpKetContentLength).length).take
      (58 :: 32 :: decimal n).length = 58 :: 32 :: decimal n := by
    rw [hform, List.drop_left, List.take_left]
  simp only [getContentLength, hkey, hlen, hbreak, Option.map_some, Nat.add_sub_cancel,
    substr_done hpos, htake, done_bind, hcolon]
  rw [substr_done (by simp), done_bind]
  exact congrArg done (extractSize_decimal hn)

theorem parseHeader_frame (h : Returns (fun k => parseHeader k r) r') :
    ∃ fields n, r' = { r with respHeader := fields, contentLength := n } := by
  obtain ⟨fields, -, h⟩ := h.of_bind
  obtain ⟨n, -, _, h⟩ := h.of_bind
  exact ⟨fields, n, (done.inj h).symm⟩

theorem parseHeader_returns (hh : HeaderBlock h n) (hn : n < sizeBound)
    (hr : r.mHeader = h ++ l) :
    ∃ fields, Returns (fun k => parseHeader k r)
      { r with respHeader := fields, contentLength := n } := by
  obtain ⟨fields, hf⟩ := parseFields_returns r.mHeader r.respHeader
  refine ⟨fields, hf.bind (parseFields_progressive _ _) (progressive_const _) ⟨0, ?_⟩⟩
  simp only [hr, hh.contentLength hn, done_bind]
  rfl

theorem bodyTurn_end (hb : r.isHasSomeBody = false) (hc : r.stream.chunks = []) :
    bodyTurn (r, os) = done (exit os) := by
  simp only [bodyTurn, getBoday, hb, Bool.false_eq_true, if_false, read_nil hc]
  cases r.stream.failing <;> rfl

theorem bodyTurn_leftover (hb : r.isHasSomeBody = true) {t : Turn (Response × Bytes) Bytes}
    (h : bodyTurn (r, os) = done t) :
    t = again ({ r with isHasSomeBody := false },
      os ++ r.mBoday.take (sizeSub r.readLength r.mHeader.length)) := by
  obtain ⟨x, hx, h⟩ := bind_eq_done.mp h
  simp only [getBoday, hb, if_true] at hx
  obtain ⟨_, -, hx⟩ := bind_eq_done.mp hx
  obtain rfl := done.inj hx
  have hcode : ((sizeSub r.readLength r.mHeader.length : ℕ) : ℤ) ≠ eof := by
    simp only [eof]
    omega
  simp only [if_neg hcode] at h
  exact (done.inj h).symm

theorem bodyTurn_chunk (hb : r.isHasSomeBody = false) (hc : r.stream.chunks = c :: cs)
    (hne : c ≠ []) :
    ∃ s', s'.chunks = cs ∧
      bodyTurn (r, os) = done
        (if r.contentLength ≤ sizeSub (sizeAdd r.readLength c.length) r.mHeader.length then
          exit (os ++ c)
        else again ({ r with stream := s', readLength := sizeAdd r.readLength c.length },
          os ++ c)) := by
  obtain ⟨s', hread, hcs, -⟩ := read_chunk hc
  refine ⟨s', hcs, ?_⟩
  simp only [bodyTurn, getBoday, hb, Bool.false_eq_true, if_false, hread, if_neg hne, pure_eq,
    done_bind]
  split_ifs with h1 h2 h2
  · rfl
  · exact absurd rfl h2
  · exact absurd h2 (by decide)
  · rfl

theorem body_returns (cs : List Bytes) (hne : ∀ c ∈ cs, c ≠ []) : ∀ (r : Response) (os : Bytes),
    r.isHasSomeBody = false → r.stream.chunks = cs →
    r.readLength + cs.flatten.length < sizeBound →
    (∀ c ∈ cs.head?, r.mHeader.length ≤ r.readLength + c.length) →
    r.readLength + cs.flatten.length < r.mHeader.length + r.contentLength →
    Returns (fun k => loop bodyTurn k (r, os)) (os ++ cs.flatten) := by
  induction cs with
  | nil =>
    intro r os hb hc _ _ _
    rw [List.flatten_nil, List.append_nil]
    exact returns_of_exit (bodyTurn_end hb hc)
  | cons c cs ih =>
    intro r os hb hc hbound hpad hmore
    obtain ⟨hc0, hcs0⟩ := List.forall_mem_cons.mp hne
    rw [List.flatten_cons, List.length_append] at hbound hmore
    have hfill : r.mHeader.length ≤ r.readLength + c.length := hpad c rfl
    obtain ⟨s', hs', hturn⟩ := bodyTurn_chunk hb hc hc0
    rw [sizeAdd_eq (by omega), sizeSub_eq hfill (by omega), if_neg (by omega)] at hturn
    have hrest := ih hcs0 { r with stream := s', readLength := r.readLength + c.length } (os ++ c)
      hb hs' (by simp only; omega) (fun d _ => by simp only; omega) (by simp only; omega)
    rw [List.flatten_cons, ← List.append_assoc]
    exact Next.returns hturn hrest

theorem bodyTurn_cases (hb : r.isHasSomeBody = false) :
    (∃ r' c, bodyTurn (r, os) = done (again (r', os ++ c)) ∧ r'.isHasSomeBody = false ∧
      c.length + r'.stream.chunks.flatten.length ≤ r.stream.chunks.flatten.length) ∨
    ∃ c, bodyTurn (r, os) = done (exit (os ++ c)) ∧
      c.length ≤ r.stream.chunks.flatten.length := by
  cases hc : r.stream.chunks with
  | nil => exact .inr ⟨[], by simpa using bodyTurn_end hb hc, by simp⟩
  | cons c cs =>
    by_cases hne : c = []
    · refine .inr ⟨[], ?_, Nat.zero_le _⟩
      obtain ⟨s', hread, -, -⟩ := read_chunk hc
      simp only [bodyTurn, getBoday, hb, Bool.false_eq_true, if_false, hread, if_pos hne, pure_eq,
        done_bind, if_true, List.append_nil]
    · obtain ⟨s', hs', hturn⟩ := bodyTurn_chunk hb hc hne
      rw [List.flatten_cons, List.length_append]
      split_ifs at hturn
      · exact .inr ⟨c, hturn, Nat.le_add_right _ _⟩
      · exact .inl ⟨_, c, hturn, hb, by simp only [hs', le_refl]⟩

/-- The invariant of the body loop: the output starts with `os`, and together with
what the stream still holds it is not longer than `k`. -/
def OutputBound (os : Bytes) (k : ℕ) (t : Response × Bytes) : Prop :=
  t.1.isHasSomeBody = false ∧ os <+: t.2 ∧ t.2.length + t.1.stream.chunks.flatten.length ≤ k

theorem OutputBound.step {k : ℕ} {t t' : Response × Bytes} (h : OutputBound os k t)
    (hn : Next bodyTurn t t') : OutputBound os k t' := by
  obtain ⟨hb, hp, hlen⟩ := h
  rcases bodyTurn_cases hb with ⟨r', c, hturn, hb', hc⟩ | ⟨c, hturn, -⟩
  · obtain rfl := Next.functional hturn hn
    refine ⟨hb', hp.trans (List.prefix_append _ _), ?_⟩
    simp only [List.length_append]
    omega
  · rw [Next, hturn] at hn
    cases hn

theorem body_bounds (hb : r.isHasSomeBody = false)
    (h : Returns (fun k => loop bodyTurn k (r, os)) o) :
    os <+: o ∧ o.length ≤ os.length + r.stream.chunks.flatten.length := by
  obtain ⟨t, ht, hexit⟩ := loop_returns_iff.mp h
  have hinv : OutputBound os (os.length + r.stream.chunks.flatten.length) t :=
    Reach.invariant ⟨hb, List.prefix_refl _, le_refl _⟩ (fun _ _ hi hn => hi.step hn) ht
  obtain ⟨hbt, hp, hlen⟩ := hinv
  rcases bodyTurn_cases hbt with ⟨r', c, hturn, -⟩ | ⟨c, hturn, hc⟩
  · rw [hturn] at hexit
    cases hexit
  · rw [hturn] at hexit
    obtain rfl := exit.inj (done.inj hexit)
    refine ⟨hp.trans (List.prefix_append _ _), ?_⟩
    rw [List.length_append]
    omega

theorem receive_clean (hh : HeaderBlock h n) (hn : n < sizeBound) (ha : Arrival s.chunks h l cs)
    (hb : h.length + readBufLength ≤ sizeBound) (hl : ¬ Cut h l) (g : ℕ → UInt8) :
    ∃ r₃ : Response, r₃.isHasSomeBody = false ∧ r₃.stream.chunks = cs ∧
      r₃.mHeader.length = paddedLength (h ++ l).length ∧ r₃.readLength = (h ++ l).length ∧
      r₃.contentLength = n ∧ ∀ o, Returns (fun k => receive k s g) o ↔
        Returns (fun k => loop bodyTurn k (r₃, [])) o := by
  obtain ⟨r, hr, hcs, ⟨hcut, -⟩ | ⟨-, hheader⟩⟩ := ha.getHeader hb g
  · exact absurd hcut hl
  obtain ⟨fields, hparse⟩ := parseHeader_returns (r := r) (l := l ++ List.replicate
    (paddedLength (h ++ l).length - (h ++ l).length) 0) hh hn
    (by rw [hr.header, List.append_assoc])
  refine ⟨{ r with respHeader := fields, contentLength := n }, hr.noBody, hcs, hr.size,
    hr.readLength, rfl, fun o => ?_⟩
  have hrest (r : Response) : Progressive fun k => loop bodyTurn k (r, []) :=
    loop_progressive _ _
  have hmid : Progressive fun k => parseHeader k r >>= fun r => loop bodyTurn k (r, []) :=
    Progressive.bind (parseHeader_progressive r) hrest
  exact (hheader.bind_iff (getHeader_progressive _) hmid).trans
    (hparse.bind_iff (parseHeader_progressive r) (hrest _))

/-- When nothing follows the header in a read, the loop over the body starts behind it. -/
theorem receive_apart (hh : HeaderBlock h b.length) (ha : Arrival s.chunks h [] cs)
    (hbound : h.length + b.length + readBufLength ≤ sizeBound) (g : ℕ → UInt8) :
    ∃ r₃ : Response, r₃.isHasSomeBody = false ∧ r₃.stream.chunks = cs ∧
      r₃.mHeader.length = paddedLength h.length ∧ r₃.readLength = h.length ∧
      r₃.contentLength = b.length ∧ ∀ o, Returns (fun k => receive k s g) o ↔
        Returns (fun k => loop bodyTurn k (r₃, [])) o := by
  have hpos : 0 < readBufLength := by decide
  have hclean := receive_clean hh (by omega) ha (by omega) not_cut_nil g
  rwa [List.append_nil] at hclean

/-- When the buffer is cut behind the header, the output starts with what `m_boday`
happened to hold. -/
theorem receive_leftover (ha : Arrival s.chunks h l cs)
    (hb : h.length + readBufLength ≤ sizeBound) (hlt : (h ++ l).length < sizeBound)
    (hl : Cut h l) (ho : Returns (fun k => receive k s g) o) : o.head? = some (g 0) := by
  obtain ⟨a, m, rfl⟩ := hl.exists_cons
  obtain ⟨r₁, hr, -, ⟨-, hheader⟩ | ⟨hcut, -⟩⟩ := ha.getHeader hb g
  swap
  · exact absurd hl hcut
  obtain ⟨r₂, hheader', ho⟩ := ho.of_bind
  obtain rfl := hheader'.unique (getHeader_progressive _) hheader
  obtain ⟨r₃, hparse, ho⟩ := ho.of_bind
  obtain ⟨fields, j, rfl⟩ := parseHeader_frame hparse
  have hsub : sizeSub r₁.readLength h.length = m.length + 1 := by
    rw [hr.readLength, sizeSub_eq (by simp) hlt]
    simp
  obtain ⟨k, hk⟩ := ho
  cases k with
  | zero => cases hk
  | succ k =>
    obtain ⟨t, hturn, hk⟩ := bind_eq_done.mp hk
    obtain rfl := bodyTurn_leftover rfl hturn
    obtain ⟨⟨u, hu⟩, -⟩ := body_bounds rfl ⟨k, hk⟩
    have hg : ((List.range readBufLength).map g).head? = some (g 0) := by
      rw [List.head?_map, List.head?_range, if_neg (by decide), Option.map_some]
    rw [← hu, List.nil_append, hsub, hr.boday, List.head?_append, List.head?_take, hg]
    rfl

theorem exists_cons_cons (h : 1 < cs.length) : ∃ c d ds, cs = c :: d :: ds := by
  rcases cs with _ | ⟨c, _ | ⟨d, ds⟩⟩
  · simp at h
  · simp at h
  · exact ⟨c, d, ds, rfl⟩

theorem eq_nil_or_singleton (h : cs.length ≤ 1) : cs = [] ∨ ∃ c, cs = [c] := by
  rcases cs with _ | ⟨c, _ | ⟨d, ds⟩⟩
  · exact .inl rfl
  · exact .inr ⟨c, rfl⟩
  · simp at h

/-- A read ends where the header does, and the body comes in one chunk, or its
first chunk fills the padded header, or there is none. -/
def ArrivesApart (h : Bytes) (chunks : List Bytes) : Prop :=
  ∃ cs ds, chunks = cs ++ ds ∧ cs.flatten = h ∧
    (ds.length ≤ 1 ∨ paddedLength h.length ≤ h.length + (ds.headD []).length)

/-- When the output is the body whatever `m_boday` holds at first, no byte of the body
is read with the end of the header. -/
theorem nothing_with_header (hh : HeaderBlock h n) (hn : n < sizeBound)
    (ha : Arrival s.chunks h l cs) (hbound : h.length + readBufLength ≤ sizeBound)
    (hb : b = l ++ cs.flatten) (hg : g 0 ≠ b.headD 0) (hlt : (h ++ b).length < sizeBound)
    (ho : Returns (fun k => receive k s g) b) : l = [] := by
  cases l with
  | nil => rfl
  | cons a l =>
    by_cases hcut : Cut h (a :: l)
    · have hlen : (h ++ a :: l).length < sizeBound := by
        rw [hb, ← List.append_assoc, List.length_append] at hlt
        omega
      have hhead := receive_leftover ha hbound hlen hcut ho
      rw [List.headD_eq_head?_getD, hhead] at hg
      exact absurd rfl hg
    · -- the output is made of the later chunks alone, and is too short
      obtain ⟨r₃, hb₃, hc₃, -, -, -, hiff⟩ := receive_clean hh hn ha hbound hcut g
      have hlen := (body_bounds hb₃ ((hiff b).mp ho)).2
      rw [hc₃, hb] at hlen
      simp at hlen

/-- When nothing follows the end of the header in a read, the output is the body only
if the first chunk of the body is the last, or fills the padded header. -/
theorem first_chunk_fills (hh : HeaderBlock h b.length) (ha : Arrival s.chunks h [] cs)
    (hb : b = cs.flatten) (hne : ∀ c ∈ cs, c ≠ [])
    (hbound : h.length + b.length + readBufLength ≤ sizeBound)
    (ho : Returns (fun k => receive k s g) b) :
    cs.length ≤ 1 ∨ paddedLength h.length ≤ h.length + (cs.headD []).length := by
  obtain ⟨r₃, hb₃, hc₃, hpad, hread, hlen, hiff⟩ := receive_apart hh ha hbound g
  by_contra hcon
  rw [not_or, not_le, not_le] at hcon
  obtain ⟨hlong, hshort⟩ := hcon
  obtain ⟨c, d, ds, rfl⟩ := exists_cons_cons hlong
  have hc : c ≠ [] := hne c (by simp)
  have hd : 0 < d.length := List.length_pos_iff.mpr (hne d (by simp))
  have hblen : b.length = c.length + (d.length + ds.flatten.length) := by simp [hb]
  have hpadle := paddedLength_le h.length
  rw [List.headD_cons] at hshort
  obtain ⟨s', -, hturn⟩ := bodyTurn_chunk hb₃ hc₃ hc
  -- the difference of the lengths wraps, and the first chunk is taken for the whole body
  rw [hread, hpad, hlen, sizeAdd_eq (by omega), sizeSub_wrap hshort (by omega),
    if_pos (by omega)] at hturn
  have heq := (returns_of_exit_iff hturn).mp ((hiff b).mp ho)
  rw [List.nil_append] at heq
  rw [heq] at hblen
  omega

theorem arrival_of_flatten {ds : List Bytes} (hh : HeaderBlock h n) (hd : cs.flatten = h)
    (hne : ∀ c ∈ cs, c ≠ []) : Arrival (cs ++ ds) h [] ds := by
  have hpos : 0 < h.length := by
    have := search_le hh.ends
    have heof : httpHeaderEof.length = 4 := rfl
    omega
  rcases List.eq_nil_or_concat cs with rfl | ⟨cs₀, c, rfl⟩
  · rw [← hd] at hpos
    simp at hpos
  · rw [List.concat_eq_append] at hd hne ⊢
    have hc : 0 < c.length := List.length_pos_iff.mpr (hne c (by simp))
    rw [List.flatten_append, List.flatten_singleton] at hd
    refine ⟨hh.ends, cs₀, c, by simp, by rw [hd, List.append_nil], ?_⟩
    rw [← hd, List.length_append]
    omega

theorem ArrivesApart.returns (h' : ArrivesApart h s.chunks) (hh : HeaderBlock h b.length)
    (hs : s.chunks.flatten = h ++ b) (hne : ∀ c ∈ s.chunks, c ≠ [])
    (hbound : h.length + b.length + readBufLength ≤ sizeBound) (g : ℕ → UInt8) :
    Returns (fun k => receive k s g) b := by
  obtain ⟨cs, ds, hsplit, hcs, hcond⟩ := h'
  rw [hsplit, List.forall_mem_append] at hne
  obtain ⟨hcsne, hds⟩ := hne
  have ha : Arrival s.chunks h [] ds := hsplit ▸ arrival_of_flatten hh hcs hcsne
  have hb : b = ds.flatten := by
    have := hs.symm.trans ha.flatten
    simpa using this
  obtain ⟨r₃, hb₃, hc₃, hpad, hread, hlen, hiff⟩ := receive_apart hh ha hbound g
  rw [hiff, ← List.nil_append b, hb]
  rcases hcond with hshort | hfill
  · rcases eq_nil_or_singleton hshort with rfl | ⟨c, rfl⟩
    · exact returns_of_exit (bodyTurn_end hb₃ hc₃)
    · obtain ⟨s', hs', hturn⟩ := bodyTurn_chunk hb₃ hc₃ (hds c (by simp))
      rw [List.flatten_singleton]
      split_ifs at hturn
      · exact returns_of_exit hturn
      · exact Next.returns hturn (returns_of_exit (bodyTurn_end hb₃ hs'))
  · refine body_returns ds hds r₃ [] hb₃ hc₃ ?_ (fun c hc => ?_) ?_
    · have hpos : 0 < readBufLength := by decide
      rw [hread, ← hb]
      omega
    · obtain ⟨ds, rfl⟩ := List.head?_eq_some_iff.mp hc
      rw [hpad, hread]
      exact hfill
    · rw [hread, hpad, hlen, ← hb]
      exact Nat.add_lt_add_right (lt_paddedLength _) _

/-- Whatever `m_boday` holds at first, the output is the body, exactly when header
and body arrive apart. -/
theorem receive_body_iff (hh : HeaderBlock h b.length) (hs : s.chunks.flatten = h ++ b)
    (hne : ∀ c ∈ s.chunks, c ≠ [])
    (hbound : h.length + b.length + readBufLength ≤ sizeBound) :
    (∀ g, Returns (fun k => receive k s g) b) ↔ ArrivesApart h s.chunks := by
  have hpos : 0 < readBufLength := by decide
  have hlt : (h ++ b).length < sizeBound := by
    rw [List.length_append]
    omega
  constructor
  · intro hall
    -- a first byte that the body does not start with
    have hret := hall fun _ => b.headD 0 + 1
    obtain ⟨l, cs, ha⟩ := exists_arrival (hs ▸ search_append hh.ends b)
    have hlen : h.length - httpHeaderEof.length + httpHeaderEof.length = h.length := by
      have := search_le hh.ends
      omega
    rw [hs, hlen, List.take_left] at ha
    have hb : b = l ++ cs.flatten := List.append_cancel_left (hs.symm.trans ha.flatten)
    obtain rfl := nothing_with_header hh (by omega) ha (by omega) hb (by simp) hlt hret
    obtain ⟨cs₀, c, hsplit, hc, -⟩ := ha.split
    rw [List.append_nil] at hc
    have hne₂ : ∀ c ∈ cs, c ≠ [] := fun c hc => hne c (by simp [hsplit, hc])
    refine ⟨cs₀ ++ [c], cs, by simp [hsplit], by simpa using hc, ?_⟩
    exact first_chunk_fills hh ha hb hne₂ hbound hret
  · intro happart
    exact happart.returns hh hs hne hbound

def helloHeader : Bytes := ascii "HTTP/1.0 200 OK\r\nContent-Length: 5\r\n\r\n"

theorem helloHeader_block : HeaderBlock helloHeader (ascii "hello").length where
  ends := by decide
  no_nul := by decide
  field := by
    refine ⟨ascii "HTTP/1.0 200 OK\r\n", httpHeaderBreak, by decide, fun j hp => ?_⟩
    have hj : j < 38 := by
      by_contra hj
      rw [List.drop_eq_nil_of_le (show helloHeader.length ≤ j from not_lt.mp hj)] at hp
      exact absurd (List.prefix_nil.mp hp) (by decide)
    revert hp
    revert j
    decide

theorem receive_body_hello : ArrivesApart helloHeader [helloHeader, ascii "hello"] ∧
    ∀ g, Returns (fun k => receive k ⟨[helloHeader, ascii "hello"], by decide, false⟩ g)
      (ascii "hello") := by
  have happart : ArrivesApart helloHeader [helloHeader, ascii "hello"] :=
    ⟨[helloHeader], [ascii "hello"], rfl, by decide, .inl (by decide)⟩
  exact ⟨happart, (receive_body_iff helloHeader_block
    (s := ⟨[helloHeader, ascii "hello"], by decide, false⟩) (by decide) (by decide)
    (by decide)).mpr happart⟩

/-- When the body comes with the header, its bytes are replaced. -/
theorem receive_body_one_read : ¬ ∀ g, Returns
    (fun k => receive k ⟨[helloHeader ++ ascii "hello"], by decide, false⟩ g) (ascii "hello") := by
  intro h
  have hzeros : receive 20 ⟨[helloHeader ++ ascii "hello"], by decide, false⟩ (fun _ => 0) =
      done [0, 0, 0, 0, 0] := by decide +kernel
  have := (h fun _ => 0).unique (receive_progressive _ _) ⟨20, hzeros⟩
  exact absurd this (by decide)

end QyUtil.Http
