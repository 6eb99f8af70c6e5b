import QyUtil.Http.Reception
import QyUtil.Loops.Finite

/-! # The header

What `get_header` leaves in `m_header`. The read that completes the header may bring
more bytes. The buffer is cut behind the header only when there is such a byte, it is
not NUL, and the header itself has no NUL. Otherwise the buffer keeps what was read
and its padding. When no header is completed, `get_header` does not come back: it
reads for ever behind the end of the stream, and after an error it copies from
outside its buffer.
-/

namespace QyUtil.Http

open Loops Outcome Turn Bytes Search

variable {g : ℕ → UInt8} {r r' : Response} {h l : Bytes} {cs chunks : List Bytes} {s : Stream}
  {i : ℕ}

/-- The buffer is cut behind the header `h`, with which the bytes `l` were read. -/
def Cut (h l : Bytes) : Prop := (0 : UInt8) ∉ h ∧ ∃ a ∈ l.head?, a ≠ 0

instance (h l : Bytes) : Decidable (Cut h l) :=
  inferInstanceAs (Decidable ((0 : UInt8) ∉ h ∧ ∃ a ∈ l.head?, a ≠ 0))

theorem length_cString_le {l : Bytes} (h : (0 : UInt8) ∈ l) (m : Bytes) :
    (cString (l ++ m)).length ≤ l.length := by
  induction l with
  | nil => cases h
  | cons b l ih =>
    by_cases hb : b = 0
    · simp [cString, hb]
    · have hl := ih ((List.mem_cons.mp h).resolve_left (Ne.symm hb))
      simpa [cString, hb] using hl

theorem lt_cString_iff : h.length < (cString (h ++ l)).length ↔ Cut h l := by
  by_cases h0 : (0 : UInt8) ∈ h
  · exact iff_of_false (not_lt.mpr (length_cString_le h0 l)) fun hc => hc.1 h0
  · rw [cString_append h0, List.length_append, Cut]
    cases l with
    | nil => simp [cString]
    | cons a l => by_cases ha : a = 0 <;> simp [cString, h0, ha]

theorem not_cut_nil : ¬ Cut h [] := by simp [Cut]

theorem cut_append_replicate (n : ℕ) : Cut h (l ++ List.replicate n 0) ↔ Cut h l := by
  refine and_congr_right fun _ => ?_
  cases l with
  | nil => cases n <;> simp [List.replicate_succ]
  | cons a l => simp

theorem Cut.exists_cons (hc : Cut h l) : ∃ a m, l = a :: m := by
  obtain ⟨a, ha, -⟩ := hc.2
  obtain ⟨m, rfl⟩ := List.head?_eq_some_iff.mp ha
  exact ⟨a, m, rfl⟩

/-- What the end of `get_header` does to the bytes that were read. -/
theorem finishHeader_cases (hr : Received g r (h ++ l)) (hl : l.length ≤ readBufLength)
    (hb : (h ++ l).length < sizeBound) (hi : i + httpHeaderEof.length = h.length) :
    (Cut h l ∧ finishHeader r i = done { r with mHeader := h, isHasSomeBody := true }) ∨
    (¬ Cut h l ∧ finishHeader r i = done r) := by
  have hpad := lt_paddedLength (h ++ l).length
  have hstr : h.length < (cString r.mHeader).length ↔ Cut h l := by
    rw [hr.header, List.append_assoc, lt_cString_iff, cut_append_replicate]
  by_cases hc : Cut h l
  · obtain ⟨a, m, rfl⟩ := hc.exists_cons
    have hsub : sizeSub r.readLength h.length = (a :: m).length := by
      rw [hr.readLength, sizeSub_eq (by simp) hb, List.length_append, Nat.add_sub_cancel_left]
    have hguard : h.length + (a :: m).length ≤ r.mHeader.length ∧
        (a :: m).length ≤ r.mBoday.length := by
      rw [hr.size, hr.boday, ← List.length_append, List.length_map, List.length_range]
      exact ⟨hpad.le, hl⟩
    have htake (x : Bytes) : (writeAt r.mHeader h.length x).take h.length = h := by
      rw [take_writeAt (by rw [hr.header]; simp), hr.header, List.append_assoc, List.take_left]
    have hmore : h.length < r.readLength := by
      rw [hr.readLength]
      simp
    refine .inl ⟨hc, ?_⟩
    simp only [finishHeader, hi, if_pos (hstr.mpr hc), hsub, guard_true hguard, done_bind, pure_eq,
      htake, hmore, decide_true]
  · have hsize : ¬ r.mHeader.length < r.readLength := by
      rw [hr.size, hr.readLength]
      omega
    have hbody := hr.noBody
    refine .inr ⟨hc, ?_⟩
    simp only [finishHeader, hi, if_neg (mt hstr.mp hc), pure_eq, done_bind, hsize, decide_false,
      ← hbody]

/-- The read that completes the header `h` brings the bytes `l` as well, and the
chunks `cs` are left. -/
structure Arrival (chunks : List Bytes) (h l : Bytes) (cs : List Bytes) : Prop where
  ends : search httpHeaderEof h = some (h.length - httpHeaderEof.length)
  split : ∃ cs₀ c, chunks = cs₀ ++ c :: cs ∧ cs₀.flatten ++ c = h ++ l ∧
    cs₀.flatten.length < h.length

theorem Arrival.length_eq (ha : Arrival chunks h l cs) :
    h.length - httpHeaderEof.length + httpHeaderEof.length = h.length := by
  have := search_le ha.ends
  omega

theorem Arrival.flatten (ha : Arrival chunks h l cs) : chunks.flatten = h ++ (l ++ cs.flatten) := by
  obtain ⟨cs₀, c, rfl, hc, -⟩ := ha.split
  rw [List.flatten_append, List.flatten_cons, ← List.append_assoc, hc, List.append_assoc]

theorem exists_chunk {e : ℕ} (he : 0 < e) (hle : e ≤ chunks.flatten.length) :
    ∃ cs₀ c cs, chunks = cs₀ ++ c :: cs ∧ cs₀.flatten.length < e ∧
      e ≤ cs₀.flatten.length + c.length := by
  induction chunks generalizing e with
  | nil => simp at hle; omega
  | cons c cs ih =>
    rw [List.flatten_cons, List.length_append] at hle
    by_cases hc : e ≤ c.length
    · exact ⟨[], c, cs, rfl, he, by simpa using hc⟩
    · obtain ⟨cs₀, d, ds, hsplit, hlt, hge⟩ := ih (e := e - c.length) (by omega) (by omega)
      refine ⟨c :: cs₀, d, ds, by rw [hsplit, List.cons_append], ?_, ?_⟩
      · rw [List.flatten_cons, List.length_append]
        omega
      · rw [List.flatten_cons, List.length_append]
        omega

theorem exists_arrival (hs : search httpHeaderEof chunks.flatten = some i) :
    ∃ l cs, Arrival chunks (chunks.flatten.take (i + httpHeaderEof.length)) l cs := by
  have hle := search_le hs
  have hlen : (chunks.flatten.take (i + httpHeaderEof.length)).length =
      i + httpHeaderEof.length := by
    rw [List.length_take]
    omega
  have hpos : 0 < i + httpHeaderEof.length := Nat.add_pos_right i (by decide)
  obtain ⟨cs₀, c, cs, hsplit, hlt, hge⟩ := exists_chunk hpos hle
  have hpre : (cs₀.flatten ++ c).take (i + httpHeaderEof.length) =
      chunks.flatten.take (i + httpHeaderEof.length) := by
    rw [hsplit, List.flatten_append, List.flatten_cons, ← List.append_assoc]
    exact (List.take_append_of_le_length (by rwa [List.length_append])).symm
  refine ⟨(cs₀.flatten ++ c).drop (i + httpHeaderEof.length), cs, ?_, cs₀, c, hsplit, ?_, ?_⟩
  · rw [hlen, search_take hs, Nat.add_sub_cancel]
  · rw [← hpre, List.take_append_drop]
  · rwa [hlen]

theorem search_before (ha : search httpHeaderEof h = some (h.length - httpHeaderEof.length))
    {bs c : Bytes} (hc : bs ++ c = h ++ l) (hlt : bs.length < h.length) :
    search httpHeaderEof bs = none := by
  cases hs : search httpHeaderEof bs with
  | none => rfl
  | some j =>
    have hle := search_le hs
    have hj := search_append hs c
    rw [hc, search_append ha l] at hj
    obtain rfl := Option.some.inj hj
    omega

/-- What `get_header` makes of a stream in which a header ends. -/
theorem Arrival.getHeader (ha : Arrival s.chunks h l cs)
    (hb : h.length + readBufLength ≤ sizeBound) (g : ℕ → UInt8) :
    ∃ r, Received g r (h ++ l) ∧ r.stream.chunks = cs ∧
      ((Cut h l ∧ Returns (fun k => getHeader k (.new s g))
        { r with mHeader := h, isHasSomeBody := true }) ∨
      (¬ Cut h l ∧ Returns (fun k => getHeader k (.new s g)) r)) := by
  obtain ⟨cs₀, c, hsplit, hc, hlt⟩ := ha.split
  have hsize : c.length ≤ readBufLength := s.sizes c (by simp [hsplit])
  have hlen := congrArg List.length hc
  rw [List.length_append, List.length_append] at hlen
  obtain ⟨r₀, hreach, hr₀, hc₀, -⟩ := header_reads cs₀ (.new s g) [] (new_received s g) hsplit
    (search_before ha.ends (c := c) (by simpa using hc) (by simpa using hlt))
    (by rw [List.nil_append]; omega)
  rw [List.nil_append] at hr₀
  obtain ⟨r, hr, hcs, -, hturn⟩ := headerTurn_chunk hr₀ hc₀ (by omega)
  rw [hc] at hr hturn
  rw [search_append ha.ends l] at hturn
  have hloop : Returns (fun k => loop headerTurn k (.new s g))
      (r, h.length - httpHeaderEof.length) := loop_returns_iff.mpr ⟨r₀, hreach, hturn⟩
  have hrest {r' : Response} (hf : finishHeader r (h.length - httpHeaderEof.length) = done r') :
      Returns (fun k => Http.getHeader k (.new s g)) r' :=
    Returns.bind (a := (r, _)) (loop_progressive _ _) (progressive_const _) hloop ⟨0, hf⟩
  refine ⟨r, hr, hcs, ?_⟩
  rcases finishHeader_cases hr (by omega) (by rw [List.length_append]; omega) ha.length_eq with
    ⟨hcut, hf⟩ | ⟨hcut, hf⟩
  · exact .inl ⟨hcut, hrest hf⟩
  · exact .inr ⟨hcut, hrest hf⟩

/-- `get_header` ends on every stream in which a header ends, whatever the reads, and
leaves the header and nothing else exactly when the read that completes it makes it
cut its buffer. -/
theorem header_exact_iff (hs : search httpHeaderEof s.chunks.flatten = some i)
    (hb : i + httpHeaderEof.length + readBufLength ≤ sizeBound) (g : ℕ → UInt8) :
    ∃ r, Returns (fun k => getHeader k (.new s g)) r ∧
      (∃ l cs, Arrival s.chunks (s.chunks.flatten.take (i + httpHeaderEof.length)) l cs) ∧
      ∀ l cs, Arrival s.chunks (s.chunks.flatten.take (i + httpHeaderEof.length)) l cs →
        (r.mHeader = s.chunks.flatten.take (i + httpHeaderEof.length) ↔
          Cut (s.chunks.flatten.take (i + httpHeaderEof.length)) l) := by
  obtain ⟨l₀, cs₀, ha₀⟩ := exists_arrival hs
  have hlen : (s.chunks.flatten.take (i + httpHeaderEof.length)).length + readBufLength ≤
      sizeBound := by
    have := search_le hs
    rw [List.length_take]
    omega
  obtain ⟨r₀, -, -, hcases₀⟩ := ha₀.getHeader hlen g
  obtain ⟨r, hret⟩ : ∃ r, Returns (fun k => getHeader k (.new s g)) r :=
    hcases₀.elim (fun h => ⟨_, h.2⟩) fun h => ⟨_, h.2⟩
  refine ⟨r, hret, ⟨l₀, cs₀, ha₀⟩, fun l cs ha => ?_⟩
  obtain ⟨r₁, hr, -, hcases⟩ := ha.getHeader hlen g
  rcases hcases with ⟨hcut, hret'⟩ | ⟨hcut, hret'⟩
  · obtain rfl := hret.unique (getHeader_progressive _) hret'
    exact iff_of_true rfl hcut
  · obtain rfl := hret.unique (getHeader_progressive _) hret'
    refine iff_of_false (fun he => ?_) hcut
    -- the buffer has kept its padding
    have hpad := lt_paddedLength (s.chunks.flatten.take (i + httpHeaderEof.length) ++ l).length
    rw [← hr.size, he, List.length_append] at hpad
    omega

def emptyAnswer : Bytes := ascii "HTTP/1.0 200 OK\r\n\r\n"

theorem emptyAnswer_arrival (l : Bytes) (cs : List Bytes) :
    Arrival ((emptyAnswer ++ l) :: cs) emptyAnswer l cs :=
  ⟨by decide, [], emptyAnswer ++ l, rfl, rfl, by decide⟩

theorem header_exact_withBody :
    ∃ r, Returns (fun k => getHeader k (.new ⟨[emptyAnswer ++ [120]], by decide, false⟩
      fun _ => 0)) r ∧ r.mHeader = emptyAnswer := by
  obtain ⟨r, hret, -, hiff⟩ := header_exact_iff
    (s := ⟨[emptyAnswer ++ [120]], by decide, false⟩) (i := 15) (by decide) (by decide) fun _ => 0
  exact ⟨r, hret, (hiff [120] [] (emptyAnswer_arrival _ _)).mpr ⟨by decide, 120, rfl, by decide⟩⟩

/-- A header that comes in a read of its own keeps the zeros behind it. -/
theorem header_keeps_padding :
    ∃ r, Returns (fun k => getHeader k (.new ⟨[emptyAnswer, [120]], by decide, false⟩
      fun _ => 0)) r ∧ r.mHeader ≠ emptyAnswer := by
  have ha : Arrival [emptyAnswer, [120]] emptyAnswer [] [[120]] := emptyAnswer_arrival [] [[120]]
  obtain ⟨r, hr, -, ⟨hcut, -⟩ | ⟨-, hret⟩⟩ := Arrival.getHeader
    (s := ⟨[emptyAnswer, [120]], by decide, false⟩) ha (by decide) fun _ => 0
  · exact absurd hcut not_cut_nil
  · refine ⟨r, hret, fun he => ?_⟩
    have hsize := hr.size
    rw [he] at hsize
    exact absurd hsize (by decide)

theorem headerTurn_failing (hc : r.stream.chunks = []) (hf : r.stream.failing = true) :
    headerTurn r = fault (.copyOutside (sizeBound - 1)) := by
  simp only [headerTurn, read_nil hc, hf, if_true]

theorem headerTurn_closed {bs : Bytes} (hr : Received g r bs) (hc : r.stream.chunks = [])
    (hf : r.stream.failing = false) (hs : search httpHeaderEof bs = none)
    (hb : bs.length < sizeBound) : headerTurn r = done (again r) := by
  have hpad : ¬ r.mHeader.length ≤ r.readLength := by
    rw [hr.size, hr.readLength, not_le]
    exact lt_paddedLength _
  have hadd : sizeAdd r.readLength (List.length ([] : Bytes)) = r.readLength := by
    rw [hr.readLength]
    exact sizeAdd_eq (by simpa using hb)
  have hguard : r.readLength + List.length ([] : Bytes) ≤ r.mHeader.length := (not_le.mp hpad).le
  have hstore : writeAt r.mHeader r.readLength [] = r.mHeader := by simp [writeAt]
  have hfind : find r.mHeader httpHeaderEof 0 = none := by
    rw [find_zero, hr.header, search_eof_padded, hs]
  simp only [headerTurn, read_nil hc, hf, Bool.false_eq_true, if_false, hadd, if_neg hpad,
    guard_true hguard, done_bind, hstore, hfind, pure_eq]

/-- `get_header` reads for ever when the stream ends before the header does, and copies
from outside its buffer when the last read fails. -/
theorem header_unfinished (hs : search httpHeaderEof s.chunks.flatten = none)
    (hb : s.chunks.flatten.length < sizeBound) (g : ℕ → UInt8) :
    (s.failing = false → Diverges fun k => getHeader k (.new s g)) ∧
    (s.failing = true →
      Faults (fun k => getHeader k (.new s g)) (.copyOutside (sizeBound - 1))) := by
  obtain ⟨r, hreach, hr, hc, hf⟩ := header_reads s.chunks (.new s g) []
    (new_received s g) (List.append_nil _).symm (by simpa using hs) (by simpa using hb)
  rw [List.nil_append] at hr
  constructor
  · intro hclosed
    have hturn := headerTurn_closed hr hc (hf.trans hclosed) hs hb
    exact (hreach.diverges (.single hturn)).bind
  · intro hfailing
    have hturn := headerTurn_failing hc (hf.trans hfailing)
    exact (loop_faults_iff.mpr ⟨r, hreach, hturn⟩).bind

theorem getHeaderResult_code {code : ℤ}
    (h : Returns (fun k => getHeaderResult k r) (r', code)) : code = 0 := by
  obtain ⟨_, -, _, hc⟩ := h.of_bind
  exact (Prod.mk.inj (done.inj hc)).2.symm

/-- `get_header` comes back with an error, and the last read has added nothing. -/
def FailsCleanly (s : Stream) (g : ℕ → UInt8) : Prop :=
  ∃ r code, Returns (fun k => getHeaderResult k (.new s g)) (r, code) ∧ code ≠ 0 ∧
    r.readLength = s.chunks.flatten.length ∧
    r.mHeader.take s.chunks.flatten.length = s.chunks.flatten

theorem not_failsCleanly (s : Stream) (g : ℕ → UInt8) : ¬ FailsCleanly s g := by
  rintro ⟨r, code, hret, hcode, -⟩
  exact hcode (getHeaderResult_code hret)

/-- When no header ends in the stream, `get_header` never comes back with an error: it
does not come back at all. -/
theorem header_never_fails_cleanly (hs : search httpHeaderEof s.chunks.flatten = none)
    (g : ℕ → UInt8) :
    ¬ FailsCleanly s g ∧ (s.chunks.flatten.length < sizeBound →
      (s.failing = false → Diverges fun k => getHeaderResult k (.new s g)) ∧
      (s.failing = true →
        Faults (fun k => getHeaderResult k (.new s g)) (.copyOutside (sizeBound - 1)))) := by
  refine ⟨not_failsCleanly s g, fun hb => ?_⟩
  obtain ⟨hclosed, hfailing⟩ := header_unfinished hs hb g
  exact ⟨fun hf => (hclosed hf).bind, fun hf => (hfailing hf).bind⟩

def statusOnly (failing : Bool) : Stream := ⟨[ascii "HTTP/1.0 200 OK\r\n"], by decide, failing⟩

theorem header_never_fails_cleanly_statusOnly :
    (Diverges fun k => getHeaderResult k (.new (statusOnly false) fun _ => 0)) ∧
    Faults (fun k => getHeaderResult k (.new (statusOnly true) fun _ => 0))
      (.copyOutside (sizeBound - 1)) :=
  ⟨((header_never_fails_cleanly (s := statusOnly false) (by decide) fun _ => 0).2
      (by decide)).1 rfl,
    ((header_never_fails_cleanly (s := statusOnly true) (by decide) fun _ => 0).2
      (by decide)).2 rfl⟩

theorem statusOnly_not_failsCleanly : (¬ FailsCleanly (statusOnly false) fun _ => 0) ∧
    ¬ FailsCleanly (statusOnly true) fun _ => 0 :=
  ⟨not_failsCleanly _ _, not_failsCleanly _ _⟩

end QyUtil.Http
