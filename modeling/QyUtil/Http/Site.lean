import QyUtil.Http.Body
import QyUtil.Http.ContentLength
import QyUtil.Http.Isolation

/-! # A page from a site

The other end of a request: a server that has a page for each target, reads requests of
HTTP/1.0 up to their blank line, and sends a header with the length of the page in front of
it. What a call prints is the page for the root, whatever path and parameters its URL has,
when the page does not come with the header.
-/

namespace QyUtil.Http

open Loops Outcome Bytes Search Lines

def lengthLine (n : ℕ) : Bytes := ascii "Content-Length: " ++ decimal n

/-- A page, with the other lines of its header. -/
structure Page where
  status : Bytes
  before : List Bytes
  after : List Bytes
  body : Bytes
  line_ne : ∀ l ∈ status :: (before ++ after), l ≠ []
  no_nul : ∀ l ∈ status :: (before ++ after), 0 ∉ l
  no_break : ∀ l ∈ status :: (before ++ after), search httpHeaderBreak l = none
  no_key : ∀ l ∈ status :: (before ++ after), search httpKetContentLength l = none

namespace Page

def lines (p : Page) : List Bytes :=
  p.status :: (p.before ++ lengthLine p.body.length :: p.after)

def header (p : Page) : Bytes := joinLines (p.lines ++ [[]])

end Page

/-- The target of a GET request. -/
def askedTarget (bytes : Bytes) : Option Bytes :=
  (search httpHeaderEof bytes).bind fun i =>
    match ((bytes.take i).takeWhile (· ≠ 13)).splitOn 32 with
    | [method, target, version] =>
      if method = ascii "GET" ∧ version = ascii "HTTP/1.0" then some target else none
    | _ => none

/-- What a server with these pages answers to what it has received. -/
def respond (site : Bytes → Page) (bytes : Bytes) : Option Page := (askedTarget bytes).map site

variable {l m : Bytes} {ls : List Bytes} {p : Page}

theorem search_break (hl : search httpHeaderBreak l = none) (m : Bytes) :
    search httpHeaderBreak (l ++ (httpHeaderBreak ++ m)) = some l.length :=
  search_append_pattern (by decide) hl m

theorem not_break_prefix (hne : l ≠ []) (hl : search httpHeaderBreak l = none) (m : Bytes) :
    ¬ httpHeaderBreak <+: l ++ (httpHeaderBreak ++ m) := by
  have hfirst := (search_eq_some.mp (search_break hl m)).2.2 0 (List.length_pos_iff.mpr hne)
  rwa [List.drop_zero] at hfirst

theorem search_eof_line (hl : search httpHeaderBreak l = none) (hm : ¬ httpHeaderBreak <+: m) :
    search httpHeaderEof (l ++ (httpHeaderBreak ++ m)) =
      (search httpHeaderEof m).map (· + (l ++ httpHeaderBreak).length) := by
  have heof : httpHeaderEof = httpHeaderBreak ++ httpHeaderBreak := rfl
  rw [← List.append_assoc]
  refine search_append_of_none fun j hj hp => ?_
  rw [List.length_append] at hj
  rw [List.append_assoc, heof] at hp
  have hfirst : l.length ≤ j := by
    by_contra hlt
    exact (search_eq_some.mp (search_break hl m)).2.2 j (not_le.mp hlt)
      ((List.prefix_append _ _).trans hp)
  obtain rfl | rfl : j = l.length ∨ j = l.length + 1 := by
    have hlen : httpHeaderBreak.length = 2 := rfl
    omega
  · rw [List.drop_left] at hp
    exact hm ((List.prefix_append_right_inj _).mp hp)
  · rw [← List.drop_drop, List.drop_left] at hp
    exact absurd (List.cons_prefix_cons.mp hp).1 (by decide)

theorem joinLines_cons (l : Bytes) (ls : List Bytes) :
    joinLines (l :: ls) = l ++ (httpHeaderBreak ++ joinLines ls) := by
  simp [joinLines]

theorem search_eof_lines (hne : ∀ l ∈ ls, l ≠ [])
    (hl : ∀ l ∈ ls, search httpHeaderBreak l = none) (hls : ls ≠ []) :
    search httpHeaderEof (joinLines (ls ++ [[]])) =
      some ((joinLines (ls ++ [[]])).length - httpHeaderEof.length) := by
  induction ls with
  | nil => exact absurd rfl hls
  | cons l ls ih =>
    obtain ⟨hne₀, hnes⟩ := List.forall_mem_cons.mp hne
    obtain ⟨hl₀, hls₀⟩ := List.forall_mem_cons.mp hl
    have heof : httpHeaderEof.length = 4 := rfl
    have hbreak : httpHeaderBreak.length = 2 := rfl
    cases ls with
    | nil =>
      have htext : joinLines ([l] ++ [[]]) = l ++ (httpHeaderBreak ++ httpHeaderBreak) := by
        simp [joinLines]
      have hend : l.length = (l ++ (httpHeaderBreak ++ httpHeaderBreak)).length - 4 := by
        simp only [List.length_append, hbreak]
        omega
      rw [htext, heof, ← hend]
      refine search_eq_some.mpr ⟨by simp, ?_, fun j hj hp => ?_⟩
      · rw [List.drop_left]
        exact List.prefix_refl _
      · apply (search_eq_some.mp (search_break hl₀ httpHeaderBreak)).2.2 j hj
        exact .trans (List.prefix_append httpHeaderBreak httpHeaderBreak) hp
    | cons l' ls =>
      have hnext : ¬ httpHeaderBreak <+: joinLines (l' :: ls ++ [[]]) := by
        rw [List.cons_append, joinLines_cons]
        exact not_break_prefix (hnes l' List.mem_cons_self) (hls₀ l' List.mem_cons_self) _
      have hrest := ih hnes hls₀ (List.cons_ne_nil _ _)
      have hle := search_le hrest
      rw [List.cons_append, joinLines_cons, search_eof_line hl₀ hnext, hrest, Option.map_some]
      simp only [List.length_append]
      congr 1
      omega

theorem Page.forall_lines {P : Bytes → Prop} (hp : ∀ l ∈ p.status :: (p.before ++ p.after), P l)
    (hlength : P (lengthLine p.body.length)) : ∀ l ∈ p.lines, P l := by
  intro l hl
  rcases List.mem_cons.mp hl with rfl | hl
  · exact hp _ List.mem_cons_self
  · rcases List.mem_append.mp hl with hl | hl
    · exact hp l (List.mem_cons_of_mem _ (List.mem_append_left _ hl))
    · rcases List.mem_cons.mp hl with rfl | hl
      · exact hlength
      · exact hp l (List.mem_cons_of_mem _ (List.mem_append_right _ hl))

theorem notMem_lengthLine {b : UInt8} (hb : isDigit b = false)
    (hname : b ∉ ascii "Content-Length: ") (n : ℕ) : b ∉ lengthLine n := by
  intro h
  rcases List.mem_append.mp h with h | h
  · exact hname h
  · rw [isDigit_of_mem_decimal h] at hb
    cases hb

theorem Page.header_eq (p : Page) : p.header = joinLines (p.status :: p.before) ++
    (ascii "Content-Length: " ++ decimal p.body.length ++ httpHeaderBreak ++
      joinLines (p.after ++ [[]])) := by
  simp [Page.header, Page.lines, joinLines, lengthLine]

theorem Page.search_key (p : Page) :
    search httpKetContentLength p.header = some (joinLines (p.status :: p.before)).length := by
  have hbefore : ∀ l ∈ p.status :: p.before, search httpKetContentLength l = none := by
    intro l hl
    apply p.no_key l
    rcases List.mem_cons.mp hl with rfl | hl
    · exact List.mem_cons_self
    · exact List.mem_cons_of_mem _ (List.mem_append_left _ hl)
  have hkey : search httpKetContentLength (ascii "Content-Length: ") = some 0 := by
    decide +kernel
  have hfound := search_joined_line (by decide) key_break hbefore hkey (decimal p.body.length ++
    httpHeaderBreak ++ joinLines (p.after ++ [[]]))
  rw [Nat.zero_add] at hfound
  rw [p.header_eq, List.append_assoc, List.append_assoc, ← List.append_assoc (decimal _)]
  exact hfound

theorem Page.search_key_behind (p : Page) : search httpKetContentLength
    (p.header.drop ((joinLines (p.status :: p.before)).length + 1)) = none := by
  have hlines : ∀ l ∈ (lengthLine p.body.length).tail :: (p.after ++ [[]]),
      search httpKetContentLength l = none := by
    intro l hl
    rcases List.mem_cons.mp hl with rfl | hl
    · have hletter : (67 : UInt8) ∉ ascii "ontent-Length: " ++ decimal p.body.length := by
        intro h
        rcases List.mem_append.mp h with h | h
        · exact absurd h (by decide +kernel)
        · exact absurd (isDigit_of_mem_decimal h) (by decide)
      have hnone := search_append_of_notMem hletter (ascii "ontent-Length") []
      rw [List.append_nil] at hnone
      exact hnone
    · rcases List.mem_append.mp hl with hl | hl
      · exact p.no_key l (List.mem_cons_of_mem _ (List.mem_append_right _ hl))
      · rw [List.mem_singleton.mp hl]
        decide
  have hdrop : p.header.drop ((joinLines (p.status :: p.before)).length + 1) =
      joined httpHeaderBreak ((lengthLine p.body.length).tail :: (p.after ++ [[]])) := by
    rw [← List.drop_drop, p.header_eq, List.drop_left, joined_cons, List.append_assoc]
    rfl
  have hnone := search_joined (by decide) key_break hlines []
  rw [List.append_nil] at hnone
  rw [hdrop, hnone]
  rfl

theorem Page.headerBlock (p : Page) : HeaderBlock p.header p.body.length where
  ends := by
    apply search_eof_lines
    · exact p.forall_lines p.line_ne (by simp [lengthLine, decimal_ne_nil])
    · refine p.forall_lines p.no_break ?_
      have hnone := search_append_of_notMem (notMem_lengthLine (b := 13) (by decide) (by decide)
        p.body.length) [10] []
      rw [List.append_nil] at hnone
      exact hnone
    · exact List.cons_ne_nil _ _
  no_nul := by
    have hlines := p.forall_lines p.no_nul (notMem_lengthLine (by decide) (by decide) _)
    intro h
    obtain ⟨l, hl, hmem⟩ := List.mem_flatMap.mp h
    rcases List.mem_append.mp hmem with hmem | hmem
    · rcases List.mem_append.mp hl with hl | hl
      · exact hlines l hl hmem
      · rw [List.mem_singleton.mp hl] at hmem
        cases hmem
    · exact absurd hmem (by decide)
  field := by
    refine ⟨joinLines (p.status :: p.before), joinLines (p.after ++ [[]]), p.header_eq, ?_⟩
    intro j hj
    obtain ⟨hle, -, hfirst⟩ := search_eq_some.mp p.search_key
    rcases Nat.lt_trichotomy j (joinLines (p.status :: p.before)).length with hlt | heq | hgt
    · exact absurd hj (hfirst j hlt)
    · exact heq
    · exfalso
      obtain ⟨i, rfl⟩ := Nat.exists_eq_add_of_lt hgt
      have hlen := hj.length_le
      have hkey : httpKetContentLength.length = 14 := by decide +kernel
      rw [List.length_drop] at hlen
      refine search_eq_none.mp p.search_key_behind i (by rw [List.length_drop]; omega) ?_
      rwa [List.drop_drop, Nat.add_right_comm]

def requestText : Bytes := (buildReqHeader [] 0 []).2

theorem text_eq (c : Call) : c.text = requestText := rfl

theorem askedTarget_request (rest : Bytes) : askedTarget (requestText ++ rest) = some [47] := by
  have hsome : (search httpHeaderEof requestText).isSome := by decide +kernel
  have hroot : askedTarget requestText = some [47] := by decide +kernel
  obtain ⟨i, hi⟩ := Option.isSome_iff_exists.mp hsome
  have hle : i ≤ requestText.length := (Nat.le_add_right _ _).trans (search_le hi)
  rw [← hroot, askedTarget, askedTarget, search_append hi, hi, Option.bind_some, Option.bind_some,
    List.take_append_of_le_length hle]

/-- A call is answered by a server with these pages: it connects, its request arrives, and
what the server answers comes back, the page behind the header. -/
structure Served (site : Bytes → Page) (calls : List Call) (st : Request) (c : Call) : Prop where
  accepted : c.Accepted
  connected : ∃ i < (staleIps calls ++ c.dns.addresses).length, c.opens i = true
  arrived : c.text.length ≤ (c.taken (st.header ++ c.text)).length
  answered : ∃ page, respond site (c.taken (st.header ++ c.text)) = some page ∧
    c.stream.chunks.flatten = page.header ++ page.body ∧
    ArrivesApart page.header c.stream.chunks ∧
    page.header.length + page.body.length + readBufLength ≤ sizeBound
  chunk_ne : ∀ ch ∈ c.stream.chunks, ch ≠ []

variable {site : Bytes → Page} {calls : List Call} {st : Request} {c : Call}

theorem Run.asked (h : Run calls st)
    (harrived : c.text.length ≤ (c.taken (st.header ++ c.text)).length) :
    respond site (c.taken (st.header ++ c.text)) = some (site [47]) := by
  obtain ⟨rest, hrest⟩ := staleHeader_append calls c
  rw [h.state.2.1, hrest] at harrived ⊢
  unfold Call.taken at harrived ⊢
  split_ifs at harrived ⊢ with hle
  · rw [List.length_take] at harrived
    rw [List.take_append, List.take_of_length_le (le_min_iff.mp harrived).1, text_eq, respond,
      askedTarget_request, Option.map_some]
  · exact absurd (List.length_eq_zero_iff.mp (Nat.le_zero.mp harrived)) (text_ne_nil c)

theorem Served.request (h : Run calls st) (hs : Served site calls st c) :
    ∃ st' events, st.request c = (st', events, none, true) ∧
      .sent (c.taken (st.header ++ c.text)) ∈ events := by
  have hconnected : (tryOpen c.opens 0 (st.ips ++ c.dns.addresses)).2 = true := by
    obtain ⟨i, hi, hopens⟩ := hs.connected
    rw [h.state.1]
    exact tryOpen_connected.mpr ⟨i, hi, by rwa [Nat.zero_add]⟩
  have hwritten : c.written ≠ 0 := by
    intro hzero
    have harrived := hs.arrived
    rw [Call.taken, hzero, if_pos (Nat.zero_le _), List.take_zero] at harrived
    exact text_ne_nil c (List.length_eq_zero_iff.mp (Nat.le_zero.mp harrived))
  simp only [Request.request, parseUrl_of_accepted hs.accepted, Request.sendRequest,
    Request.getIpByDomain, setPort_ips, setPort_header, hconnected, if_true, if_neg hwritten,
    decide_eq_true hwritten]
  exact ⟨_, _, rfl, by simp⟩

end QyUtil.Http
