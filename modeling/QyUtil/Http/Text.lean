import QyUtil.Bytes.Basic
import QyUtil.Bytes.Search
import QyUtil.Loops.Basic

/-! # Response headers as text

The models of `split_string`, of the stripping functions, of `parse_http_line` and
of the header parser that uses them. Positions are `size_t` values, and `none`
is `string::npos`. A `substr` from behind the end of its string is a fault.
-/

namespace QyUtil.Http

open Loops Outcome Turn Bytes Search

inductive Fault where
  /-- `std::out_of_range`, thrown by `substr` -/
  | outOfRange (pos : ℕ)
  /-- `response_exception("data format error")` -/
  | dataFormat
  | copyOutside (n : ℕ)
  | readOutside (n : ℕ)
  deriving DecidableEq, Repr

def httpHeaderBreak : Bytes := [13, 10]

def httpHeaderEof : Bytes := [13, 10, 13, 10]

def httpKetContentLength : Bytes := ascii "Content-Length"

def substr (s : Bytes) (pos : ℕ) (n : Option ℕ) : Outcome Fault Bytes := do
  guard (.outOfRange pos) (pos ≤ s.length)
  match n with
  | some n => pure ((s.drop pos).take n)
  | none => pure (s.drop pos)

def rfind (s : Bytes) (c : UInt8) (pos : Option ℕ) : Option ℕ :=
  let bound := match pos with
    | some p => min s.length (p + 1)
    | none => s.length
  (List.range bound).reverse.find? fun i => s.getD i 0 = c

structure Split where
  prePos : ℕ
  result : List Bytes

def splitTurn (str target : Bytes) (s : Split) : Outcome Fault (Turn Split (List Bytes)) :=
  if str.length ≤ s.prePos then
    pure (.exit s.result)
  else
    match find str target s.prePos with
    | some curPos => do
      let piece ← substr str s.prePos (some (curPos - s.prePos))
      pure (.again ⟨curPos + target.length, s.result ++ [piece]⟩)
    | none =>
      if s.prePos = 0 then
        pure (.exit s.result)
      else do
        let piece ← substr str s.prePos none
        pure (.exit (s.result ++ [piece]))

def splitString (fuel : ℕ) (str target : Bytes) : Outcome Fault (List Bytes) :=
  if str = [] then pure [] else loop (splitTurn str target) fuel ⟨0, []⟩

def lstripTurn (str : Bytes) (pos : ℕ) : Outcome Fault (Turn ℕ ℕ) :=
  match find str [32] pos with
  | some _ => pure (.again (pos + 1))
  | none => pure (.exit pos)

def lstrip (fuel : ℕ) (str : Bytes) : Outcome Fault Bytes := do
  let pos ← loop (lstripTurn str) fuel 0
  substr str pos none

/-- `--pos` wraps to `npos` at 0. -/
def rstripTurn (str : Bytes) (pos : Option ℕ) : Outcome Fault (Turn (Option ℕ) Unit) :=
  match rfind str 32 pos with
  | some 0 => pure (.again none)
  | some (i + 1) => pure (.again (some i))
  | none => pure (.exit ())

/-- The loop is left with `pos` at `npos`. -/
def rstrip (fuel : ℕ) (str : Bytes) : Outcome Fault Bytes := do
  loop (rstripTurn str) fuel none
  substr str 0 none

def strip (fuel : ℕ) (str : Bytes) : Outcome Fault Bytes := do
  let result ← lstrip fuel str
  rstrip fuel result

def parseHttpLine (fuel : ℕ) (line : Bytes) : Outcome Fault (Bytes × Bytes) :=
  if line = [] then pure ([], [])
  else
    match find line [58] 0 with
    | none => pure ([], [])
    | some pos => do
      let key ← substr line 0 (some pos)
      let key ← strip fuel key
      guard .dataFormat (pos + 1 ≤ line.length)
      let value ← substr line (pos + 1) (some (line.length - pos))
      let value ← strip fuel value
      pure (key, value)

/-- `map::insert`, which keeps an entry that is already there. -/
def insertNew (m : List (Bytes × Bytes)) (p : Bytes × Bytes) : List (Bytes × Bytes) :=
  if m.any fun q => q.1 = p.1 then m else m ++ [p]

def parseLines (fuel : ℕ) : List Bytes → List (Bytes × Bytes) →
    Outcome Fault (List (Bytes × Bytes))
  | [], m => pure m
  | line :: lines, m =>
    if (find line [58] 0).isSome then do
      let pair ← parseHttpLine fuel line
      if pair.1 ≠ [] ∧ pair.2 ≠ [] then do
        let pair ← parseHttpLine fuel line
        parseLines fuel lines (insertNew m pair)
      else parseLines fuel lines m
    else parseLines fuel lines m

def parseFields (fuel : ℕ) (mHeader : Bytes) (m : List (Bytes × Bytes)) :
    Outcome Fault (List (Bytes × Bytes)) := do
  let headers ← splitString fuel mHeader httpHeaderBreak
  parseLines fuel headers m

def sizeBound : ℕ := 2 ^ 64

/-- `isspace` in the C locale. -/
def isSpace (c : UInt8) : Bool := c = 32 || (9 ≤ c && c ≤ 13)

/-- `ss >> n` for a `size_t`: white space, an optional sign, digits. -/
def extractSize (s : Bytes) (old : ℕ) : ℕ :=
  match s.dropWhile isSpace with
  | [] => old
  | c :: rest =>
    let digits := (if c = 43 ∨ c = 45 then rest else c :: rest).takeWhile isDigit
    if digits = [] then 0
    else if sizeBound ≤ digitsValue digits then sizeBound - 1
    else if c = 45 then (sizeBound - digitsValue digits) % sizeBound
    else digitsValue digits

/-- `get_content_length`, with the value of `m_content_length` before. -/
def getContentLength (mHeader : Bytes) (old : ℕ) : Outcome Fault ℕ :=
  match find mHeader httpKetContentLength 0 with
  | none => pure old
  | some pos => do
    let posS := pos + httpKetContentLength.length
    let posE := find mHeader httpHeaderBreak posS
    let strLength ← substr mHeader posS (posE.map (· - posS))
    match find strLength [58] 0 with
    | none => pure old
    | some pos => do
      let strLength ← substr strLength (pos + 1) none
      pure (extractSize strLength old)

variable {s str target line : Bytes} {pos : ℕ} {n : Option ℕ}

theorem substr_done (h : pos ≤ s.length) :
    substr s pos n = done (match n with
      | some n => (s.drop pos).take n
      | none => s.drop pos) := by
  unfold substr
  rw [guard_true h, done_bind]
  cases n <;> rfl

theorem splitString_returns (str target : Bytes) (ht : target ≠ []) :
    ∃ r, Returns (fun k => splitString k str target) r := by
  have hpos : 0 < target.length := List.length_pos_iff.mpr ht
  have hbody (s : Split) : (∃ s', Next (splitTurn str target) s s' ∧ True ∧
      str.length - s'.prePos < str.length - s.prePos) ∨
      ∃ r, splitTurn str target s = done (exit r) ∧ True := by
    by_cases hend : str.length ≤ s.prePos
    · exact .inr ⟨s.result, by rw [splitTurn, if_pos hend]; rfl, trivial⟩
    have hle : s.prePos ≤ str.length := by omega
    cases hf : find str target s.prePos with
    | some cur =>
      obtain ⟨h1, h2⟩ := find_bounds hf
      refine .inl ⟨⟨cur + target.length,
        s.result ++ [(str.drop s.prePos).take (cur - s.prePos)]⟩, ?_, trivial, ?_⟩
      · simp only [Next, splitTurn, if_neg hend, hf, substr_done hle, done_bind]
        rfl
      · simp only
        omega
    | none =>
      by_cases h0 : s.prePos = 0
      · exact .inr ⟨s.result, by simp only [splitTurn, if_neg hend, hf, if_pos h0]; rfl, trivial⟩
      · refine .inr ⟨s.result ++ [str.drop s.prePos], ?_, trivial⟩
        simp only [splitTurn, if_neg hend, hf, if_neg h0, substr_done hle, done_bind]
        rfl
  unfold splitString
  split_ifs
  · exact ⟨[], 0, rfl⟩
  · obtain ⟨r, hr, -⟩ := loop_returns_of_measure (I := fun _ => True) (Q := fun _ => True)
      (fun s => str.length - s.prePos) (fun s _ => hbody s) (s := ⟨0, []⟩) trivial
    exact ⟨r, hr⟩

theorem rtakeWhile_cons_of_mem {l : Bytes} (h : (32 : UInt8) ∈ l) (a : UInt8) :
    (a :: l).rtakeWhile (· ≠ 32) = l.rtakeWhile (· ≠ 32) := by
  have hlast : l.reverse.takeWhile (· ≠ 32) ≠ l.reverse := by
    intro he
    have hall := List.takeWhile_eq_self_iff.mp he 32 (List.mem_reverse.mpr h)
    exact absurd hall (by decide)
  have hlen : (l.reverse.takeWhile (· ≠ 32)).length ≠ l.reverse.length := fun he =>
    hlast ((List.takeWhile_prefix _).eq_of_length he)
  rw [List.rtakeWhile, List.reverse_cons, List.takeWhile_append, if_neg hlen, List.rtakeWhile]

theorem rtakeWhile_of_notMem {l : Bytes} (h : (32 : UInt8) ∉ l) :
    l.rtakeWhile (· ≠ 32) = l := List.rtakeWhile_eq_self_iff.mpr (decide_ne_of_notMem h)

theorem rtakeWhile_space_cons (l : Bytes) :
    ((32 : UInt8) :: l).rtakeWhile (· ≠ 32) = l.rtakeWhile (· ≠ 32) := by
  by_cases h : (32 : UInt8) ∈ l
  · exact rtakeWhile_cons_of_mem h 32
  · have hall : l.reverse.takeWhile (· ≠ 32) = l.reverse := by
      rw [← List.reverse_inj, List.reverse_reverse]
      exact rtakeWhile_of_notMem h
    rw [List.rtakeWhile, List.reverse_cons, List.takeWhile_append, hall, if_pos rfl,
      List.takeWhile_cons_of_neg (by decide), List.append_nil, rtakeWhile_of_notMem h,
      List.reverse_reverse]

/-- A turn of `lstrip` leaves one byte, which is a space or has one behind it. -/
theorem rtakeWhile_drop (h : find str [32] pos = some i) :
    (str.drop pos).rtakeWhile (· ≠ 32) = (str.drop (pos + 1)).rtakeWhile (· ≠ 32) := by
  obtain ⟨h1, h2⟩ := find_bounds h
  rw [List.length_singleton] at h2
  have hcons := List.drop_eq_getElem_cons (show pos < str.length by omega)
  have hmem : (32 : UInt8) ∈ str.drop pos := by
    by_contra hnot
    rw [find, if_pos (by omega), ← List.append_nil (str.drop pos),
      search_append_of_notMem hnot] at h
    cases h
  rw [hcons] at hmem ⊢
  rcases List.mem_cons.mp hmem with hpos | hs
  · rw [← hpos, rtakeWhile_space_cons]
  · exact rtakeWhile_cons_of_mem hs _

theorem lstrip_returns (str : Bytes) :
    Returns (fun k => lstrip k str) (str.rtakeWhile (· ≠ 32)) := by
  have hbody (pos : ℕ) (hpos : pos ≤ str.length ∧
        (str.drop pos).rtakeWhile (· ≠ 32) = str.rtakeWhile (· ≠ 32)) :
      (∃ pos', Next (lstripTurn str) pos pos' ∧ (pos' ≤ str.length ∧
        (str.drop pos').rtakeWhile (· ≠ 32) = str.rtakeWhile (· ≠ 32)) ∧
        str.length - pos' < str.length - pos) ∨
      ∃ r, lstripTurn str pos = done (exit r) ∧ r ≤ str.length ∧
        str.drop r = str.rtakeWhile (· ≠ 32) := by
    obtain ⟨hpos, hrest⟩ := hpos
    cases hf : find str [32] pos with
    | some i =>
      obtain ⟨h1, h2⟩ := find_bounds hf
      rw [List.length_singleton] at h2
      refine .inl ⟨pos + 1, by simp only [Next, lstripTurn, hf]; rfl, ⟨by omega, ?_⟩, by omega⟩
      rw [← rtakeWhile_drop hf, hrest]
    | none =>
      refine .inr ⟨pos, by simp only [lstripTurn, hf]; rfl, hpos, ?_⟩
      rw [← hrest, rtakeWhile_of_notMem (not_mem_of_find hpos hf)]
  obtain ⟨pos, hr, hpos, hdrop⟩ := loop_returns_of_measure
    (Q := fun r => r ≤ str.length ∧ str.drop r = str.rtakeWhile (· ≠ 32))
    (fun pos => str.length - pos) hbody (s := 0) ⟨Nat.zero_le _, by rw [List.drop_zero]⟩
  exact hr.bind (loop_progressive _ _) (progressive_const _)
    ⟨0, by rw [substr_done hpos, ← hdrop]⟩

theorem notMem_rtakeWhile (str : Bytes) : (32 : UInt8) ∉ str.rtakeWhile (· ≠ 32) := by
  intro h
  have := List.mem_takeWhile_imp (List.mem_reverse.mp h)
  exact absurd this (by decide)

theorem rfind_eq_none {c : UInt8} (h : c ∉ s) (pos : Option ℕ) : rfind s c pos = none := by
  unfold rfind
  refine List.find?_eq_none.mpr fun i hi => ?_
  have hlt : i < s.length := by
    have := List.mem_range.mp (List.mem_reverse.mp hi)
    cases pos <;> simp only at this <;> omega
  rw [List.getD_eq_getElem _ _ hlt, decide_eq_true_eq]
  rintro rfl
  exact h (List.getElem_mem hlt)

theorem rstrip_returns (h : (32 : UInt8) ∉ str) : Returns (fun k => rstrip k str) str := by
  have hturn : rstripTurn str none = done (exit ()) := by
    rw [rstripTurn, rfind_eq_none h]
    rfl
  exact (returns_of_exit hturn).bind (loop_progressive _ _) (progressive_const _)
    ⟨0, substr_done (Nat.zero_le _)⟩

theorem lstrip_progressive (str : Bytes) : Progressive fun k => lstrip k str :=
  Progressive.bind (loop_progressive _ _) fun _ => progressive_const _

theorem rstrip_progressive (str : Bytes) : Progressive fun k => rstrip k str :=
  Progressive.bind (loop_progressive _ _) fun _ => progressive_const _

theorem strip_progressive (str : Bytes) : Progressive fun k => strip k str :=
  Progressive.bind (lstrip_progressive str) rstrip_progressive

theorem strip_returns (str : Bytes) :
    Returns (fun k => strip k str) (str.rtakeWhile (· ≠ 32)) :=
  (lstrip_returns str).bind (lstrip_progressive str) (rstrip_progressive _)
    (rstrip_returns (notMem_rtakeWhile str))

theorem parseHttpLine_eq (hf : find line [58] 0 = some pos) (k : ℕ) :
    parseHttpLine k line = strip k (line.take pos) >>= fun key =>
      strip k ((line.drop (pos + 1)).take (line.length - pos)) >>= fun value =>
        pure (key, value) := by
  obtain ⟨-, hpos⟩ := find_bounds hf
  rw [List.length_singleton] at hpos
  have hne : line ≠ [] := by
    rintro rfl
    simp at hpos
  simp only [parseHttpLine, if_neg hne, hf, substr_done (Nat.zero_le _), substr_done hpos,
    guard_true hpos, done_bind, List.drop_zero]

theorem parseHttpLine_colon (hf : find line [58] 0 = some pos) :
    Returns (fun k => parseHttpLine k line) ((line.take pos).rtakeWhile (· ≠ 32),
      ((line.drop (pos + 1)).take (line.length - pos)).rtakeWhile (· ≠ 32)) := by
  simp only [parseHttpLine_eq hf]
  refine (strip_returns _).bind (strip_progressive _) ?_ ?_
  · exact Progressive.bind (strip_progressive _) fun _ => progressive_const _
  · exact (strip_returns _).bind (strip_progressive _) (progressive_const _) ⟨0, rfl⟩

theorem parseHttpLine_returns (line : Bytes) :
    (∃ r, Returns (fun k => parseHttpLine k line) r) ∧
      Progressive fun k => parseHttpLine k line := by
  cases hf : find line [58] 0 with
  | none =>
    have h : ∀ k, parseHttpLine k line = done ([], []) := by
      intro k
      unfold parseHttpLine
      split_ifs
      · rfl
      · rw [hf]
        rfl
    simp only [h]
    exact ⟨⟨_, 0, rfl⟩, progressive_const _⟩
  | some pos =>
    refine ⟨⟨_, parseHttpLine_colon hf⟩, ?_⟩
    simp only [parseHttpLine_eq hf]
    exact Progressive.bind (strip_progressive _) fun _ =>
      Progressive.bind (strip_progressive _) fun _ => progressive_const _

theorem parseLines_rest_progressive {lines : List Bytes} (line : Bytes)
    (h : ∀ m, Progressive fun k => parseLines k lines m) (m : List (Bytes × Bytes))
    (pair : Bytes × Bytes) : Progressive fun k =>
      if pair.1 ≠ [] ∧ pair.2 ≠ [] then do
        let pair ← parseHttpLine k line
        parseLines k lines (insertNew m pair)
      else parseLines k lines m := by
  split_ifs
  · exact Progressive.bind (parseHttpLine_returns line).2 fun _ => h _
  · exact h m

theorem parseLines_returns (lines : List Bytes) (m : List (Bytes × Bytes)) :
    (∃ r, Returns (fun k => parseLines k lines m) r) ∧
      Progressive fun k => parseLines k lines m := by
  induction lines generalizing m with
  | nil => exact ⟨⟨m, 0, rfl⟩, progressive_const _⟩
  | cons line lines ih =>
    obtain ⟨⟨pair, hpair⟩, hprog⟩ := parseHttpLine_returns line
    by_cases hc : (find line [58] 0).isSome
    · simp only [parseLines, if_pos hc]
      have hbody := parseLines_rest_progressive line (fun m => (ih m).2) m
      refine ⟨?_, Progressive.bind hprog hbody⟩
      by_cases hne : pair.1 ≠ [] ∧ pair.2 ≠ []
      · obtain ⟨r, hr⟩ := (ih (insertNew m pair)).1
        refine ⟨r, hpair.bind hprog (hbody pair) ?_⟩
        simp only [if_pos hne]
        exact hpair.bind hprog (ih _).2 hr
      · obtain ⟨r, hr⟩ := (ih m).1
        refine ⟨r, hpair.bind hprog (hbody pair) ?_⟩
        simp only [if_neg hne]
        exact hr
    · simp only [parseLines, if_neg hc]
      exact ih m

theorem splitString_progressive (str target : Bytes) :
    Progressive fun k => splitString k str target := by
  unfold splitString
  split_ifs
  · exact progressive_const _
  · exact loop_progressive _ _

theorem parseFields_progressive (mHeader : Bytes) (m : List (Bytes × Bytes)) :
    Progressive fun k => parseFields k mHeader m :=
  Progressive.bind (splitString_progressive _ _) fun lines => (parseLines_returns lines m).2

/-- The lines of any header, with whatever bytes, are parsed to the end without a fault. -/
theorem parseFields_returns (mHeader : Bytes) (m : List (Bytes × Bytes)) :
    ∃ r, Returns (fun k => parseFields k mHeader m) r := by
  obtain ⟨lines, hl⟩ := splitString_returns mHeader httpHeaderBreak (by decide)
  obtain ⟨r, hr⟩ := (parseLines_returns lines m).1
  exact ⟨r, hl.bind (splitString_progressive _ _) (parseLines_returns lines m).2 hr⟩

theorem getContentLength_done (mHeader : Bytes) (old : ℕ) :
    ∃ n, getContentLength mHeader old = done n := by
  unfold getContentLength
  cases hkey : find mHeader httpKetContentLength 0 with
  | none => exact ⟨old, rfl⟩
  | some pos =>
    simp only [substr_done (find_bounds hkey).2, done_bind]
    split
    · exact ⟨old, rfl⟩
    · next i hcolon =>
      have hpos := (find_bounds hcolon).2
      rw [List.length_singleton] at hpos
      rw [substr_done hpos, done_bind]
      exact ⟨_, rfl⟩

theorem isSpace_eq_false {c : UInt8} (h : isDigit c = true) : isSpace c = false :=
  not_space_of_isDigit h

theorem extractSize_digits (pre post : Bytes) {ds : Bytes} {old : ℕ}
    (hpre : ∀ b ∈ pre, isSpace b = true) (hne : ds ≠ []) (hds : ∀ b ∈ ds, isDigit b = true)
    (hpost : ∀ b ∈ post.head?, isDigit b = false) (h : digitsValue ds < sizeBound) :
    extractSize (pre ++ (ds ++ post)) old = digitsValue ds := by
  have htake : (ds ++ post).takeWhile isDigit = ds := by
    rw [List.takeWhile_append_of_pos hds]
    cases post with
    | nil => simp
    | cons b post => simp [hpost b rfl]
  obtain ⟨c, rest, rfl⟩ := List.exists_cons_of_ne_nil hne
  have hc : isDigit c = true := hds c List.mem_cons_self
  have hsign : ¬ (c = 43 ∨ c = 45) := by
    rintro (rfl | rfl) <;> revert hc <;> decide
  have hdrop : (pre ++ (c :: rest ++ post)).dropWhile isSpace = c :: (rest ++ post) := by
    rw [List.dropWhile_append_of_pos hpre, List.cons_append,
      List.dropWhile_cons_of_neg (by simp [isSpace_eq_false hc])]
  rw [List.cons_append] at htake
  rw [extractSize, hdrop]
  simp only [if_neg hsign, htake]
  rw [if_neg hne, if_neg (not_le.mpr h), if_neg (fun h => hsign (.inr h))]

theorem extractSize_decimal {n old : ℕ} (h : n < sizeBound) :
    extractSize (32 :: decimal n) old = n := by
  have hread := @extractSize_digits [32] [] (decimal n) old (by simp [isSpace])
    (decimal_ne_nil n) (fun b hb => isDigit_of_mem_decimal hb) (by simp)
    (by rwa [digitsValue_decimal])
  rwa [List.append_nil, digitsValue_decimal] at hread

end QyUtil.Http
