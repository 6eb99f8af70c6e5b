import QyUtil.Http.Response

/-! # The fields of a response

What `parse_header` puts into `m_resp_header`. Its stripping cuts a value behind its
last space, wherever that is. So a line that ends with a space is left out, and of
the other lines only the last word of the value is kept.
-/

namespace QyUtil.Http

open Loops Outcome Turn Bytes Search

/-- A field as it stands in a header: a name, a colon, and a value between spaces. -/
structure Field where
  name : Bytes
  value : Bytes
  before : ℕ
  behind : ℕ
  name_ne : name ≠ []
  no_space : (32 : UInt8) ∉ name
  no_colon : (58 : UInt8) ∉ name
  no_return : (13 : UInt8) ∉ name
  value_ne : value ≠ []
  head_ne : value.head? ≠ some 32
  last_ne : value.getLast? ≠ some 32
  no_break : search httpHeaderBreak value = none

variable {fields : List Field} {f : Field} {status l name v : Bytes} {lines ps : List Bytes}
  {m m' : List (Bytes × Bytes)} {r : Response} {n : ℕ}

namespace Field

def padded (f : Field) : Bytes :=
  List.replicate f.before 32 ++ f.value ++ List.replicate f.behind 32

def line (f : Field) : Bytes := f.name ++ 58 :: f.padded

def lastWord (f : Field) : Bytes := f.value.rtakeWhile (· ≠ 32)

theorem find_colon (f : Field) : find f.line [58] 0 = some f.name.length := by
  rw [find_zero]
  exact search_append_cons f.no_colon [] f.padded

theorem break_notMem_line (f : Field) : search httpHeaderBreak f.line = none := by
  have hfront : (13 : UInt8) ∉ f.name ++ 58 :: List.replicate f.before 32 := by
    simp only [List.mem_append, List.mem_cons, List.mem_replicate, not_or]
    exact ⟨f.no_return, by decide, fun h => absurd h.2 (by decide)⟩
  have hline : f.line = f.name ++ 58 :: List.replicate f.before 32 ++
      (f.value ++ List.replicate f.behind 32) := by
    simp [line, padded]
  rw [hline, httpHeaderBreak, search_append_of_notMem hfront]
  have hback := search_append_replicate (s := f.value) (t := [13]) (a := 32) (b := 10) (by decide)
    f.behind
  exact Option.map_eq_none_iff.mpr (hback.trans f.no_break)

theorem strip_padded (f : Field) :
    f.padded.rtakeWhile (· ≠ 32) = if f.behind = 0 then f.lastWord else [] := by
  rw [padded]
  split_ifs with h
  · rw [h, List.replicate_zero, List.append_nil, lastWord]
    induction f.before with
    | zero => rw [List.replicate_zero, List.nil_append]
    | succ k ih => rw [List.replicate_succ, List.cons_append, rtakeWhile_space_cons, ih]
  · obtain ⟨k, hk⟩ := Nat.exists_eq_succ_of_ne_zero h
    rw [hk, List.replicate_succ', ← List.append_assoc]
    exact List.rtakeWhile_concat_neg _ _ _ (by decide)

theorem lastWord_ne (f : Field) : f.lastWord ≠ [] := by
  intro h
  have := List.rtakeWhile_eq_nil_iff.mp h f.value_ne
  rw [decide_eq_true_eq, not_not] at this
  exact f.last_ne (by rw [List.getLast?_eq_some_getLast f.value_ne, this])

/-- What `parse_header` does with the line of a field. -/
def store (m : List (Bytes × Bytes)) (f : Field) : List (Bytes × Bytes) :=
  if f.behind = 0 then insertNew m (f.name, f.lastWord) else m

theorem parseHttpLine (f : Field) : Returns (fun k => Http.parseHttpLine k f.line)
    (f.name, if f.behind = 0 then f.lastWord else []) := by
  have hname : (f.line.take f.name.length).rtakeWhile (· ≠ 32) = f.name := by
    rw [line, List.take_left, rtakeWhile_of_notMem f.no_space]
  have hvalue : (f.line.drop (f.name.length + 1)).take (f.line.length - f.name.length) =
      f.padded := by
    rw [line, ← List.drop_drop, List.drop_left, List.drop_one, List.tail_cons]
    apply List.take_of_length_le
    rw [List.length_append, List.length_cons]
    omega
  have h := parseHttpLine_colon f.find_colon
  rwa [hname, hvalue, f.strip_padded] at h

theorem parseLines (f : Field) (h : Returns (fun k => Http.parseLines k lines (store m f)) m') :
    Returns (fun k => Http.parseLines k (f.line :: lines) m) m' := by
  have hprog (m : List (Bytes × Bytes)) := (parseLines_returns lines m).2
  have hline := (parseHttpLine_returns f.line).2
  simp only [Http.parseLines, f.find_colon, Option.isSome_some, if_true]
  refine f.parseHttpLine.bind hline (parseLines_rest_progressive f.line hprog m _) ?_
  by_cases hb : f.behind = 0
  · simp only [hb, if_true, f.name_ne, f.lastWord_ne, ne_eq, not_false_eq_true, and_self]
    have hpair := f.parseHttpLine
    rw [if_pos hb] at hpair
    rw [store, if_pos hb] at h
    exact hpair.bind hline (hprog _) h
  · rw [store, if_neg hb] at h
    simpa only [hb, if_false, ne_eq, not_true_eq_false, and_false] using h

end Field

def joinLines (lines : List Bytes) : Bytes := lines.flatMap (· ++ httpHeaderBreak)

theorem splitTurn_line (hl : search httpHeaderBreak l = none) (pre rest : Bytes)
    (acc : List Bytes) :
    Next (splitTurn (pre ++ (l ++ httpHeaderBreak ++ rest)) httpHeaderBreak) ⟨pre.length, acc⟩
      ⟨(pre ++ (l ++ httpHeaderBreak)).length, acc ++ [l]⟩ := by
  have hend : ¬ (pre ++ (l ++ httpHeaderBreak ++ rest)).length ≤ pre.length := by
    simp only [List.length_append, httpHeaderBreak, List.length_cons]
    omega
  have hfind : find (pre ++ (l ++ httpHeaderBreak ++ rest)) httpHeaderBreak pre.length =
      some (l.length + pre.length) := by
    rw [find, if_pos (by simp), List.drop_left, List.append_assoc l]
    exact congrArg _ (search_append_pattern (by decide) hl rest)
  have hpiece : ((pre ++ (l ++ httpHeaderBreak ++ rest)).drop pre.length).take
      (l.length + pre.length - pre.length) = l := by
    rw [List.drop_left, Nat.add_sub_cancel, List.append_assoc l, List.take_left]
  have hpos : l.length + pre.length + httpHeaderBreak.length =
      (pre ++ (l ++ httpHeaderBreak)).length := by
    simp only [List.length_append]
    omega
  simp only [Next, splitTurn, if_neg hend, hfind, substr_done (not_le.mp hend).le, hpiece, hpos,
    done_bind, pure_eq]

theorem split_lines (lines : List Bytes) (rest : Bytes) : ∀ pre acc,
    (∀ l ∈ lines, search httpHeaderBreak l = none) →
    Reach (splitTurn (pre ++ (joinLines lines ++ rest)) httpHeaderBreak) ⟨pre.length, acc⟩
      ⟨(pre ++ joinLines lines).length, acc ++ lines⟩ := by
  induction lines with
  | nil =>
    intro pre acc _
    simpa [joinLines] using Relation.ReflTransGen.refl
  | cons l lines ih =>
    intro pre acc hl
    obtain ⟨hl₀, hls⟩ := List.forall_mem_cons.mp hl
    have hstep := splitTurn_line hl₀ pre (joinLines lines ++ rest) acc
    have hrest := ih (pre ++ (l ++ httpHeaderBreak)) (acc ++ [l]) hls
    have hstr : pre ++ (joinLines (l :: lines) ++ rest) =
        pre ++ (l ++ httpHeaderBreak ++ (joinLines lines ++ rest)) := by
      simp [joinLines]
    have hlen : (pre ++ joinLines (l :: lines)).length =
        (pre ++ (l ++ httpHeaderBreak) ++ joinLines lines).length := by
      simp [joinLines]
    rw [List.append_assoc pre] at hrest
    rw [hstr, hlen, List.append_cons acc l lines]
    exact .head hstep hrest

/-- Lines are split where they end; what follows the last end is a line only when it
is not empty. -/
theorem splitString_lines {rest : Bytes} (hne : lines ≠ [])
    (hl : ∀ l ∈ lines, search httpHeaderBreak l = none) (hr : search httpHeaderBreak rest = none) :
    Returns (fun k => splitString k (joinLines lines ++ rest) httpHeaderBreak)
      (lines ++ if rest = [] then [] else [rest]) := by
  have hpos : 0 < (joinLines lines).length := by
    obtain ⟨l, ls, rfl⟩ := List.exists_cons_of_ne_nil hne
    simp [joinLines, httpHeaderBreak]
  have hstr : joinLines lines ++ rest ≠ [] := by
    intro h
    rw [(List.append_eq_nil_iff.mp h).1] at hpos
    exact absurd hpos (by decide)
  have hreach := split_lines lines rest [] [] hl
  simp only [List.nil_append, List.length_nil] at hreach
  simp only [splitString, if_neg hstr]
  refine loop_returns_iff.mpr ⟨_, hreach, ?_⟩
  split_ifs with hempty
  · rw [splitTurn, if_pos (by simp [hempty]), List.append_nil]
    rfl
  · have hend : ¬ (joinLines lines ++ rest).length ≤ (joinLines lines).length := by
      rw [List.length_append]
      have := List.length_pos_iff.mpr hempty
      omega
    have hfind : find (joinLines lines ++ rest) httpHeaderBreak (joinLines lines).length =
        none := by
      rw [find, if_pos (by simp), List.drop_left, hr, Option.map_none]
    simp only [splitTurn, if_neg hend, hfind, if_neg hpos.ne', substr_done (not_le.mp hend).le,
      List.drop_left, done_bind, pure_eq]

theorem parseLines_skip (h : (58 : UInt8) ∉ l) (k : ℕ) (lines : List Bytes)
    (m : List (Bytes × Bytes)) : parseLines k (l :: lines) m = parseLines k lines m := by
  have hfind : find l [58] 0 = none := by
    rw [find_zero, ← List.append_nil l, search_append_of_notMem h]
    rfl
  rw [parseLines, hfind]
  rfl

theorem parseLines_colonless (h : ∀ l ∈ lines, (58 : UInt8) ∉ l) (k : ℕ)
    (m : List (Bytes × Bytes)) : parseLines k lines m = done m := by
  induction lines with
  | nil => rfl
  | cons l lines ih =>
    obtain ⟨hl, hls⟩ := List.forall_mem_cons.mp h
    rw [parseLines_skip hl, ih hls]

theorem parseLines_fields (fields : List Field) (h : ∀ l ∈ lines, (58 : UInt8) ∉ l) : ∀ m,
    Returns (fun k => parseLines k (fields.map Field.line ++ lines) m)
      (fields.foldl Field.store m) := by
  induction fields with
  | nil => exact fun m => ⟨0, parseLines_colonless h 0 m⟩
  | cons f fields ih => exact fun m => f.parseLines (ih (Field.store m f))

theorem lookup_insertNew (m : List (Bytes × Bytes)) (p : Bytes × Bytes) (name : Bytes) :
    (insertNew m p).lookup name =
      (m.lookup name).or (if p.1 = name then some p.2 else none) := by
  rw [insertNew]
  split_ifs with hany hp hp
  · -- the name is there, and keeps its value
    obtain ⟨q, hq, hqp⟩ := List.any_eq_true.mp hany
    have hsome : (m.lookup name).isSome := by
      rw [List.lookup_isSome_iff]
      exact ⟨q, hq, by rw [beq_iff_eq, ← hp, of_decide_eq_true hqp]⟩
    obtain ⟨v, hv⟩ := Option.isSome_iff_exists.mp hsome
    rw [hv, Option.some_or]
  · rw [Option.or_none]
  · rw [List.lookup_append, List.lookup_singleton, if_pos (by rw [hp, beq_self_eq_true])]
  · rw [List.lookup_append, List.lookup_singleton, if_neg (by simpa using Ne.symm hp)]

/-- The value that the first field with a name has. -/
def firstValue (fields : List Field) (name : Bytes) : Option Bytes :=
  (fields.find? fun f => f.name = name).map Field.value

/-- The last word of the first field with a name and without spaces at its end. -/
def storedValue (fields : List Field) (name : Bytes) : Option Bytes :=
  (fields.find? fun f => f.name = name ∧ f.behind = 0).map Field.lastWord

theorem lookup_store (m : List (Bytes × Bytes)) (f : Field) (name : Bytes) :
    (Field.store m f).lookup name =
      (m.lookup name).or (if f.name = name ∧ f.behind = 0 then some f.lastWord else none) := by
  rw [Field.store]
  by_cases hb : f.behind = 0
  · simp only [hb, if_true, and_true, lookup_insertNew]
  · simp only [hb, and_false, if_false, Option.or_none]

theorem lookup_fields (fields : List Field) (name : Bytes) : ∀ m,
    (fields.foldl Field.store m).lookup name = (m.lookup name).or (storedValue fields name) := by
  induction fields with
  | nil => simp [storedValue]
  | cons f fields ih =>
    intro m
    rw [List.foldl_cons, ih, lookup_store, Option.or_assoc]
    congr 1
    rw [storedValue, storedValue, List.find?_cons]
    by_cases h : f.name = name ∧ f.behind = 0 <;> simp [h]

/-- Each name has the value of its first field, and there is no other name. -/
def MapsToFirst (m : List (Bytes × Bytes)) (fields : List Field) : Prop :=
  ∀ name, m.lookup name = firstValue fields name

/-- Each name has a field without spaces at its end, and the first of these ends with
the value of the first field of that name as its last word. -/
def FirstIsLastWord (fields : List Field) : Prop :=
  ∀ f ∈ fields, ∃ g, fields.find? (fun g => g.name = f.name ∧ g.behind = 0) = some g ∧
    firstValue fields f.name = some g.lastWord

theorem storedValue_eq_iff :
    (∀ name, storedValue fields name = firstValue fields name) ↔ FirstIsLastWord fields := by
  constructor
  · intro h f hf
    obtain ⟨f₀, hf₀⟩ : ∃ f₀, fields.find? (fun g => g.name = f.name) = some f₀ :=
      Option.isSome_iff_exists.mp (List.find?_isSome.mpr ⟨f, hf, by simp⟩)
    have hname := h f.name
    rw [firstValue, hf₀, Option.map_some, storedValue] at hname
    obtain ⟨g, hg, hword⟩ := Option.map_eq_some_iff.mp hname
    exact ⟨g, hg, by rw [firstValue, hf₀, Option.map_some, hword]⟩
  · intro h name
    by_cases hname : ∃ f ∈ fields, f.name = name
    · obtain ⟨f, hf, rfl⟩ := hname
      obtain ⟨g, hg, hfirst⟩ := h f hf
      rw [storedValue, hg, hfirst, Option.map_some]
    · have hnone (p : Field → Bool) (hp : ∀ f, p f = true → f.name = name) :
          fields.find? p = none :=
        List.find?_eq_none.mpr fun f hf hpf => hname ⟨f, hf, hp f hpf⟩
      rw [storedValue, firstValue, hnone _ fun f hf => (of_decide_eq_true hf).1,
        hnone _ fun f hf => of_decide_eq_true hf]
      rfl

def headerBlock (status : Bytes) (fields : List Field) : Bytes :=
  joinLines (status :: (fields.map Field.line ++ [[]]))

/-- What `parse_header` stores for a header block, with or without padding. -/
theorem parseHeader_stores (hcolon : (58 : UInt8) ∉ status)
    (hbreak : search httpHeaderBreak status = none)
    (hr : r.mHeader = headerBlock status fields ++ List.replicate n 0) :
    ∃ r', Returns (fun k => parseHeader k r) r' ∧
      r'.respHeader = fields.foldl Field.store r.respHeader := by
  have hlines : ∀ l ∈ status :: (fields.map Field.line ++ [[]]),
      search httpHeaderBreak l = none := by
    intro l hl
    simp only [List.mem_cons, List.mem_append, List.mem_map, List.not_mem_nil, or_false] at hl
    rcases hl with rfl | ⟨f, -, rfl⟩ | rfl
    · exact hbreak
    · exact f.break_notMem_line
    · rfl
  have hpadding : search httpHeaderBreak (List.replicate n 0) = none :=
    search_append_replicate (s := []) (t := [13]) (b := 10) (by decide) n
  have hcolonless : ∀ l ∈ [] :: (if List.replicate n (0 : UInt8) = [] then [] else
      [List.replicate n (0 : UInt8)]), (58 : UInt8) ∉ l := by
    intro l hl h58
    rcases List.mem_cons.mp hl with rfl | hl
    · cases h58
    · split_ifs at hl
      · cases hl
      · obtain rfl := List.mem_singleton.mp hl
        exact absurd (List.eq_of_mem_replicate h58) (by decide)
  have hsplit := splitString_lines (List.cons_ne_nil _ _) hlines hpadding
  obtain ⟨k, hk⟩ := getContentLength_done r.mHeader r.contentLength
  have hfields : Returns (fun k => parseFields k r.mHeader r.respHeader)
      (fields.foldl Field.store r.respHeader) := by
    refine Returns.bind (splitString_progressive _ _) (parseLines_returns _ _).2
      (by rw [hr]; exact hsplit) ?_
    rw [List.cons_append, List.append_assoc, List.singleton_append]
    simp only [parseLines_skip hcolon]
    exact parseLines_fields fields hcolonless _
  refine ⟨{ r with respHeader := fields.foldl Field.store r.respHeader, contentLength := k },
    hfields.bind (parseFields_progressive _ _) (progressive_const _) ⟨0, ?_⟩, rfl⟩
  simp only [hk, done_bind]
  rfl

/-- A new response maps the names of a header block to their first values exactly when
the last word of each name's first line without spaces at its end is this value. -/
theorem parseHeader_first_iff (hcolon : (58 : UInt8) ∉ status)
    (hbreak : search httpHeaderBreak status = none) (hm : r.respHeader = [])
    (hr : r.mHeader = headerBlock status fields ++ List.replicate n 0) :
    ∃ r', Returns (fun k => parseHeader k r) r' ∧
      (MapsToFirst r'.respHeader fields ↔ FirstIsLastWord fields) := by
  obtain ⟨r', hret, hstore⟩ := parseHeader_stores hcolon hbreak hr
  refine ⟨r', hret, ?_⟩
  rw [← storedValue_eq_iff, MapsToFirst, hstore, hm]
  exact forall_congr' fun name => by rw [lookup_fields, List.lookup_nil, Option.none_or]

def serverField : Field where
  name := ascii "Server"
  value := ascii "q"
  before := 1
  behind := 0
  name_ne := by decide
  no_space := by decide
  no_colon := by decide
  no_return := by decide
  value_ne := by decide
  head_ne := by decide
  last_ne := by decide
  no_break := by decide

theorem sizes_nil : ∀ c ∈ ([] : List Bytes), c.length ≤ readBufLength := by simp

def headerResponse (fields : List Field) : Response :=
  { Response.new ⟨[], sizes_nil, false⟩ fun _ => 0 with
    mHeader := headerBlock (ascii "HTTP/1.0 200 OK") fields }

theorem parseHeader_first_server : ∃ r', Returns (fun k => parseHeader k
    (headerResponse [serverField])) r' ∧ r'.respHeader.lookup (ascii "Server") =
      some (ascii "q") := by
  obtain ⟨r', hret, hiff⟩ := @parseHeader_first_iff [serverField]
    (ascii "HTTP/1.0 200 OK") (headerResponse [serverField]) 0 (by decide) (by decide) rfl
    (List.append_nil _).symm
  refine ⟨r', hret, hiff.mpr (fun f hf => ?_) _⟩
  obtain rfl := List.mem_singleton.mp hf
  exact ⟨serverField, rfl, by decide⟩

def twoWordField : Field :=
  { serverField with
    value := ascii "q r"
    value_ne := by decide
    head_ne := by decide
    last_ne := by decide
    no_break := by decide }

/-- Of a value of two words the first one is lost. -/
theorem parseHeader_keeps_last_word : ∃ r', Returns (fun k => parseHeader k
    (headerResponse [twoWordField])) r' ∧ ¬ MapsToFirst r'.respHeader [twoWordField] := by
  obtain ⟨r', hret, hstore⟩ := @parseHeader_stores [twoWordField]
    (ascii "HTTP/1.0 200 OK") (headerResponse [twoWordField]) 0 (by decide) (by decide)
    (List.append_nil _).symm
  refine ⟨r', hret, fun h => ?_⟩
  have hfirst := h (ascii "Server")
  rw [hstore] at hfirst
  revert hfirst
  decide

end QyUtil.Http
