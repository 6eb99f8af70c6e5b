import QyUtil.Trace.ReportText

/-! # Reading a report back

The answers to the probes of one TTL make a row of the report, with the name of the one
who answered in front of the first of them. The text of a report of rows tells who
answered for which TTL: a line that does not begin with a number goes on with the row of
the line above, and a name stands in parentheses.
-/

namespace QyUtil.Trace

open Bytes

universe u

variable {host name line m p : Bytes} {i k : ℕ} {times : List (Option ℕ)} {first : Bool}

/-- What is printed for a probe; `none` has had no answer. -/
def cell : Option ℕ → Output
  | none => .timeout
  | some duration => .time duration

/-- The cells of a row. The name stands on a line of its own unless the first probe has
had an answer. -/
def cells (first : Bool) (name : Bytes) : List (Option ℕ) → List Output
  | [] => []
  | none :: rest => .timeout :: cells false name rest
  | some duration :: rest =>
    (if first then [] else [.align]) ++ .hop name :: .time duration :: rest.map cell

def row (k : ℕ) (name : Bytes) (times : List (Option ℕ)) : List Output :=
  .index k :: (cells true name times ++ [.lineEnd])

def outputText (host : Bytes) (out : List Output) : Bytes := out.flatMap (Output.text host)

theorem Report.text_eq {ρ : Type u} (t : Report ρ) (host : Bytes) :
    t.text host = outputText host t.output := rfl

@[simp] theorem outputText_nil (host : Bytes) : outputText host [] = [] := rfl

@[simp] theorem outputText_cons (host : Bytes) (o : Output) (out : List Output) :
    outputText host (o :: out) = o.text host ++ outputText host out := rfl

@[simp] theorem outputText_append (host : Bytes) (out out' : List Output) :
    outputText host (out ++ out') = outputText host out ++ outputText host out' :=
  List.flatMap_append

/-- The row that a line belongs to, when the line above belongs to row `k`. -/
def lineIndex (k : ℕ) (line : Bytes) : ℕ :=
  if line.take 3 = [32, 32, 32] then k else digitsValue ((line.take 2).filter isDigit)

def named (line : Bytes) : List Bytes :=
  if 40 ∈ line then [((line.dropWhile (· ≠ 40)).drop 1).takeWhile (· ≠ 41)] else []

def readLines : ℕ → List Bytes → List (ℕ × Bytes)
  | _, [] => []
  | k, line :: rest =>
    (named line).map (lineIndex k line, ·) ++ readLines (lineIndex k line) rest

/-- What a report says about who answered. -/
def readReport (text : Bytes) : List (ℕ × Bytes) := readLines 0 (text.splitOn 10)

/-- A name that neither ends its line nor its parentheses. -/
structure Plain (name : Bytes) : Prop where
  no_nul : 0 ∉ name
  no_newline : 10 ∉ name
  no_opening : 40 ∉ name
  no_closing : 41 ∉ name

structure Begins (i k : ℕ) (p : Bytes) : Prop where
  index : lineIndex i p = k
  length : 3 ≤ p.length
  no_newline : 10 ∉ p
  no_opening : 40 ∉ p

theorem readLines_line (h : 10 ∉ line) (k : ℕ) (m : Bytes) :
    readLines k ((line ++ 10 :: m).splitOn 10) =
      (named line).map (lineIndex k line, ·) ++ readLines (lineIndex k line) (m.splitOn 10) := by
  rw [List.splitOn_append_cons_self_of_not_mem h, readLines]

theorem Begins.index_append (h : Begins i k p) (m : Bytes) : lineIndex i (p ++ m) = k := by
  have hlen := h.length
  rw [← h.index, lineIndex, lineIndex, List.take_append_of_le_length hlen,
    List.take_append_of_le_length (by omega)]

theorem named_none (h : 40 ∉ line) : named line = [] := if_neg h

theorem named_hop (hp : 40 ∉ p) (hn : Plain name) (m : Bytes) :
    named (p ++ (32 :: (name ++ ascii " (" ++ name ++ [41]) ++ m)) = [name] := by
  have hfront : 40 ∉ p ++ 32 :: (name ++ [32]) := by
    simp only [List.mem_append, List.mem_cons, List.not_mem_nil, not_or]
    exact ⟨hp, by decide, hn.no_opening, by decide, not_false⟩
  have hline : p ++ (32 :: (name ++ ascii " (" ++ name ++ [41]) ++ m) =
      (p ++ 32 :: (name ++ [32])) ++ 40 :: (name ++ 41 :: m) := by
    show p ++ (32 :: (name ++ [32, 40] ++ name ++ [41]) ++ m) = _
    simp
  have hdrop : (p ++ 32 :: (name ++ [32]) ++ 40 :: (name ++ 41 :: m)).dropWhile (· ≠ 40) =
      40 :: (name ++ 41 :: m) := by
    rw [List.dropWhile_append_of_pos fun b hb => by
      simpa using fun h : b = 40 => hfront (h ▸ hb)]
    simp
  have htake : (name ++ 41 :: m).takeWhile (· ≠ 41) = name := by
    rw [takeWhile_append_of_notMem hn.no_closing]
    simp
  rw [hline, named, if_pos (by simp), hdrop, List.drop_one, List.tail_cons, htake]

theorem newline_notMem_decimal (n : ℕ) : (10 : UInt8) ∉ decimal n := fun h =>
  absurd (isDigit_of_mem_decimal h) (by decide)

theorem newline_notMem_fixed2 (x : ℚ) : 10 ∉ fixed2 x := by
  simp only [fixed2, List.leftpad, List.mem_append, List.mem_cons, List.mem_replicate, not_or]
  refine ⟨⟨?_, newline_notMem_decimal _⟩, by decide, by simp, newline_notMem_decimal _⟩
  split_ifs <;> decide

theorem newline_notMem_cells (host : Bytes) (times : List (Option ℕ)) :
    10 ∉ outputText host (times.map cell) := by
  rw [outputText, List.mem_flatMap]
  rintro ⟨o, ho, hmem⟩
  obtain ⟨t, -, rfl⟩ := List.mem_map.mp ho
  cases t with
  | none =>
    have htimeout : (10 : UInt8) ∉ ascii " *" := by decide
    exact htimeout hmem
  | some duration =>
    simp only [cell, Output.text, List.mem_append] at hmem
    rcases hmem with (h | h) | h
    · exact absurd h (by decide)
    · exact newline_notMem_fixed2 _ h
    · exact absurd h (by decide)

theorem index_begins (hk : k < 100) (i : ℕ) (host : Bytes) :
    Begins i k ((Output.index k).text host) := by
  have hdigits : (decimal k).filter isDigit = decimal k :=
    List.filter_eq_self.mpr fun _ => isDigit_of_mem_decimal
  have htwo : ((Output.index k).text host).take 2 =
      List.replicate (2 - (decimal k).length) 32 ++ decimal k := by
    have hle : (decimal k).length ≤ 2 := length_decimal_le (by decide) hk
    rw [Output.text, List.leftpad, List.take_append_of_le_length, List.take_of_length_le]
    all_goals
      rw [List.length_append, List.length_replicate]
      omega
  have hfilter : (((Output.index k).text host).take 2).filter isDigit = decimal k := by
    rw [htwo, List.filter_append, hdigits, List.filter_replicate_of_neg (by decide),
      List.nil_append]
  have hmem {b : UInt8} (hb : isDigit b = false) (hblank : b ≠ 32) :
      b ∉ (Output.index k).text host := by
    simp only [Output.text, List.leftpad, List.mem_append, List.mem_replicate, List.mem_singleton,
      not_or, not_and]
    refine ⟨⟨fun _ => hblank, fun h => ?_⟩, hblank⟩
    rw [isDigit_of_mem_decimal h] at hb
    cases hb
  constructor
  · have hblanks : ((Output.index k).text host).take 3 ≠ [32, 32, 32] := by
      intro h
      have htake := congrArg (fun l : Bytes => (l.take 2).filter isDigit) h
      have hmin : min 2 3 = 2 := rfl
      rw [List.take_take, hmin, hfilter] at htake
      exact decimal_ne_nil k htake
    rw [lineIndex, if_neg hblanks, hfilter, digitsValue_decimal]
  · exact (Output.length_index hk host).ge
  · exact hmem (by decide) (by decide)
  · exact hmem (by decide) (by decide)

theorem Begins.timeout (h : Begins i k p) (host : Bytes) :
    Begins i k (p ++ Output.timeout.text host) := by
  have hten : (10 : UInt8) ∉ ascii " *" := by decide
  have hopening : (40 : UInt8) ∉ ascii " *" := by decide
  constructor
  · exact h.index_append _
  · exact h.length.trans (List.sublist_append_left _ _).length_le
  · exact fun hmem => (List.mem_append.mp hmem).elim h.no_newline hten
  · exact fun hmem => (List.mem_append.mp hmem).elim h.no_opening hopening

theorem blanks_begin (k : ℕ) : Begins k k [32, 32, 32] where
  index := if_pos rfl
  length := le_refl 3
  no_newline := by decide
  no_opening := by decide

theorem readLines_hop (hp : Begins i k p) (hn : Plain name) (times : List (Option ℕ))
    (m : Bytes) : readLines i ((p ++ outputText host (.hop name :: times.map cell) ++
      10 :: m).splitOn 10) = (k, name) :: readLines k (m.splitOn 10) := by
  have htext : (Output.hop name).text host = 32 :: (name ++ ascii " (" ++ name ++ [41]) := by
    rw [Output.text, cString_eq_self hn.no_nul]
  have hline : 10 ∉ p ++ outputText host (.hop name :: times.map cell) := by
    have hparen : (10 : UInt8) ∉ ascii " (" := by decide
    rw [outputText_cons, htext]
    simp only [List.mem_append, List.mem_cons, List.not_mem_nil, not_or]
    exact ⟨hp.no_newline, ⟨by decide, ⟨⟨hn.no_newline, hparen⟩, hn.no_newline⟩, by decide,
      not_false⟩, newline_notMem_cells host times⟩
  rw [readLines_line hline, outputText_cons, htext, named_hop hp.no_opening hn,
    hp.index_append, List.map_singleton, List.singleton_append]

theorem readLines_cells (hp : Begins i k p) (hn : Plain name) (m : Bytes) :
    readLines i ((p ++ outputText host (cells first name times) ++ 10 :: m).splitOn 10) =
      (if times.any Option.isSome then [(k, name)] else []) ++ readLines k (m.splitOn 10) := by
  induction times generalizing p first with
  | nil =>
    rw [cells, outputText_nil, List.append_nil, readLines_line hp.no_newline,
      named_none hp.no_opening, hp.index]
    rfl
  | cons t rest ih =>
    cases t with
    | none =>
      rw [cells, outputText_cons, ← List.append_assoc, ih (hp.timeout host)]
      rfl
    | some duration =>
      cases first with
      | true => exact readLines_hop hp hn (some duration :: rest) m
      | false =>
        -- the name is on the next line
        have hbreak : p ++ outputText host (cells false name (some duration :: rest)) ++ 10 :: m =
            p ++ 10 :: ([32, 32, 32] ++
              outputText host (.hop name :: (some duration :: rest).map cell) ++ 10 :: m) := by
          have halign : Output.align.text host = 10 :: [32, 32, 32] := by rfl
          simp [cells, cell, halign]
        rw [hbreak, readLines_line hp.no_newline, named_none hp.no_opening, hp.index,
          readLines_hop (blanks_begin k) hn]
        rfl

/-- The rows of a report say who answered for which TTL. -/
theorem readLines_rows {ks : List ℕ} {names : ℕ → Bytes} {answers : ℕ → List (Option ℕ)}
    (hks : ∀ k ∈ ks, k < 100 ∧ Plain (names k)) (i : ℕ) :
    readLines i ((outputText host (ks.flatMap fun k => row k (names k) (answers k))).splitOn 10) =
      (ks.filter fun k => (answers k).any Option.isSome).map fun k => (k, names k) := by
  induction ks generalizing i with
  | nil => rfl
  | cons k ks ih =>
    obtain ⟨⟨hk, hn⟩, hrest⟩ := List.forall_mem_cons.mp hks
    have hrow : outputText host ((k :: ks).flatMap fun k => row k (names k) (answers k)) =
        (Output.index k).text host ++ outputText host (cells true (names k) (answers k)) ++
          10 :: outputText host (ks.flatMap fun k => row k (names k) (answers k)) := by
      have hend : Output.lineEnd.text host = [10] := rfl
      simp [row, hend]
    rw [hrow, readLines_cells (index_begins hk i host) hn, ih hrest, List.filter_cons]
    split_ifs <;> rfl

end QyUtil.Trace
