import QyUtil.Bytes.Lines
import QyUtil.Http.Fields

/-! # The content length

`get_content_length` does not look at the fields but searches the text of the header. It
takes the number behind the first colon behind the first `Content-Length`, in whatever line
that is, and it does not find the name in other cases of its letters.
-/

namespace QyUtil.Http

open Loops Outcome Bytes Search Lines

/-- A line `name: value` without its end; the value is what stands behind the colon. -/
structure FieldLine where
  name : Bytes
  value : Bytes
  name_ne : name ≠ []
  no_colon : (58 : UInt8) ∉ name
  no_break : search httpHeaderBreak (name ++ 58 :: value) = none

/-- A status line and fields, which make up a well-formed header. -/
structure HeaderLines where
  status : Bytes
  no_break : search httpHeaderBreak status = none
  fields : List FieldLine

def FieldLine.line (f : FieldLine) : Bytes := f.name ++ 58 :: f.value

namespace HeaderLines

def lines (h : HeaderLines) : List Bytes := h.status :: h.fields.map FieldLine.line

def text (h : HeaderLines) : Bytes := joinLines (h.lines ++ [[]])

end HeaderLines

variable {l rest : Bytes} {lines before : List Bytes} {n k i : ℕ} {h : HeaderLines}
  {f : FieldLine}

def lower (b : UInt8) : UInt8 := if 65 ≤ b ∧ b ≤ 90 then b + 32 else b

/-- The name is `Content-Length`, in whatever case. -/
def FieldLine.NamesLength (f : FieldLine) : Prop := f.name.map lower = ascii "content-length"

/-- A value that is a decimal number, with blanks around it. -/
def Numeral (value : Bytes) (n : ℕ) : Prop :=
  ∃ pre ds post, value = pre ++ (ds ++ post) ∧ (∀ b ∈ pre ++ post, b = 32 ∨ b = 9) ∧
    ds ≠ [] ∧ (∀ b ∈ ds, isDigit b = true) ∧ digitsValue ds = n

/-- The length that fields announce: 0 without a field for it, and the number of the field
when there is one. -/
inductive Announces (fields : List FieldLine) : ℕ → Prop
  | absent : (∀ f ∈ fields, ¬ f.NamesLength) → Announces fields 0
  | single {pre post : List FieldLine} {f : FieldLine} {n : ℕ} : fields = pre ++ f :: post →
      f.NamesLength → (∀ g ∈ pre ++ post, ¬ g.NamesLength) → Numeral f.value n →
      n < sizeBound → Announces fields n

/-- `m_content_length`, 0 before, holds the announced length, also when the header has
been padded with NULs. -/
def LengthRight (h : HeaderLines) (k : ℕ) : Prop :=
  ∀ n, Announces h.fields n →
    getContentLength (h.text ++ List.replicate k 0) 0 = done n

/-- The number in what stands behind the key: the one behind its first colon. -/
def sizeBehind (w : Bytes) : ℕ :=
  match search [58] w with
  | some p => extractSize (w.drop (p + 1)) 0
  | none => 0

/-- The number that a line gives, if the key is in it. -/
def Gives (l : Bytes) (n : ℕ) : Prop :=
  ∃ i, search httpKetContentLength l = some i ∧
    n = sizeBehind (l.drop (i + httpKetContentLength.length))

/-- The first of the lines that have the key in them. -/
def FirstWithKey (lines : List Bytes) (l : Bytes) : Prop :=
  ∃ before after, lines = before ++ l :: after ∧
    (∀ m ∈ before, search httpKetContentLength m = none) ∧
    (search httpKetContentLength l).isSome

theorem firstWithKey_or_none (lines : List Bytes) :
    (∀ l ∈ lines, search httpKetContentLength l = none) ∨ ∃ l, FirstWithKey lines l := by
  induction lines with
  | nil => exact .inl (by simp)
  | cons l lines ih =>
    cases hl : search httpKetContentLength l with
    | some i => exact .inr ⟨l, [], lines, rfl, by simp, by rw [hl]; rfl⟩
    | none =>
      rcases ih with hnone | ⟨m, before, after, rfl, hbefore, hm⟩
      · exact .inl (List.forall_mem_cons.mpr ⟨hl, hnone⟩)
      · exact .inr ⟨m, l :: before, after, rfl, List.forall_mem_cons.mpr ⟨hl, hbefore⟩, hm⟩

theorem FirstWithKey.unique {l' : Bytes} (h : FirstWithKey lines l) (h' : FirstWithKey lines l') :
    l = l' := by
  obtain ⟨before, after, rfl, hbefore, hl⟩ := h
  obtain ⟨before', after', heq, hbefore', hl'⟩ := h'
  rcases List.append_eq_append_iff.mp heq with ⟨as, rfl, has⟩ | ⟨bs, rfl, hbs⟩
  · cases as with
    | nil => exact (List.cons.inj has).1
    | cons a as =>
      obtain ⟨rfl, -⟩ := List.cons.inj has
      rw [hbefore' l (by simp)] at hl
      cases hl
  · cases bs with
    | nil => exact (List.cons.inj hbs).1.symm
    | cons b bs =>
      obtain ⟨rfl, -⟩ := List.cons.inj hbs
      rw [hbefore l' (by simp)] at hl'
      cases hl'

theorem key_break : ∀ x ∈ httpKetContentLength, x ∉ httpHeaderBreak := by decide +kernel

theorem HeaderLines.break_notMem (h : HeaderLines) :
    ∀ l ∈ h.lines, search httpHeaderBreak l = none := by
  intro l hl
  rcases List.mem_cons.mp hl with rfl | hl
  · exact h.no_break
  · obtain ⟨f, -, rfl⟩ := List.mem_map.mp hl
    exact f.no_break

theorem getContentLength_none (hnone : ∀ l ∈ h.lines, search httpKetContentLength l = none)
    (k : ℕ) : getContentLength (h.text ++ List.replicate k 0) 0 = done 0 := by
  have hpad : search httpKetContentLength (List.replicate k 0) = none := by
    have := search_append_replicate (s := ([] : Bytes)) (t := ascii "Content-Lengt") (a := 0)
      (b := 104) (by decide) k
    exact this.trans (by decide)
  have hlines : ∀ l ∈ h.lines ++ [[]], search httpKetContentLength l = none := by
    intro l hl
    rcases List.mem_append.mp hl with hl | hl
    · exact hnone l hl
    · rw [List.mem_singleton.mp hl]
      decide
  have hfind : search httpKetContentLength (h.text ++ List.replicate k 0) = none := by
    have := search_joined (by decide) key_break hlines (List.replicate k 0)
    rw [hpad, Option.map_none] at this
    exact this
  simp only [getContentLength, find_zero, hfind, pure_eq]

theorem getContentLength_line (hbefore : ∀ m ∈ before, search httpKetContentLength m = none)
    (hi : search httpKetContentLength l = some i) (hl : search httpHeaderBreak l = none)
    (rest : Bytes) :
    getContentLength (joinLines before ++ (l ++ (httpHeaderBreak ++ rest))) 0 =
      done (sizeBehind (l.drop (i + httpKetContentLength.length))) := by
  have hkey : search httpKetContentLength (joinLines before ++ (l ++ (httpHeaderBreak ++ rest))) =
      some (i + (joinLines before).length) :=
    search_joined_line (by decide) key_break hbefore hi _
  have hle : i + httpKetContentLength.length ≤ l.length := search_le hi
  have hdrop : (joinLines before ++ (l ++ (httpHeaderBreak ++ rest))).drop
      (i + (joinLines before).length + httpKetContentLength.length) =
      l.drop (i + httpKetContentLength.length) ++ (httpHeaderBreak ++ rest) := by
    rw [show i + (joinLines before).length + httpKetContentLength.length =
      (joinLines before).length + (i + httpKetContentLength.length) by omega, ← List.drop_drop,
      List.drop_left, List.drop_append_of_le_length hle]
  have hpos : i + (joinLines before).length + httpKetContentLength.length ≤
      (joinLines before ++ (l ++ (httpHeaderBreak ++ rest))).length := by
    simp only [List.length_append]
    omega
  have hnone : search httpHeaderBreak (l.drop (i + httpKetContentLength.length)) = none := by
    refine search_eq_none.mpr fun j hj hp => ?_
    rw [List.drop_drop] at hp
    rw [List.length_drop] at hj
    exact search_eq_none.mp hl _ (by omega) hp
  have hbreak : find (joinLines before ++ (l ++ (httpHeaderBreak ++ rest))) httpHeaderBreak
      (i + (joinLines before).length + httpKetContentLength.length) =
      some ((l.drop (i + httpKetContentLength.length)).length +
        (i + (joinLines before).length + httpKetContentLength.length)) := by
    rw [find, if_pos hpos, hdrop]
    exact congrArg _ (search_append_pattern (by decide) hnone rest)
  simp only [getContentLength, find_zero, hkey, hbreak, Option.map_some, Nat.add_sub_cancel,
    substr_done hpos, hdrop, List.take_left, done_bind]
  unfold sizeBehind
  cases hcolon : search [58] (l.drop (i + httpKetContentLength.length)) with
  | none => rfl
  | some p =>
    have hp : p + 1 ≤ (l.drop (i + httpKetContentLength.length)).length := search_le hcolon
    simp only [substr_done hp, done_bind, pure_eq]

/-- The first line with the key decides. -/
theorem FirstWithKey.contentLength (hfirst : FirstWithKey h.lines l) (k : ℕ) :
    ∃ n, Gives l n ∧ getContentLength (h.text ++ List.replicate k 0) 0 = done n := by
  obtain ⟨before, after, hlines, hbefore, hl⟩ := hfirst
  obtain ⟨i, hi⟩ := Option.isSome_iff_exists.mp hl
  have hmem : l ∈ h.lines := by rw [hlines]; simp
  have htext : h.text ++ List.replicate k 0 = joinLines before ++ (l ++ (httpHeaderBreak ++
      (joinLines (after ++ [[]]) ++ List.replicate k 0))) := by
    simp [HeaderLines.text, hlines, joinLines]
  exact ⟨_, ⟨i, hi, rfl⟩, by rw [htext, getContentLength_line hbefore hi (h.break_notMem l hmem)]⟩

theorem Numeral.gives (hname : f.name = httpKetContentLength) (hv : Numeral f.value n)
    (hn : n < sizeBound) : Gives f.line n := by
  obtain ⟨pre, ds, post, hvalue, hblank, hne, hds, rfl⟩ := hv
  have hline : f.line = httpKetContentLength ++ 58 :: f.value := by rw [FieldLine.line, hname]
  have hkey : search httpKetContentLength f.line = some 0 := by
    rw [hline]
    exact if_pos (List.prefix_append httpKetContentLength _)
  refine ⟨0, hkey, ?_⟩
  have hcolon : search [58] (58 :: f.value) = some 0 := if_pos ⟨f.value, rfl⟩
  have hspace : ∀ b ∈ pre, isSpace b = true := by
    intro b hb
    rcases hblank b (List.mem_append_left _ hb) with rfl | rfl <;> simp [isSpace]
  have hpost : ∀ b ∈ post.head?, isDigit b = false := by
    intro b hb
    rcases hblank b (List.mem_append_right _ (List.mem_of_mem_head? hb)) with rfl | rfl <;> rfl
  rw [hline, Nat.zero_add, List.drop_left, sizeBehind, hcolon, hvalue]
  exact (extractSize_digits pre post hspace hne hds hpost hn).symm

/-- What is found agrees with a length: no line has the key and the length is 0, or the first
line that has it gives the length. The field of exactly that name always does, another line
only by coincidence. -/
def Agrees (h : HeaderLines) (n : ℕ) : Prop :=
  ((∀ l ∈ h.lines, search httpKetContentLength l = none) ∧ n = 0) ∨
  ∃ l, FirstWithKey h.lines l ∧
    ((∃ f ∈ h.fields, f.line = l ∧ f.name = httpKetContentLength) ∨ Gives l n)

theorem Announces.numeral {fields : List FieldLine} (h : Announces fields n) (hf : f ∈ fields)
    (hname : f.NamesLength) : Numeral f.value n ∧ n < sizeBound := by
  cases h with
  | absent hno => exact absurd hname (hno f hf)
  | @single pre post g n hfields hg hother hv hlt =>
    have hfg : f = g := by
      rw [hfields] at hf
      rcases List.mem_append.mp hf with hf | hf
      · exact absurd hname (hother f (List.mem_append_left _ hf))
      · rcases List.mem_cons.mp hf with hf | hf
        · exact hf
        · exact absurd hname (hother f (List.mem_append_right _ hf))
    exact hfg ▸ ⟨hv, hlt⟩

theorem Gives.unique {m : ℕ} (h : Gives l n) (h' : Gives l m) : n = m := by
  obtain ⟨i, hi, rfl⟩ := h
  obtain ⟨j, hj, rfl⟩ := h'
  rw [Option.some.inj (hi.symm.trans hj)]

/-- The content length is right exactly when the first line with the text `Content-Length`
agrees with what the fields announce. -/
theorem lengthRight_iff (h : HeaderLines) (k : ℕ) :
    LengthRight h k ↔ ∀ n, Announces h.fields n → Agrees h n := by
  refine forall₂_congr fun n hn => ?_
  rcases firstWithKey_or_none h.lines with hnone | ⟨l, hl⟩
  · rw [getContentLength_none hnone]
    constructor
    · intro heq
      exact .inl ⟨hnone, (done.inj heq).symm⟩
    · rintro (⟨-, rfl⟩ | ⟨l, ⟨before, after, hlines, -, hl⟩, -⟩)
      · rfl
      · rw [hnone l (by rw [hlines]; simp)] at hl
        cases hl
  · obtain ⟨m, hm, hlength⟩ := hl.contentLength k
    rw [hlength]
    constructor
    · intro heq
      obtain rfl := done.inj heq
      exact .inr ⟨l, hl, .inr hm⟩
    · rintro (⟨hnone, -⟩ | ⟨l', hl', hfield⟩)
      · obtain ⟨before, after, hlines, -, hsome⟩ := hl
        rw [hnone l (by rw [hlines]; simp)] at hsome
        cases hsome
      · obtain rfl := hl.unique hl'
        rcases hfield with ⟨f, hf, rfl, hname⟩ | hg
        · -- the announced length can only be that of this field
          have hlen : f.NamesLength := by rw [FieldLine.NamesLength, hname]; decide
          obtain ⟨hv, hlt⟩ := hn.numeral hf hlen
          exact congrArg done (hm.unique (hv.gives hname hlt))
        · exact congrArg done (hm.unique hg)

def lowerCase : HeaderLines where
  status := ascii "HTTP/1.0 200 OK"
  no_break := by decide
  fields := [⟨ascii "content-length", ascii " 5", by decide, by decide, by decide⟩]

theorem lower_case_not_found : Announces lowerCase.fields 5 ∧
    getContentLength lowerCase.text 0 = done 0 ∧ ¬ LengthRight lowerCase 0 := by
  have hfive : Announces lowerCase.fields 5 :=
    @Announces.single _ [] [] _ 5 rfl (show _ = _ by decide) (by simp)
      ⟨[32], [53], [], rfl, by simp, by simp, by simp [isDigit], rfl⟩ (by decide)
  have hzero : getContentLength lowerCase.text 0 = done 0 := by decide +kernel
  refine ⟨hfive, hzero, fun h => ?_⟩
  have := h 5 hfive
  rw [List.replicate_zero, List.append_nil, hzero] at this
  exact absurd (done.inj this) (by decide)

end QyUtil.Http
