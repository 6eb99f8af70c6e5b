import QyUtil.Numbers.Rounding
import QyUtil.Trace.TraceRouter

/-! # The text of a report

`result_output::operator()` formats each text in a buffer with `vsprintf` and appends it to
the report, which `NativeTraceRouter` copies with `strcpy`. Both buffers have 4096 bytes
and nothing looks at the lengths.
-/

namespace QyUtil.Trace

open Bytes Net Rounding

universe u

variable {ρ : Type u} {host : Bytes} {x : ℚ}

def outputBufLen : ℕ := 4096

def maxStrBuf : ℕ := 4096

def toInt (n : ℤ) : ℤ := n.bmod (2 ^ 32)

/-- `duration / (float)1000`, with a `float` of 24 bits. -/
def milliseconds (duration : ℕ) : ℚ := toBits 24 (toBits 24 (toInt duration) / 1000)

/-- The hundredths of a number, rounded as for printing. -/
def hundredths (x : ℚ) : ℕ := (halfEven (|x| * 100)).toNat

/-- `%0.2f` of a number that is no negative zero. -/
def fixed2 (x : ℚ) : Bytes :=
  (if x < 0 then [45] else []) ++ decimal (hundredths x / 100) ++
    46 :: (decimal (hundredths x % 100)).leftpad 2 48

/-- The formatted text; the format strings stand in `explore_router`. -/
def Output.text (host : Bytes) : Output → Bytes
  | .index i => (decimal i).leftpad 2 32 ++ [32]
  | .sendFailed ret =>
    ascii "traceroute: " ++ cString host ++ ascii " 50 chars, ret=" ++ intText (toInt ret)
  | .timeout => ascii " *"
  | .align => ascii "\n   "
  | .hop ip => 32 :: (cString ip ++ ascii " (" ++ cString ip ++ [41])
  | .time duration => ascii "  " ++ fixed2 (milliseconds duration) ++ ascii "ms"
  | .lineEnd => [10]

def Report.text (host : Bytes) (t : Report ρ) : Bytes := t.output.flatMap (Output.text host)

/-- Every text fits into the buffer it is formatted in, with its NUL, and the whole report
into the one it is copied to. -/
structure Fits (host : Bytes) (t : Report ρ) : Prop where
  texts : ∀ o ∈ t.output, (o.text host).length < outputBufLen
  whole : (t.text host).length < maxStrBuf

/-- A text is part of the report, so only the report can be too long. -/
theorem fits_iff {t : Report ρ} : Fits host t ↔ (t.text host).length < maxStrBuf := by
  refine ⟨Fits.whole, fun h => ⟨fun o ho => lt_of_le_of_lt ?_ h, h⟩⟩
  exact (List.sublist_flatten_of_mem (List.mem_map_of_mem ho)).length_le

theorem abs_toInt_le (n : ℤ) : |toInt n| ≤ 2 ^ 31 := by
  have hlt := Int.bmod_lt (x := n) (m := 2 ^ 32) (by decide)
  have hge := Int.le_bmod (x := n) (m := 2 ^ 32) (by decide)
  rw [toInt, abs_le]
  constructor <;> omega

theorem length_toInt_le (n : ℤ) : (intText (toInt n)).length ≤ 11 := by
  have hle := abs_le.mp (abs_toInt_le n)
  exact length_intText_le (by decide) (by omega)

theorem hundredths_lt (h : |x| < 10 ^ 7 - 1) : hundredths x < 10 ^ 9 := by
  have hle := halfEven_le (|x| * 100)
  have hlt : (halfEven (|x| * 100) : ℚ) < (10 ^ 9 : ℤ) := by
    push_cast
    linarith
  have := Int.cast_lt.mp hlt
  rw [hundredths]
  omega

theorem length_fixed2 (x : ℚ) : (fixed2 x).length =
    (if x < 0 then 1 else 0) + (decimal (hundredths x / 100)).length + 3 := by
  have hpart : (decimal (hundredths x % 100)).length ≤ 2 :=
    length_decimal_le (by decide) (Nat.mod_lt _ (by decide))
  have hsign : (if x < 0 then [45] else [] : Bytes).length = if x < 0 then 1 else 0 := by
    split_ifs <;> rfl
  simp only [fixed2, List.length_append, List.length_cons, List.length_leftpad, hsign]
  omega

theorem abs_milliseconds_lt (duration : ℕ) : |milliseconds duration| < 10 ^ 7 - 1 := by
  have hint : |(toInt duration : ℚ)| ≤ 2 ^ 31 := by exact_mod_cast abs_toInt_le duration
  have hfloat := abs_toBits_le 24 (toInt duration : ℚ)
  have hquotient := abs_toBits_le 24 (toBits 24 (toInt duration) / 1000)
  rw [abs_div, abs_of_pos (show (0 : ℚ) < 1000 by norm_num)] at hquotient
  calc |milliseconds duration| ≤ 2 * (|toBits 24 (toInt duration)| / 1000) := hquotient
    _ ≤ 2 * (2 * 2 ^ 31 / 1000) := by
      gcongr
      linarith
    _ < 10 ^ 7 - 1 := by norm_num

/-- The width of the text of a duration: a sign, the whole milliseconds, and 7 bytes for
blanks, point, hundredths and unit. -/
def timeWidth (duration : ℕ) : ℕ :=
  (if milliseconds duration < 0 then 1 else 0) +
    (decimal (hundredths (milliseconds duration) / 100)).length + 7

theorem timeWidth_le (duration : ℕ) : timeWidth duration ≤ 15 := by
  have hlt := hundredths_lt (abs_milliseconds_lt duration)
  have hwhole : (decimal (hundredths (milliseconds duration) / 100)).length ≤ 7 :=
    length_decimal_le (by decide) (by omega)
  unfold timeWidth
  split_ifs <;> omega

@[simp] theorem Report.length_put (host : Bytes) (t : Report ρ) (o : Output) :
    ((t.put o).text host).length = (t.text host).length + (o.text host).length := by
  simp [Report.text, Report.put]

@[simp] theorem Report.text_sent (host : Bytes) (t : Report ρ) (index : ℕ) (r : ρ) :
    (t.sent index r).text host = t.text host := rfl

theorem Output.length_index {i : ℕ} (hi : i < 100) (host : Bytes) :
    ((Output.index i).text host).length = 3 := by
  have hle : (decimal i).length ≤ 2 := length_decimal_le (by decide) hi
  simp only [Output.text, List.length_append, List.length_leftpad, List.length_singleton]
  omega

theorem Output.length_time (duration : ℕ) (host : Bytes) :
    ((Output.time duration).text host).length = timeWidth duration := by
  simp only [Output.text, List.length_append, length_fixed2, timeWidth]
  show 2 + _ + 2 = _
  omega

def hopWidth (tIp curIp : Bytes) (times : ℕ) : ℕ :=
  if tIp = curIp then 0
  else (if times ≠ everyTTLExpCount - 1 then 4 else 0) + (4 + 2 * (cString curIp).length)

theorem hopWidth_le (tIp curIp : Bytes) (times : ℕ) :
    hopWidth tIp curIp times ≤ 8 + 2 * (cString curIp).length := by
  unfold hopWidth
  split_ifs <;> omega

theorem Report.length_putHop (host : Bytes) (t : Report ρ) (tIp curIp : Bytes) (times : ℕ) :
    ((t.putHop tIp curIp times).text host).length =
      (t.text host).length + hopWidth tIp curIp times := by
  have halign : (Output.align.text host).length = 4 := rfl
  have hhop : ((Output.hop curIp).text host).length = 4 + 2 * (cString curIp).length := by
    simp only [Output.text, List.length_cons, List.length_append, List.length_nil]
    show (cString curIp).length + 2 + _ + 1 + 1 = _
    omega
  unfold putHop hopWidth
  split_ifs with h
  · rfl
  · simp only [length_put, halign, hhop, Nat.add_assoc]
  · simp only [length_put, hhop, Nat.zero_add]

end QyUtil.Trace
