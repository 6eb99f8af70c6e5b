import QyUtil.Bytes.Lines
import QyUtil.Trace.TraceRouter

/-! # The address in the output of `ping`

`process_ping_result` takes what stands between the first `From ` of the output and the
next colon with a space behind it. That is the address of a router whose TTL ran out. An
echo reply says `from`, so the destination counts as a timeout, and in a text without an
answer any `From ` with a colon somewhere behind it is taken for one.
-/

namespace QyUtil.Trace.Android

open Bytes Net Search Lines

variable {text line ip w : Bytes} {a : Address} {before : List Bytes}

/-- A line of a router in which the TTL of the packet ran out. -/
def Exceeded (a : Address) (line : Bytes) : Prop :=
  ∃ rest, line = ascii "From " ++ (a.dotted ++ (ascii ": " ++ rest))

/-- A line for an echo reply. -/
def Reply (a : Address) (line : Bytes) : Prop :=
  ∃ n rest, line = decimal n ++ (ascii " bytes from " ++ (a.dotted ++ (ascii ": " ++ rest)))

/-- Lines with neither word. -/
def Silent (lines : List Bytes) : Prop :=
  ∀ l ∈ lines, search (ascii "From ") l = none ∧ search (ascii "from ") l = none

/-- The text has this line behind silent ones. -/
def Leads (text line : Bytes) : Prop :=
  ∃ before rest, text = joined [10] before ++ (line ++ rest) ∧ Silent before ∧
    (rest = [] ∨ ∃ r, rest = 10 :: r)

/-- No line of the text is an answer. -/
def NoAnswer (text : Bytes) : Prop :=
  ∀ l ∈ text.splitOn 10, ∀ a, ¬ Exceeded a l ∧ ¬ Reply a l

/-- The first answer in a text is reported with its address, and without an answer a timeout
is, which leaves the address alone. -/
structure AnswersRight (text : Bytes) : Prop where
  answer : ∀ a line ip, Leads text line → Exceeded a line ∨ Reply a line →
    processPingResult text ip = (false, a.dotted)
  timeout : ∀ ip, NoAnswer text → processPingResult text ip = (true, ip)

/-- What stands between the first `From ` and the colon and space next to it. -/
def FromText (text w : Bytes) : Prop :=
  ∃ u v, text = u ++ (ascii "From " ++ (w ++ (ascii ": " ++ v))) ∧
    search (ascii "From ") text = some u.length ∧
    search (ascii ": ") (w ++ (ascii ": " ++ v)) = some w.length

theorem processPingResult_of_fromText (h : FromText text w) (ip : Bytes) :
    processPingResult text ip = (false, w) := by
  obtain ⟨u, v, htext, hfrom, hcolon⟩ := h
  have hdrop : text.drop (u.length + 5) = w ++ (ascii ": " ++ v) := by
    rw [htext, ← List.drop_drop, List.drop_left]
    rfl
  simp only [processPingResult, find_zero, hfrom, hdrop, hcolon, List.take_left]

theorem fromText_or_timeout (text ip : Bytes) :
    (∃ w, FromText text w) ∨ (processPingResult text ip = (true, ip) ∧
      ∀ u v v', text ≠ u ++ (ascii "From " ++ (v ++ (ascii ": " ++ v')))) := by
  cases hfrom : search (ascii "From ") text with
  | none =>
    refine .inr ⟨by simp only [processPingResult, find_zero, hfrom], fun u v v' => ?_⟩
    exact ne_append_of_search hfrom u (v ++ (ascii ": " ++ v'))
  | some pos =>
    obtain ⟨hpos, ⟨t, ht⟩, -⟩ := search_eq_some.mp hfrom
    have hdrop : text.drop (pos + 5) = t := by
      rw [← List.drop_drop, ← ht]
      rfl
    cases hcolon : search (ascii ": ") t with
    | none =>
      refine .inr ⟨by simp only [processPingResult, find_zero, hfrom, hdrop, hcolon], ?_⟩
      rintro u v v' rfl
      -- the first mark is not behind this one
      have hlen : pos + 5 ≤ (u ++ ascii "From ").length := by
        rw [List.length_append]
        exact Nat.add_le_add_right (le_of_search hfrom) 5
      apply ne_append_of_search hcolon ((u ++ ascii "From ").drop (pos + 5) ++ v) v'
      rw [← hdrop, ← List.append_assoc u, List.drop_append_of_le_length hlen, List.append_assoc]
    | some p =>
      obtain ⟨hp, ⟨v, hv⟩, -⟩ := search_eq_some.mp hcolon
      have hsplit : t = t.take p ++ (ascii ": " ++ v) := by rw [hv, List.take_append_drop]
      have hlen : (text.take pos).length = pos := List.length_take_of_le hpos
      refine .inl ⟨t.take p, text.take pos, v, ?_, by rw [hlen, hfrom], ?_⟩
      · rw [← hsplit, ht, List.take_append_drop]
      · rw [← hsplit, hcolon, List.length_take_of_le hp]

theorem from_newline : ∀ x ∈ ascii "From ", x ∉ [(10 : UInt8)] := by
  decide +kernel

theorem Leads.fromText (h : Leads text line) (ha : Exceeded a line) :
    FromText text a.dotted := by
  obtain ⟨before, rest, htext, hsilent, -⟩ := h
  obtain ⟨rest', rfl⟩ := ha
  refine ⟨joined [10] before, rest' ++ rest, by rw [htext]; simp, ?_, ?_⟩
  · have hhead : search (ascii "From ") (ascii "From " ++ (a.dotted ++ (ascii ": " ++ rest'))) =
        some 0 := if_pos (List.prefix_append (ascii "From ") _)
    have := search_joined_line (by decide) from_newline (fun l hl => (hsilent l hl).1) hhead rest
    rw [Nat.zero_add] at this
    rw [htext, this]
  · exact search_append_cons (notMem_dotted (by decide) (by decide) a) [32] _

/-- The answer is reported rightly exactly when an echo reply that comes first is followed
by a first `From ` with the same address, and a text without an answer has no `From ` with
a colon and a space somewhere behind it. -/
theorem answersRight_iff (text : Bytes) : AnswersRight text ↔
    (∀ a line, Leads text line → Reply a line → FromText text a.dotted) ∧
    (NoAnswer text → ∀ u v v', text ≠ u ++ (ascii "From " ++ (v ++ (ascii ": " ++ v')))) := by
  constructor
  · intro h
    constructor
    · intro a line hlead hreply
      have hright := h.answer a line [] hlead (.inr hreply)
      rcases fromText_or_timeout text [] with ⟨w, hw⟩ | ⟨htimeout, -⟩
      · rw [processPingResult_of_fromText hw] at hright
        rwa [(Prod.mk.inj hright).2] at hw
      · rw [htimeout] at hright
        cases (Prod.mk.inj hright).1
    · intro hno
      have hright := h.timeout [] hno
      rcases fromText_or_timeout text [] with ⟨w, hw⟩ | ⟨-, hmarks⟩
      · rw [processPingResult_of_fromText hw] at hright
        cases (Prod.mk.inj hright).1
      · exact hmarks
  · rintro ⟨hreply, hno⟩
    refine ⟨fun a line ip hlead hline => ?_, fun ip hnone => ?_⟩
    · rcases hline with hexceeded | hr
      · exact processPingResult_of_fromText (hlead.fromText hexceeded) ip
      · exact processPingResult_of_fromText (hreply a line hlead hr) ip
    · rcases fromText_or_timeout text ip with ⟨w, u, v, htext, -⟩ | ⟨htimeout, -⟩
      · exact absurd htext (hno hnone u w v)
      · exact htimeout

def replyOutput : Bytes := ascii "64 bytes from 8.8.8.8: icmp_seq=1 ttl=55 time=12.3 ms"

theorem reply_taken_for_timeout : Reply ⟨8, 8, 8, 8⟩ replyOutput ∧
    processPingResult replyOutput [] = (true, []) ∧ ¬ AnswersRight replyOutput := by
  have hreply : Reply ⟨8, 8, 8, 8⟩ replyOutput :=
    ⟨64, ascii "icmp_seq=1 ttl=55 time=12.3 ms", by decide +kernel⟩
  have htimeout : processPingResult replyOutput [] = (true, []) := by decide +kernel
  refine ⟨hreply, htimeout, fun h => ?_⟩
  have hlead : Leads replyOutput replyOutput := ⟨[], [], by simp, by simp [Silent], .inl rfl⟩
  have := h.answer ⟨8, 8, 8, 8⟩ replyOutput [] hlead (.inr hreply)
  rw [htimeout] at this
  cases (Prod.mk.inj this).1

end QyUtil.Trace.Android
