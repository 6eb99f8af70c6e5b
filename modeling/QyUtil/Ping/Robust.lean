import QyUtil.Bytes.Pairs
import QyUtil.Ping.LossRate

/-! # Any text of the command

The loop over the loss rate goes left until it meets a space and takes every character on
the way for a digit. Without a space it ends in an exception, and a fraction gives a number
that is no percentage. The times are read from a fixed position, where the line
may have ended. Positions are as in texts shorter than 2^31 bytes, and `char` is
unsigned.
-/

namespace QyUtil.Ping

open Loops Outcome Turn Bytes Search

variable {status status' : PingStatus} {line l w ds : Bytes} {lines : List Bytes} {first : Bool}

def Fits (n : ℤ) : Prop := -2 ^ 31 ≤ n ∧ n < 2 ^ 31

/-- The powers, products and sums of the loop over the loss rate have their values in
`int`, up to the space or the exception that ends it. -/
def LossFits : Bytes → ℤ → ℤ → Prop
  | [], _, _ => True
  | c :: left, lossRate, weight =>
    if c = 32 then True
    else Fits weight ∧ Fits (((c.toNat : ℤ) - 48) * weight) ∧
      Fits (lossRate + ((c.toNat : ℤ) - 48) * weight) ∧
      LossFits left (lossRate + ((c.toNat : ℤ) - 48) * weight) (weight * 10)

def behind (text : Bytes) (before : List Bytes) : PingStatus :=
  (readLines true before { PingStatus.new with res := text }).1

/-- The text is read without an exception and without an overflow, the address always ends
with a NUL inside its field, and every loss rate that is stored is one. -/
structure Robust (text : Bytes) : Prop where
  returns : ∃ status code, Returns (fun k => getPingStatus k text .new) (status, some code)
  defined : ∀ l ∈ text.splitOn 10, ∀ num, search (ascii "packet loss") l = some num →
    LossFits (l.take (num - 2)).reverse 0 1
  terminated : ∀ before, before <+: text.splitOn 10 →
    (behind text before).ip.length = 16 ∧ (0 : UInt8) ∈ (behind text before).ip
  range : ∀ before, before <+: text.splitOn 10 →
    0 ≤ (behind text before).lossRate ∧ (behind text before).lossRate ≤ 1

/-- Characters that are a number of percent when each counts as a digit, with nothing on
the way to it outside `int`. -/
structure Percentage (ds : Bytes) : Prop where
  range : 0 ≤ charsValue ds ∧ charsValue ds ≤ 100
  fits : ∀ pre c post, ds = pre ++ c :: post → Fits (10 ^ post.length) ∧
    Fits (((c.toNat : ℤ) - 48) * 10 ^ post.length) ∧ Fits (charsValue (c :: post))

/-- A line that does no harm: where it tells a loss, a percentage stands behind the last
space up to two characters in front of that, and where it tells the times, they begin
inside of it. -/
structure Harmless (line : Bytes) : Prop where
  loss : ∀ num, search (ascii "packet loss") line = some num →
    ∃ pre ds, line.take (num - 2) = pre ++ 32 :: ds ∧ (32 : UInt8) ∉ ds ∧ Percentage ds
  times : (search (ascii "rtt min/avg/max") line).isSome → 23 ≤ line.length

theorem charsValue_cons (c : UInt8) (post : Bytes) :
    charsValue (c :: post) = charsValue post + ((c.toNat : ℤ) - 48) * 10 ^ post.length := by
  induction post using List.reverseRecOn with
  | nil => simp [charsValue]
  | append_singleton post d ih =>
    rw [← List.cons_append, charsValue_concat, ih, charsValue_concat, List.length_append,
      List.length_singleton, pow_succ]
    ring

theorem lossFits_iff (hd : (32 : UInt8) ∉ ds) (left : Bytes) : ∀ behind,
    LossFits (ds.reverse ++ 32 :: left) (charsValue behind) (10 ^ behind.length) ↔
      ∀ pre c post, ds = pre ++ c :: post → Fits (10 ^ (post ++ behind).length) ∧
        Fits (((c.toNat : ℤ) - 48) * 10 ^ (post ++ behind).length) ∧
        Fits (charsValue (c :: (post ++ behind))) := by
  induction ds using List.reverseRecOn with
  | nil => simp [LossFits]
  | append_singleton ds d ih =>
    intro behind
    obtain ⟨hds, hne⟩ : (32 : UInt8) ∉ ds ∧ d ≠ 32 := by simpa [eq_comm] using hd
    have hih := ih hds (d :: behind)
    rw [List.length_cons, pow_succ] at hih
    rw [List.reverse_append, List.reverse_singleton, List.singleton_append, List.cons_append,
      LossFits, if_neg hne, ← charsValue_cons, hih]
    constructor
    · rintro ⟨hw, hp, hs, hrest⟩ pre c post hform
      rcases List.eq_nil_or_concat' post with rfl | ⟨post, b, rfl⟩
      · obtain ⟨rfl, hc⟩ := List.append_inj' hform rfl
        obtain rfl := List.singleton_inj.mp hc
        exact ⟨hw, hp, hs⟩
      · rw [← List.cons_append, ← List.append_assoc] at hform
        obtain ⟨rfl, hb⟩ := List.append_inj' hform rfl
        obtain rfl := List.singleton_inj.mp hb
        rw [List.append_assoc, List.singleton_append]
        exact hrest pre c post rfl
    · intro h
      refine ⟨(h ds d [] rfl).1, (h ds d [] rfl).2.1, (h ds d [] rfl).2.2, ?_⟩
      rintro pre c post rfl
      have := h pre c (post ++ [d]) (by simp)
      rwa [List.append_assoc, List.singleton_append] at this

theorem lossDigits_none (h : (32 : UInt8) ∉ l) : ∀ lossRate weight,
    lossDigits l lossRate weight = none := by
  induction l with
  | nil => exact fun _ _ => rfl
  | cons c l ih =>
    intro lossRate weight
    obtain ⟨hc, hl⟩ : ¬ c = 32 ∧ (32 : UInt8) ∉ l := by simpa [eq_comm] using h
    rw [lossDigits, if_neg hc, ih hl]

theorem readLoss_chars {pre : Bytes} {num : ℕ} (hfind : search (ascii "packet loss") l = some num)
    (htake : l.take (num - 2) = pre ++ 32 :: ds) (hd : (32 : UInt8) ∉ ds) (status : PingStatus) :
    readLoss l status = some { status with lossRate := charsValue ds / 100 } := by
  have hreverse : (l.take (num - 2)).reverse = ds.reverse ++ 32 :: pre.reverse := by
    rw [htake]
    simp
  simp only [readLoss, find_zero, hfind, hreverse, lossDigits_chars hd]
  simp

theorem readLoss_some {num : ℕ} (hfind : search (ascii "packet loss") l = some num)
    (h : readLoss l status = some status') :
    ∃ pre ds, l.take (num - 2) = pre ++ 32 :: ds ∧ (32 : UInt8) ∉ ds ∧
      status'.lossRate = charsValue ds / 100 := by
  by_cases hspace : (32 : UInt8) ∈ (l.take (num - 2)).reverse
  · obtain ⟨ds, pre, hform, hd⟩ := List.eq_append_cons_of_mem hspace
    have htake : l.take (num - 2) = pre.reverse ++ 32 :: ds.reverse := by
      rw [← List.reverse_reverse (l.take (num - 2)), hform]
      simp
    have hd' : (32 : UInt8) ∉ ds.reverse := by rwa [List.mem_reverse]
    rw [readLoss_chars hfind htake hd'] at h
    exact ⟨_, _, htake, hd', by rw [← Option.some.inj h]⟩
  · simp only [readLoss, find_zero, hfind, lossDigits_none hspace] at h
    cases h

def Terminated (ip : Bytes) : Prop := ip.length = 16 ∧ ip.getD 15 0 = 0

theorem Terminated.zero_mem {ip : Bytes} (h : Terminated ip) : (0 : UInt8) ∈ ip := by
  have hlt : 15 < ip.length := by
    rw [h.1]
    decide
  have h15 := h.2
  rw [List.getD_eq_getElem _ _ hlt] at h15
  exact h15 ▸ List.getElem_mem hlt

theorem Terminated.strncpy {ip : Bytes} {n : ℕ} (h : Terminated ip) (src : Bytes) (hn : n ≤ 15) :
    Terminated (strncpy ip src n) := by
  have hlen : ((cString src ++ List.replicate n 0).take n).length ≤ 15 :=
    (List.length_take_le _ _).trans hn
  have hfit : 0 + ((cString src ++ List.replicate n 0).take n).length ≤ ip.length := by
    rw [h.1]
    omega
  refine ⟨(length_writeAt hfit).trans h.1, ?_⟩
  rw [Ping.strncpy, getD_writeAt hfit, if_neg (by omega)]
  exact h.2

theorem readIp_terminated (h : Terminated status.ip) (line : Bytes) :
    Terminated (readIp line status).ip := by
  unfold readIp
  split
  · split_ifs
    · exact h.strncpy _ (by split_ifs <;> omega)
    · exact h
  · exact h

theorem readRttField_isSome {n : ℕ} : (readRttField line n).isSome ↔ n ≤ line.length := by
  unfold readRttField
  split_ifs with h
  · simpa using h
  · split <;> simpa using h

theorem readRttField_le {n m : ℕ} (h : readRttField line n = some (w, m)) : m ≤ line.length := by
  unfold readRttField at h
  split_ifs at h
  split at h
  · next p hp =>
    obtain ⟨-, rfl⟩ := Prod.mk.inj (Option.some.inj h)
    exact (find_bounds hp).2
  · obtain ⟨-, rfl⟩ := Prod.mk.inj (Option.some.inj h)
    exact Nat.zero_le _

theorem readRtt_isSome : (readRtt line status).isSome ↔
    ((search (ascii "rtt min/avg/max") line).isSome → 23 ≤ line.length) := by
  unfold readRtt
  rw [find_zero]
  cases search (ascii "rtt min/avg/max") line with
  | none => simp
  | some i =>
    rw [← readRttField_isSome]
    cases hmin : readRttField line 23 with
    | none => simp
    | some a =>
      obtain ⟨b, hb⟩ := Option.isSome_iff_exists.mp
        (readRttField_isSome.mpr (readRttField_le (w := a.1) (m := a.2) hmin))
      obtain ⟨c, hc⟩ := Option.isSome_iff_exists.mp
        (readRttField_isSome.mpr (readRttField_le (w := b.1) (m := b.2) hb))
      simp [hb, hc]

theorem readLines_append (before lines : List Bytes) : ∀ first status,
    (readLines first (before ++ lines) status).2 = false →
    (readLines first before status).2 = false ∧ readLines first (before ++ lines) status =
      readLines (first && before.isEmpty) lines (readLines first before status).1 := by
  induction before with
  | nil => simp [readLines]
  | cons l before ih =>
    intro first status
    simp only [List.cons_append, readLines, List.isEmpty_cons, Bool.and_false]
    split
    · simp
    · split
      · simp
      · next status' _ =>
        intro h
        obtain ⟨hbefore, heq⟩ := ih false status' h
        exact ⟨hbefore, by rw [heq, Bool.false_and]⟩

theorem readLines_line (h : (readLines first [line] status).2 = false) :
    ∃ status₁ status₂ status₃, readLoss line status₁ = some status₂ ∧
    readRtt line status₂ = some status₃ ∧ (readLines first [line] status).1 = status₃ := by
  simp only [readLines] at h ⊢
  split at h
  · cases h
  · next status₂ hloss =>
    split at h
    · cases h
    · next status₃ hrtt => exact ⟨_, status₂, status₃, hloss, hrtt, rfl⟩

structure Kept (status : PingStatus) : Prop where
  ip : Terminated status.ip
  lossRate : 0 ≤ status.lossRate ∧ status.lossRate ≤ 1

theorem Harmless.read (h : Harmless line) (hk : Kept status) : ∃ status' status'',
    readLoss line status = some status' ∧ readRtt line status' = some status'' ∧
    Kept status'' := by
  have hloss : ∃ status', readLoss line status = some status' ∧ Kept status' := by
    cases hfind : search (ascii "packet loss") line with
    | none => exact ⟨status, readLoss_none hfind status, hk⟩
    | some num =>
      obtain ⟨pre, ds, htake, hd, hpercent⟩ := h.loss num hfind
      have hlow : (0 : ℚ) ≤ charsValue ds := Int.cast_nonneg hpercent.range.1
      have hhigh : (charsValue ds : ℚ) ≤ 100 := by exact_mod_cast hpercent.range.2
      refine ⟨_, readLoss_chars hfind htake hd status, hk.ip, by positivity, ?_⟩
      show (charsValue ds : ℚ) / 100 ≤ 1
      linarith
  obtain ⟨status', hread, hk'⟩ := hloss
  have htimes : (readRtt line status').isSome := readRtt_isSome.mpr h.times
  obtain ⟨status'', hrtt⟩ := Option.isSome_iff_exists.mp htimes
  obtain ⟨hrate, hip⟩ := readRtt_frame hrtt
  exact ⟨status', status'', hread, hrtt, hip ▸ hk'.ip, hrate ▸ hk'.lossRate⟩

theorem readLines_harmless (h : ∀ l ∈ lines, Harmless l) : ∀ first status, Kept status →
    (readLines first lines status).2 = false ∧ Kept (readLines first lines status).1 := by
  induction lines with
  | nil => exact fun _ _ hk => ⟨rfl, hk⟩
  | cons l lines ih =>
    intro first status hk
    obtain ⟨hl, hrest⟩ := List.forall_mem_cons.mp h
    have hk' : Kept (if first then readIp l status else status) := by
      split_ifs
      · exact ⟨readIp_terminated hk.ip l, by rw [readIp_lossRate]; exact hk.lossRate⟩
      · exact hk
    obtain ⟨status', status'', hloss, hrtt, hk''⟩ := hl.read hk'
    simp only [readLines, hloss, hrtt]
    exact ih hrest false status'' hk''

theorem kept_new (text : Bytes) : Kept { PingStatus.new with res := text } :=
  ⟨⟨rfl, rfl⟩, le_refl 0, zero_le_one⟩

theorem getPingStatus_progressive (text : Bytes) (status : PingStatus) :
    Progressive fun k => getPingStatus k text status := by
  unfold getPingStatus strSplit
  split_ifs
  · exact progressive_const _
  · exact (loop_progressive _ _).bind fun _ => progressive_const _

theorem returns_iff (text : Bytes) :
    (∃ status code, Returns (fun k => getPingStatus k text .new) (status, some code)) ↔
      (readLines true (text.splitOn 10) { PingStatus.new with res := text }).2 = false := by
  rcases eq_or_ne text [] with rfl | hne
  · exact iff_of_true ⟨_, _, 0, rfl⟩ (by decide +kernel)
  · have hret := getPingStatus_readLines (fun l hl => (Pairs.of_mem_splitOn hl).1)
      (List.intercalate_splitOn 10) hne .new
    constructor
    · rintro ⟨status, code, h⟩
      have := (Prod.mk.inj (h.unique (getPingStatus_progressive text _) hret)).2
      split_ifs at this with hthrown
      exact Bool.eq_false_of_not_eq_true hthrown
    · intro h
      rw [h] at hret
      exact ⟨_, _, hret⟩

/-- The text of the command is dealt with exactly when no line of it does harm. -/
theorem robust_iff (text : Bytes) : Robust text ↔ ∀ l ∈ text.splitOn 10, Harmless l := by
  constructor
  · intro h l hl
    have hnone := (returns_iff text).mp h.returns
    obtain ⟨before, after, hlines⟩ := List.append_of_mem hl
    rw [List.append_cons] at hlines
    -- what is stored behind the line comes from this line
    rw [hlines] at hnone
    have hline := (readLines_append _ after true _ hnone).1
    obtain ⟨-, heq⟩ := readLines_append before [l] true _ hline
    rw [heq] at hline
    obtain ⟨status₁, status₂, status₃, hloss, hrtt, hbehind⟩ := readLines_line hline
    rw [← heq] at hbehind
    have hrange := h.range (before ++ [l]) ⟨after, hlines.symm⟩
    rw [behind, hbehind, (readRtt_frame hrtt).1] at hrange
    refine ⟨fun num hfind => ?_, readRtt_isSome.mp (Option.isSome_of_eq_some hrtt)⟩
    obtain ⟨pre, ds, htake, hd, hrate⟩ := readLoss_some hfind hloss
    rw [hrate, div_le_one (by norm_num), le_div_iff₀ (by norm_num), zero_mul] at hrange
    have hfits := h.defined l hl num hfind
    rw [htake, List.reverse_append, List.reverse_cons, List.append_assoc] at hfits
    exact ⟨pre, ds, htake, hd, by exact_mod_cast hrange,
      by simpa using (lossFits_iff hd pre.reverse []).mp hfits⟩
  · intro h
    have hbehind (before : List Bytes) (hb : before <+: text.splitOn 10) :
        Kept (behind text before) :=
      (readLines_harmless (fun l hl => h l (hb.subset hl)) true _ (kept_new text)).2
    refine ⟨(returns_iff text).mpr (readLines_harmless h true _ (kept_new text)).1, ?_,
      fun before hb => ⟨(hbehind before hb).ip.1, (hbehind before hb).ip.zero_mem⟩,
      fun before hb => (hbehind before hb).lossRate⟩
    intro l hl num hfind
    obtain ⟨pre, ds, htake, hd, hpercent⟩ := (h l hl).loss num hfind
    rw [htake, List.reverse_append, List.reverse_cons, List.append_assoc]
    exact (lossFits_iff hd pre.reverse []).mpr (by simpa using hpercent.fits)

def thirdLost : Bytes :=
  ascii "3 packets transmitted, 2 received, 33.3333% packet loss, time 2003ms"

/-- The point counts as -2 ten thousands, and the rate is a number far above 1. Without
a space in front there is an exception. -/
theorem fraction_not_robust :
    (∃ status, Returns (fun k => getPingStatus k thirdLost .new) (status, some 0) ∧
      status.lossRate = 3283333 / 100) ∧ ¬ Robust thirdLost ∧
    (∃ status, Returns (fun k => getPingStatus k (ascii "packet loss") .new) (status, none)) ∧
    ¬ Robust (ascii "packet loss") := by
  have hread : getPingStatus 3 thirdLost .new =
      done (⟨thirdLost, 3283333 / 100, 0, 0, 0, List.replicate 16 0⟩, some 0) := by
    decide +kernel
  have hthrown : getPingStatus 3 (ascii "packet loss") .new =
      done (⟨ascii "packet loss", 0, 0, 0, 0, List.replicate 16 0⟩, none) := by decide +kernel
  refine ⟨⟨_, ⟨3, hread⟩, rfl⟩, fun h => ?_, ⟨_, 3, hthrown⟩, fun h => ?_⟩
  · have hhigh : ¬ (behind thirdLost (thirdLost.splitOn 10)).lossRate ≤ 1 := by decide +kernel
    exact hhigh (h.range _ (List.prefix_refl _)).2
  · obtain ⟨status, code, hret⟩ := h.returns
    have := hret.unique (getPingStatus_progressive _ _) ⟨3, hthrown⟩
    cases (Prod.mk.inj this).2

end QyUtil.Ping
