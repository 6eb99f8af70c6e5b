import QyUtil.Ping.Matching
import QyUtil.Ping.Statistics

/-! # The loss rate

Counting gives the loss in percent. The digits that the command prints are a number of
percent, too, but what is stored of them is the hundredth part. So the two only agree
when nothing is lost.
-/

namespace QyUtil.Ping

open Loops Outcome Turn Bytes Search

variable {c : Config} {env : ℕ → Attempt} {status status' : PingStatus} {interval socket : ℤ}
  {text line l ds : Bytes} {before after lines : List Bytes} {n p r : ℕ}

/-- The number of attempts that are recorded as received. -/
def replies (s : Pinger) : ℕ := s.result.countP PingState.brecv

theorem tally_counts (result : List PingState) : ∀ t : Tally,
    (result.foldl Tally.add t).sendc = t.sendc + result.countP PingState.bsend ∧
    (result.foldl Tally.add t).recvc = t.recvc + result.countP PingState.brecv := by
  induction result with
  | nil => simp
  | cons it result ih =>
    intro t
    obtain ⟨hsend, hrecv⟩ := ih (t.add it)
    rw [List.foldl_cons, hsend, hrecv, List.countP_cons, List.countP_cons]
    cases hs : it.bsend <;> cases hr : it.brecv <;> simp [Tally.add, hs, hr] <;> omega

/-- A record says that its request was sent only together with a reply. -/
theorem attempt_flags (c : Config) (a : Attempt) (s : Pinger) :
    ∃ st, (attempt c a s).result = s.result ++ [st] ∧ st.bsend = st.brecv := by
  have hsend := (sendData_frame (c := c) (a := a) (s := s)).2
  have hread := (readData_frame (c := c) (a := a) (s := (sendData c a s).2)).2
  simp only [attempt]
  split_ifs
  · exact ⟨⟨a.duration, true, true⟩, by rw [← hsend, ← hread]; rfl, rfl⟩
  · exact ⟨⟨0, false, false⟩, by rw [← hsend, ← hread]; rfl, rfl⟩
  · exact ⟨⟨0, false, false⟩, by rw [← hsend]; rfl, rfl⟩

theorem attempts_flags (c : Config) (env : ℕ → Attempt) (n : ℕ) :
    ∀ st ∈ (attempts c env n).result, st.bsend = st.brecv := by
  induction n with
  | zero => simp [attempts, Pinger.new]
  | succ n ih =>
    obtain ⟨st, hres, hst⟩ := attempt_flags c (env n) (attempts c env n)
    intro st' hmem
    rw [attempts, hres] at hmem
    rcases List.mem_append.mp hmem with h | h
    · exact ih st' h
    · obtain rfl := List.mem_singleton.mp h
      exact hst

theorem start_flags (c : Config) (socket : ℤ) (env : ℕ → Attempt) :
    ∀ st ∈ (start c socket env).result, st.bsend = st.brecv := by
  unfold start
  split_ifs
  · simp [Pinger.new]
  · exact attempts_flags c env _

theorem start_length (c : Config) (socket : ℤ) (env : ℕ → Attempt) :
    (start c socket env).result.length = if socket = 0 then 0 else effectiveTimes c.times := by
  unfold start
  split_ifs
  · rfl
  · exact (attempts_result c env _).2.1

theorem replies_le (c : Config) (socket : ℤ) (env : ℕ → Attempt) :
    replies (start c socket env) ≤ effectiveTimes c.times := by
  have hlen := start_length c socket env
  have hle : replies (start c socket env) ≤ (start c socket env).result.length :=
    List.countP_le_length
  split_ifs at hlen <;> omega

theorem timesOf_ne_zero (times : ℤ) : (timesOf times : ℚ) ≠ 0 := by
  rw [Int.cast_ne_zero, timesOf]
  split_ifs with h
  · decide
  · exact h

theorem timesOf_eq {times : ℤ} (h : 0 < effectiveTimes times) :
    (timesOf times : ℚ) = effectiveTimes times := by
  have heq : timesOf times = effectiveTimes times := by
    unfold effectiveTimes at h ⊢
    rw [timesOf]
    split_ifs at h ⊢ <;> omega
  rw [heq, Int.cast_natCast]

theorem pingStatus_lossRate (c : Config) (interval socket : ℤ) (env : ℕ → Attempt) :
    (pingStatus c interval socket env).lossRate =
      100 * (timesOf c.times - replies (start c socket env)) / timesOf c.times := by
  have hsent : (start c socket env).result.countP PingState.bsend =
      replies (start c socket env) :=
    List.countP_congr fun st hst => by rw [start_flags c socket env st hst]
  obtain ⟨hsend, hrecv⟩ := tally_counts (start c socket env).result
    ⟨0, 0, 0, startMin interval, 0⟩
  rw [hsent] at hsend
  rw [← replies] at hrecv
  have hne := timesOf_ne_zero c.times
  rw [pingStatus, statistics]
  simp only [hsend, hrecv]
  push_cast
  field_simp
  ring

/-- Whatever the number of attempts, nothing is divided by zero, and the loss rate is the
percentage of the attempts without a reply. -/
theorem lossRate_percent (c : Config) (interval socket : ℤ) (env : ℕ → Attempt) :
    (timesOf c.times : ℚ) ≠ 0 ∧ 2 * (timesOf c.times : ℚ) ≠ 0 ∧
    (socket ≠ 0 → (start c socket env).result.length = effectiveTimes c.times) ∧
    ∀ T r, T = effectiveTimes c.times → r = replies (start c socket env) → 0 < T →
      (pingStatus c interval socket env).lossRate = 100 * (T - r) / T ∧
      0 ≤ (pingStatus c interval socket env).lossRate ∧
      (pingStatus c interval socket env).lossRate ≤ 100 := by
  have hne := timesOf_ne_zero c.times
  refine ⟨hne, mul_ne_zero two_ne_zero hne, fun hs => ?_, ?_⟩
  · rw [start_length, if_neg hs]
  · rintro T r hT rfl hpos
    have htimes : (timesOf c.times : ℚ) = T := by rw [hT, timesOf_eq (hT ▸ hpos)]
    have hpos' : (0 : ℚ) < T := Nat.cast_pos.mpr hpos
    have hle : (replies (start c socket env) : ℚ) ≤ T :=
      Nat.cast_le.mpr (hT ▸ replies_le c socket env)
    have hge : (0 : ℚ) ≤ replies (start c socket env) := Nat.cast_nonneg _
    rw [pingStatus_lossRate, htimes]
    refine ⟨rfl, div_nonneg (by linarith) hpos'.le, ?_⟩
    rw [div_le_iff₀ hpos']
    linarith

/-- A line of the output that tells a loss of `p` percent. -/
def SummaryLine (p : ℕ) (line : Bytes) : Prop :=
  ∃ pre post, line = pre ++ 32 :: (decimal p ++ ascii "% packet loss" ++ post) ∧
    search (ascii "packet loss") line = some (pre.length + 1 + (decimal p).length + 2)

/-- The output of the command: one line tells the loss, after which come the times. -/
structure Transcript (p : ℕ) (text : Bytes) : Prop where
  lines : ∃ before line after, text = [10].intercalate (before ++ line :: after) ∧
    (∀ l ∈ before ++ line :: after, (10 : UInt8) ∉ l) ∧ SummaryLine p line ∧
    (∀ l ∈ before, search (ascii "packet loss") l = none ∧
      search (ascii "rtt min/avg/max") l = none) ∧
    ∀ l ∈ after, search (ascii "packet loss") l = none

theorem digitsValue_concat (ds : Bytes) (d : UInt8) :
    digitsValue (ds ++ [d]) = digitsValue ds * 10 + (d.toNat - 48) := by
  simp [digitsValue]

/-- The number that characters make up when each counts as a decimal digit, whatever it is. -/
def charsValue (ds : Bytes) : ℤ := ds.foldl (fun v c => v * 10 + ((c.toNat : ℤ) - 48)) 0

theorem charsValue_concat (ds : Bytes) (d : UInt8) :
    charsValue (ds ++ [d]) = charsValue ds * 10 + ((d.toNat : ℤ) - 48) := by
  simp [charsValue]

theorem charsValue_digits (hd : ∀ d ∈ ds, isDigit d = true) : charsValue ds = digitsValue ds := by
  induction ds using List.reverseRecOn with
  | nil => rfl
  | append_singleton ds d ih =>
    have hge : 48 ≤ d.toNat := (toNat_of_isDigit (hd d (by simp))).1
    rw [charsValue_concat, digitsValue_concat, ih fun x hx => hd x (List.mem_append_left _ hx)]
    push_cast [hge]
    rfl

theorem lossDigits_chars (hd : (32 : UInt8) ∉ ds) (left : Bytes) :
    ∀ lossRate weight, lossDigits (ds.reverse ++ 32 :: left) lossRate weight =
      some (lossRate + charsValue ds * weight) := by
  induction ds using List.reverseRecOn with
  | nil => simp [lossDigits, charsValue]
  | append_singleton ds d ih =>
    intro lossRate weight
    obtain ⟨hds, hne⟩ : (32 : UInt8) ∉ ds ∧ d ≠ 32 := by simpa [eq_comm] using hd
    rw [List.reverse_append, List.reverse_singleton, List.singleton_append, List.cons_append,
      lossDigits, if_neg hne, ih hds, charsValue_concat]
    ring_nf

theorem readLoss_percent {pre post : Bytes} (hd : ∀ d ∈ ds, isDigit d = true)
    (hline : line = pre ++ 32 :: (ds ++ ascii "% packet loss" ++ post))
    (hfind : search (ascii "packet loss") line = some (pre.length + 1 + ds.length + 2))
    (status : PingStatus) :
    readLoss line status = some { status with lossRate := digitsValue ds / 100 } := by
  have hdigits : (line.take (pre.length + 1 + ds.length + 2 - 2)).reverse =
      ds.reverse ++ 32 :: pre.reverse := by
    have hpre : line = pre ++ 32 :: ds ++ (ascii "% packet loss" ++ post) := by
      simp [hline]
    rw [hpre, List.take_left' (by simp; omega)]
    simp
  have hspace : (32 : UInt8) ∉ ds := fun h => absurd (hd 32 h) (by decide)
  simp only [readLoss, find_zero, hfind, hdigits, lossDigits_chars hspace, charsValue_digits hd]
  simp

theorem readLoss_summary (h : SummaryLine p line) (status : PingStatus) :
    readLoss line status = some { status with lossRate := p / 100 } := by
  obtain ⟨pre, post, hline, hfind⟩ := h
  rw [readLoss_percent (fun _ => isDigit_of_mem_decimal) hline hfind, digitsValue_decimal]

theorem readLoss_none (h : search (ascii "packet loss") line = none) (status : PingStatus) :
    readLoss line status = some status := by
  simp only [readLoss, find_zero, h]

theorem readRtt_none (h : search (ascii "rtt min/avg/max") line = none) (status : PingStatus) :
    readRtt line status = some status := by
  simp only [readRtt, find_zero, h]

theorem readRtt_frame (h : readRtt line status = some status') :
    status'.lossRate = status.lossRate ∧ status'.ip = status.ip := by
  unfold readRtt at h
  split at h
  · obtain rfl := Option.some.inj h
    exact ⟨rfl, rfl⟩
  · obtain ⟨_, -, h⟩ := Option.bind_eq_some_iff.mp h
    obtain ⟨_, -, h⟩ := Option.bind_eq_some_iff.mp h
    obtain ⟨_, -, h⟩ := Option.bind_eq_some_iff.mp h
    obtain rfl := Option.some.inj h
    exact ⟨rfl, rfl⟩

theorem readIp_lossRate (line : Bytes) (status : PingStatus) :
    (readIp line status).lossRate = status.lossRate := by
  unfold readIp
  split
  · split_ifs <;> rfl
  · rfl

theorem readLines_before (hb : ∀ l ∈ before, search (ascii "packet loss") l = none ∧
    search (ascii "rtt min/avg/max") l = none) (lines : List Bytes) : ∀ first status,
    ∃ first' status', readLines first (before ++ lines) status =
      readLines first' lines status' := by
  induction before with
  | nil => exact fun first status => ⟨first, status, rfl⟩
  | cons l before ih =>
    intro first status
    obtain ⟨⟨hloss, hrtt⟩, hrest⟩ := List.forall_mem_cons.mp hb
    simp only [List.cons_append, readLines, readLoss_none hloss, readRtt_none hrtt]
    exact ih hrest _ _

theorem readLines_after (ha : ∀ l ∈ after, search (ascii "packet loss") l = none) :
    ∀ first status, (readLines first after status).1.lossRate = status.lossRate := by
  induction after with
  | nil => exact fun _ _ => rfl
  | cons l after ih =>
    intro first status
    obtain ⟨hloss, hrest⟩ := List.forall_mem_cons.mp ha
    have hip : (if first then readIp l status else status).lossRate = status.lossRate := by
      split_ifs
      · exact readIp_lossRate l status
      · rfl
    simp only [readLines, readLoss_none hloss]
    cases hrtt : readRtt l (if first then readIp l status else status) with
    | none => exact hip
    | some status' =>
      simp only
      rw [ih hrest, (readRtt_frame hrtt).1, hip]

theorem readLines_summary (h : SummaryLine p line)
    (ha : ∀ l ∈ after, search (ascii "packet loss") l = none) (first : Bool)
    (status : PingStatus) : (readLines first (line :: after) status).1.lossRate = p / 100 := by
  simp only [readLines, readLoss_summary h]
  split
  · rfl
  · next status' hrtt => rw [readLines_after ha, (readRtt_frame hrtt).1]

theorem strSplitTurn_piece {spliter : UInt8} {pre rest : Bytes} {findpos : Option ℕ}
    (hl : spliter ∉ l) (hpos : ∃ q ∈ findpos, q < (pre ++ (l ++ spliter :: rest)).length)
    (acc : List Bytes) :
    Next (strSplitTurn spliter (pre ++ (l ++ spliter :: rest))) ⟨pre.length, findpos, acc⟩
      ⟨(pre ++ (l ++ [spliter])).length, some (pre ++ l).length, acc ++ [l]⟩ := by
  simp only [Next, strSplitTurn, if_pos hpos, find_piece hl, List.drop_left, pure_eq]
  simp [Nat.add_assoc]

theorem strSplitTurn_last {spliter : UInt8} {pre : Bytes} {findpos : Option ℕ}
    (hl : spliter ∉ l) (hpos : ∃ q ∈ findpos, q < (pre ++ l).length) (acc : List Bytes) :
    Next (strSplitTurn spliter (pre ++ l)) ⟨pre.length, findpos, acc⟩ ⟨0, none, acc ++ [l]⟩ := by
  simp only [Next, strSplitTurn, if_pos hpos, find_rest hl, List.drop_left, pure_eq]

theorem strSplit_lines {spliter : UInt8} (lines : List Bytes) (hne : lines ≠ []) :
    ∀ pre findpos acc, (∀ l ∈ lines, spliter ∉ l) →
    (∃ q ∈ findpos, q < (pre ++ [spliter].intercalate lines).length) →
    Returns (fun k => loop (strSplitTurn spliter (pre ++ [spliter].intercalate lines)) k
      ⟨pre.length, findpos, acc⟩) (acc ++ lines) := by
  induction lines with
  | nil => exact absurd rfl hne
  | cons l lines ih =>
    intro pre findpos acc hl hpos
    obtain ⟨hl₀, hls⟩ := List.forall_mem_cons.mp hl
    cases lines with
    | nil =>
      rw [List.intercalate_singleton] at hpos ⊢
      refine (strSplitTurn_last hl₀ hpos acc).returns (returns_of_exit ?_)
      simp [strSplitTurn]
    | cons l' lines =>
      have hform : pre ++ [spliter].intercalate (l :: l' :: lines) =
          pre ++ (l ++ spliter :: [spliter].intercalate (l' :: lines)) := by
        rw [List.intercalate_cons_cons, List.append_assoc, List.singleton_append]
      have hassoc : pre ++ (l ++ spliter :: [spliter].intercalate (l' :: lines)) =
          pre ++ (l ++ [spliter]) ++ [spliter].intercalate (l' :: lines) := by simp
      rw [hform] at hpos ⊢
      refine (strSplitTurn_piece hl₀ hpos acc).returns ?_
      have hrest := ih (by simp) (pre ++ (l ++ [spliter])) (some (pre ++ l).length) (acc ++ [l]) hls
        ⟨_, rfl, by simp only [List.length_append, List.length_singleton]; omega⟩
      rw [hassoc, List.append_cons acc l (l' :: lines)]
      exact hrest

theorem intercalate_ne_nil (hline : line ≠ []) (before after : List Bytes) :
    [10].intercalate (before ++ line :: after) ≠ [] := by
  cases before with
  | nil => cases after <;> simp [List.intercalate_cons_cons, hline]
  | cons l before =>
    rw [List.cons_append, List.intercalate_cons_of_ne_nil (by simp)]
    simp

theorem getPingStatus_readLines (hnl : ∀ l ∈ lines, (10 : UInt8) ∉ l)
    (htext : [10].intercalate lines = text) (hne : text ≠ []) (status : PingStatus) :
    Returns (fun k => getPingStatus k text status)
      ((readLines true lines { status with res := text }).1,
        if (readLines true lines { status with res := text }).2 then none else some 0) := by
  subst htext
  have hlines : lines ≠ [] := by
    rintro rfl
    exact hne rfl
  obtain ⟨k, hk⟩ := strSplit_lines lines hlines [] (some 0) [] hnl
    ⟨0, rfl, List.length_pos_iff.mpr hne⟩
  have hsplit : strSplit k 10 ([10].intercalate lines) = done lines := hk
  refine ⟨k, ?_⟩
  simp only [getPingStatus, if_neg hne, hsplit, done_bind]
  rfl

theorem getPingStatus_lossRate (h : Transcript p text) (status : PingStatus) :
    ∃ status' code, Returns (fun k => getPingStatus k text status) (status', code) ∧
      status'.lossRate = p / 100 := by
  obtain ⟨before, line, after, rfl, hnl, hsum, hb, ha⟩ := h.lines
  have hline : line ≠ [] := by
    obtain ⟨pre, post, rfl, -⟩ := hsum
    simp
  obtain ⟨first, status', hread⟩ := readLines_before hb (line :: after) true
    { status with res := [10].intercalate (before ++ line :: after) }
  refine ⟨_, _, getPingStatus_readLines hnl rfl (intercalate_ne_nil hline before after) status, ?_⟩
  rw [hread]
  exact readLines_summary hsum ha first status'

/-- After `n` attempts with `r` replies, and for the command's text with the same loss,
the two loss rates are equal exactly when there is no loss. -/
theorem lossRate_agrees_iff (hn : 0 < n) (ht : c.times = n)
    (hr : replies (start c socket env) = r) (hle : r ≤ n) (hdvd : n ∣ 100 * (n - r))
    (htext : Transcript (100 * (n - r) / n) text) :
    ∃ status code, Returns (fun k => getPingStatus k text .new) (status, code) ∧
      ((pingStatus c interval socket env).lossRate = status.lossRate ↔ r = n) := by
  obtain ⟨status, code, hret, hloss⟩ := getPingStatus_lossRate htext .new
  refine ⟨status, code, hret, ?_⟩
  have hn' : (n : ℚ) ≠ 0 := by
    rw [Nat.cast_ne_zero]
    exact hn.ne'
  have htimes : timesOf c.times = n := by
    rw [timesOf, ht, if_neg (by omega)]
  rw [pingStatus_lossRate, htimes, hr, hloss, Nat.cast_div hdvd hn']
  push_cast [hle]
  constructor
  · intro h
    field_simp at h
    have : (n : ℚ) - r = 0 := by linarith
    exact_mod_cast (sub_eq_zero.mp this).symm
  · rintro rfl
    simp

def repliedTo (r : ℕ) (k : ℕ) : Attempt :=
  ⟨8, if k < r then some (firstReply.dropLast ++ [UInt8.ofNat (k + 1)]) else none, 1⟩

def fourTimes : Config := ⟨ascii "10.0.0.1", 4, 0, 7⟩

def nothingLost : Bytes :=
  ascii "PING 10.0.0.1 (10.0.0.1) 56(84) bytes of data.\n" ++
    ascii "4 packets transmitted, 4 received, 0% packet loss, time 3004ms"

def quarterLost : Bytes :=
  ascii "PING 10.0.0.1 (10.0.0.1) 56(84) bytes of data.\n" ++
    ascii "4 packets transmitted, 3 received, 25% packet loss, time 3005ms\n" ++
    ascii "rtt min/avg/max/mdev = 0.042/0.050/0.061/0.007 ms\n"

theorem lossRate_agrees_nothingLost :
    ∃ status code, Returns (fun k => getPingStatus k nothingLost .new) (status, code) ∧
      (pingStatus fourTimes 1 3 (repliedTo 4)).lossRate = status.lossRate := by
  have htext : Transcript (100 * (4 - 4) / 4) nothingLost := by
    refine ⟨[ascii "PING 10.0.0.1 (10.0.0.1) 56(84) bytes of data."],
      ascii "4 packets transmitted, 4 received, 0% packet loss, time 3004ms", [], ?_, ?_,
      ⟨ascii "4 packets transmitted, 4 received,", ascii ", time 3004ms", ?_, ?_⟩, ?_, by simp⟩
    · decide +kernel
    · decide +kernel
    · decide +kernel
    · decide +kernel
    · decide +kernel
  obtain ⟨status, code, hret, hiff⟩ :=
    @lossRate_agrees_iff fourTimes (repliedTo 4) 1 3 nothingLost 4 4
      (by decide) rfl (by decide +kernel) (le_refl 4) (by decide) htext
  exact ⟨status, code, hret, hiff.mpr rfl⟩

/-- One packet of four is lost: 25 percent here, a quarter of one percent there. -/
theorem lossRate_differs : replies (start fourTimes 3 (repliedTo 3)) = 3 ∧
    (pingStatus fourTimes 1 3 (repliedTo 3)).lossRate = 25 ∧
    ∃ status, Returns (fun k => getPingStatus k quarterLost .new) (status, some 0) ∧
      status.lossRate = 1 / 4 := by
  have hread : getPingStatus 5 quarterLost .new = done (⟨quarterLost, 1 / 4, 42 / 1000, 1 / 20,
      61 / 1000, ascii "10.0.0.1" ++ List.replicate 8 0⟩, some 0) := by decide +kernel
  exact ⟨by decide +kernel, by decide +kernel, _, ⟨5, hread⟩, rfl⟩

end QyUtil.Ping
