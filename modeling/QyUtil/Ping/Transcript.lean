import QyUtil.Ping.LossRate

/-! # The transcripts of the command

What `ping` prints begins with a line that names the host and its address. Of the lines
behind it, in any order, one tells the loss and at most one the times, and the others
do not matter. All numbers are read as they are meant, and of the address what stands in
front of a closing parenthesis.
-/

namespace QyUtil.Ping

open Loops Outcome Turn Bytes Search

variable {status : PingStatus} {text line host ip w a b c d s : Bytes} {lines : List Bytes} {p : ℕ}
  {q : Option ℕ} {x y z v : ℚ} {t : Option (ℚ × ℚ × ℚ)}

inductive Numeral : Bytes → ℚ → Prop where

  | whole {w : Bytes} : w ≠ [] → (∀ b ∈ w, isDigit b = true) → Numeral w (digitsValue w)

  | point {w f : Bytes} : w ≠ [] ∨ f ≠ [] → (∀ b ∈ w ++ f, isDigit b = true) →
      Numeral (w ++ 46 :: f) (digitsValue w + digitsValue f / 10 ^ f.length)

def nameLine (host ip rest : Bytes) : Bytes :=
  ascii "PING " ++ (host ++ (ascii " (" ++ (ip ++ (ascii ") " ++ rest))))

def LossLine (p : ℕ) (line : Bytes) : Prop :=
  ∃ pre ds post, line = pre ++ 32 :: (ds ++ ascii "% packet loss" ++ post) ∧ ds ≠ [] ∧
    (∀ d ∈ ds, isDigit d = true) ∧ digitsValue ds = p ∧ p ≤ 100 ∧
    search (ascii "packet loss") line = some (pre.length + 1 + ds.length + 2)

def timesLine (a b c d : Bytes) : Bytes :=
  ascii "rtt min/avg/max/mdev = " ++ (a ++ 47 :: (b ++ 47 :: (c ++ 47 :: (d ++ ascii " ms"))))

/-- The lines behind the first one: at most one tells the loss, and at most one the times. -/
inductive Later : List Bytes → Option ℕ → Option (ℚ × ℚ × ℚ) → Prop where

  | nil : Later [] none none

  | other {l : Bytes} {lines : List Bytes} {q : Option ℕ} {t : Option (ℚ × ℚ × ℚ)} :
      search (ascii "packet loss") l = none → search (ascii "rtt min/avg/max") l = none →
      Later lines q t → Later (l :: lines) q t

  | loss {l : Bytes} {lines : List Bytes} {p : ℕ} {t : Option (ℚ × ℚ × ℚ)} :
      LossLine p l → search (ascii "rtt min/avg/max") l = none →
      Later lines none t → Later (l :: lines) (some p) t

  | times {a b c d : Bytes} {x y z v : ℚ} {lines : List Bytes} {q : Option ℕ} :
      Numeral a x → Numeral b y → Numeral c z → Numeral d v →
      Later lines q none → Later (timesLine a b c d :: lines) q (some (x, y, z))

/-- A whole transcript, of which only the last line need not be ended. -/
structure Printed (host ip text : Bytes) (p : ℕ) (t : Option (ℚ × ℚ × ℚ)) : Prop where
  no_paren : (40 : UInt8) ∉ host ∧ (41 : UInt8) ∉ host
  size : 1 ≤ ip.length ∧ ip.length ≤ 15
  form : ∃ rest lines, text = [10].intercalate (nameLine host ip rest :: lines) ∧
    (∀ l ∈ nameLine host ip rest :: lines, (10 : UInt8) ∉ l) ∧
    search (ascii "packet loss") (nameLine host ip rest) = none ∧
    search (ascii "rtt min/avg/max") (nameLine host ip rest) = none ∧ Later lines (some p) t

/-- A status with this loss and these times, where there are any. -/
def PingStatus.told (status : PingStatus) (q : Option ℕ) (t : Option (ℚ × ℚ × ℚ)) : PingStatus :=
  { status with
    lossRate := (q.map fun p : ℕ => (p : ℚ) / 100).getD status.lossRate
    minrtt := (t.map (·.1)).getD status.minrtt
    avgrtt := (t.map (·.2.1)).getD status.avgrtt
    maxrtt := (t.map (·.2.2)).getD status.maxrtt }

theorem digitsValue_append (w f : Bytes) :
    digitsValue (w ++ f) = digitsValue w * 10 ^ f.length + digitsValue f := by
  induction f using List.reverseRecOn with
  | nil => simp [digitsValue]
  | append_singleton f d ih =>
    rw [← List.append_assoc, digitsValue_concat, digitsValue_concat, ih, List.length_append,
      List.length_singleton, pow_succ]
    ring

theorem Numeral.letters (h : Numeral s x) : ∀ b ∈ s, isDigit b = true ∨ b = 46 := by
  cases h with
  | whole _ hw => exact fun b hb => .inl (hw b hb)
  | point _ hd =>
    intro b hb
    rcases List.mem_append.mp hb with hb | hb
    · exact .inl (hd b (List.mem_append_left _ hb))
    · rcases List.mem_cons.mp hb with rfl | hb
      · exact .inr rfl
      · exact .inl (hd b (List.mem_append_right _ hb))

theorem Numeral.notMem {b : UInt8} (h : Numeral s x) (hb : isDigit b = false) (hp : b ≠ 46) :
    b ∉ s := by
  intro hmem
  rcases h.letters b hmem with hd | rfl
  · rw [hd] at hb
    cases hb
  · exact hp rfl

theorem Numeral.unsigned (h : Numeral s x) :
    (cString s).dropWhile (fun c => c = 32 || (9 ≤ c && c ≤ 13)) = s ∧ s.head? ≠ some 45 ∧
      s.head? ≠ some 43 := by
  refine ⟨?_, fun hs => h.notMem rfl (by decide) (List.mem_of_mem_head? hs),
    fun hs => h.notMem rfl (by decide) (List.mem_of_mem_head? hs)⟩
  rw [cString_eq_self (h.notMem rfl (by decide))]
  have hletters := h.letters
  cases s with
  | nil => rfl
  | cons b s =>
    apply List.dropWhile_cons_of_neg
    rw [Bool.not_eq_true]
    rcases hletters b List.mem_cons_self with hd | rfl
    · exact not_space_of_isDigit hd
    · rfl

theorem Numeral.atof (h : Numeral s x) : atof s = x := by
  obtain ⟨hspace, hminus, hplus⟩ := h.unsigned
  simp only [Ping.atof, hspace, hminus, hplus, or_self, if_false]
  cases h with
  | whole _ hw =>
    rw [List.takeWhile_eq_self_iff.mpr hw, List.dropWhile_eq_nil_iff.mpr hw]
    simp
  | @point w f _ hd =>
    have hw : ∀ b ∈ w, isDigit b = true := fun b hb => hd b (List.mem_append_left _ hb)
    have hf : ∀ b ∈ f, isDigit b = true := fun b hb => hd b (List.mem_append_right _ hb)
    have hdot : ¬ isDigit 46 = true := by decide
    rw [List.takeWhile_append_of_pos hw, List.dropWhile_append_of_pos hw,
      List.takeWhile_cons_of_neg hdot, List.dropWhile_cons_of_neg hdot, List.append_nil]
    simp only [List.takeWhile_eq_self_iff.mpr hf, digitsValue_append]
    push_cast
    field_simp

theorem readRttField_piece {n : ℕ} (ha : Numeral a x) (pre rest : Bytes) (hn : pre.length = n)
    (hline : line = pre ++ (a ++ 47 :: rest)) :
    readRttField line n = some (a, n + a.length + 1) := by
  subst hline hn
  rw [readRttField, if_neg (by simp), find_piece (ha.notMem rfl (by decide)), List.drop_left,
    List.length_append]
  simp

theorem readRtt_timesLine (ha : Numeral a x) (hb : Numeral b y) (hc : Numeral c z)
    (d : Bytes) (status : PingStatus) : readRtt (timesLine a b c d) status =
      some { status with minrtt := x, avgrtt := y, maxrtt := z } := by
  have hkey : search (ascii "rtt min/avg/max") (timesLine a b c d) = some 0 :=
    if_pos ⟨ascii "/mdev = " ++ (a ++ 47 :: (b ++ 47 :: (c ++ 47 :: (d ++ ascii " ms")))), rfl⟩
  have hlen : (ascii "rtt min/avg/max/mdev = ").length = 23 := rfl
  have hmin : readRttField (timesLine a b c d) 23 = some (a, 23 + a.length + 1) :=
    readRttField_piece ha _ _ hlen rfl
  have havg : readRttField (timesLine a b c d) (23 + a.length + 1) =
      some (b, 23 + a.length + 1 + b.length + 1) :=
    readRttField_piece hb (ascii "rtt min/avg/max/mdev = " ++ (a ++ [47]))
      (c ++ 47 :: (d ++ ascii " ms"))
      (by simp only [List.length_append, hlen, List.length_singleton]; omega)
      (by simp only [timesLine, List.append_assoc, List.singleton_append])
  have hmax : readRttField (timesLine a b c d) (23 + a.length + 1 + b.length + 1) =
      some (c, 23 + a.length + 1 + b.length + 1 + c.length + 1) :=
    readRttField_piece hc (ascii "rtt min/avg/max/mdev = " ++ (a ++ (47 :: (b ++ [47]))))
      (d ++ ascii " ms")
      (by simp only [List.length_append, hlen, List.length_cons, List.length_nil]; omega)
      (by simp only [timesLine, List.append_assoc, List.cons_append, List.nil_append])
  simp only [readRtt, find_zero, hkey, hmin, havg, hmax, ha.atof, hb.atof, hc.atof,
    Option.bind_eq_bind, Option.bind_some]
  rfl

theorem timesLine_loss (ha : Numeral a x) (hb : Numeral b y) (hc : Numeral c z)
    (hd : Numeral d v) : search (ascii "packet loss") (timesLine a b c d) = none := by
  have hp {s : Bytes} {x : ℚ} (h : Numeral s x) : (112 : UInt8) ∉ s := h.notMem rfl (by decide)
  have hline : (112 : UInt8) ∉ timesLine a b c d := by
    simp only [timesLine, List.mem_append, List.mem_cons, hp ha, hp hb, hp hc, hp hd]
    decide
  have hnone := search_append_of_notMem hline (ascii "acket loss") []
  rw [List.append_nil] at hnone
  exact hnone

theorem Later.readLines (h : Later lines q t) :
    ∀ status, readLines false lines status = (status.told q t, false) := by
  induction h with
  | nil => exact fun _ => rfl
  | other hloss hrtt _ ih =>
    intro status
    simp only [Ping.readLines, Bool.false_eq_true, if_false, readLoss_none hloss,
      readRtt_none hrtt, ih]
  | loss hline hrtt _ ih =>
    intro status
    obtain ⟨pre, ds, post, hform, -, hd, rfl, -, hfind⟩ := hline
    simp only [Ping.readLines, Bool.false_eq_true, if_false, readLoss_percent hd hform hfind,
      readRtt_none hrtt, ih]
    rfl
  | times ha hb hc hd _ ih =>
    intro status
    simp only [Ping.readLines, Bool.false_eq_true, if_false,
      readLoss_none (timesLine_loss ha hb hc hd), readRtt_timesLine ha hb hc, ih]
    rfl

/-- The address that is read: what is in front of a closing parenthesis, up to a NUL. -/
def addressText (ip : Bytes) : Bytes := cString (ip.takeWhile (· ≠ 41))

theorem addressText_eq_iff : addressText ip = ip ↔ (41 : UInt8) ∉ ip ∧ (0 : UInt8) ∉ ip := by
  constructor
  · intro h
    refine ⟨fun h41 => ?_, ?_⟩
    · rw [← h] at h41
      exact notMem_takeWhile 41 ip ((List.takeWhile_sublist _).subset h41)
    · rw [← h]
      exact zero_notMem_cString _
  · rintro ⟨h41, h0⟩
    rw [addressText, takeWhile_of_notMem h41, cString_eq_self h0]

theorem strncpy_new (w : Bytes) (hw : w.length ≤ 16) :
    strncpy (List.replicate 16 0) w w.length =
      cString w ++ List.replicate (16 - (cString w).length) 0 := by
  have hle : (cString w).length ≤ w.length := (List.takeWhile_sublist _).length_le
  have htake : (cString w ++ List.replicate w.length 0).take w.length =
      cString w ++ List.replicate (w.length - (cString w).length) 0 := by
    rw [List.take_append, List.take_of_length_le hle, List.take_replicate]
    congr 2
    omega
  rw [strncpy, htake, writeAt, List.take_zero, List.nil_append, List.drop_replicate,
    List.append_assoc, List.replicate_append_replicate, Nat.zero_add, List.length_append,
    List.length_replicate]
  congr 2
  omega

theorem readIp_piece {pre : Bytes} (hne : pre ≠ [])
    (hpre : (40 : UInt8) ∉ pre ∧ (41 : UInt8) ∉ pre) (hw : (41 : UInt8) ∉ w) (t : Bytes)
    (status : PingStatus) :
    readIp (pre ++ 40 :: (w ++ 41 :: t)) status = { status with
      ip := strncpy status.ip w (if w.length < 16 then w.length else 15) } := by
  have hopen : search [40] (pre ++ 40 :: (w ++ 41 :: t)) = some pre.length :=
    search_append_cons hpre.1 [] _
  have hclose : search [41] (pre ++ 40 :: (w ++ 41 :: t)) = some (pre ++ 40 :: w).length := by
    have hnot : (41 : UInt8) ∉ pre ++ 40 :: w := by
      simp only [List.mem_append, List.mem_cons, hpre.2, hw]
      decide
    rw [← List.cons_append, ← List.append_assoc]
    exact search_append_cons hnot [] t
  have hsize : (pre ++ 40 :: w).length - pre.length - 1 = w.length := by
    rw [List.length_append, List.length_cons]
    omega
  have hpos : 0 < pre.length ∧ pre.length < (pre ++ 40 :: w).length := by
    rw [List.length_append, List.length_cons]
    exact ⟨List.length_pos_iff.mpr hne, by omega⟩
  have hdrop : (pre ++ 40 :: (w ++ 41 :: t)).drop (pre.length + 1) = w ++ 41 :: t := by
    rw [← List.drop_drop, List.drop_left]
    rfl
  simp only [readIp, find_zero, hopen, hclose, if_pos hpos, hsize, hdrop, List.take_left]

theorem readIp_nameLine (hhost : (40 : UInt8) ∉ host ∧ (41 : UInt8) ∉ host)
    (hip : ip.length ≤ 15) (rest : Bytes) (hnew : status.ip = List.replicate 16 0) :
    readIp (nameLine host ip rest) status = { status with
      ip := addressText ip ++ List.replicate (16 - (addressText ip).length) 0 } := by
  obtain ⟨t, ht⟩ := exists_takeWhile_append 41 ip (32 :: rest)
  have hle : (ip.takeWhile (· ≠ 41)).length ≤ 15 :=
    (List.takeWhile_sublist _).length_le.trans hip
  have hform : nameLine host ip rest = ascii "PING " ++ (host ++ [32]) ++
      40 :: (ip.takeWhile (· ≠ 41) ++ 41 :: t) := by
    rw [← ht]
    simp [nameLine, ascii]
  have hpre {b : UInt8} (hb : b ∉ ascii "PING " ++ [32]) (hh : b ∉ host) :
      b ∉ ascii "PING " ++ (host ++ [32]) := by
    simp only [List.mem_append, not_or] at hb ⊢
    exact ⟨hb.1, hh, hb.2⟩
  rw [hform, readIp_piece (by simp [ascii]) ⟨hpre (by decide) hhost.1, hpre (by decide) hhost.2⟩
    (notMem_takeWhile 41 ip), if_pos (by omega), hnew,
    strncpy_new _ (by omega), addressText]

/-- Of a transcript the address, the loss and the times are stored; the address is the one
that is printed exactly when it has no closing parenthesis and no NUL. -/
theorem getPingStatus_printed (h : Printed host ip text p t) :
    ∃ status, Returns (fun k => getPingStatus k text .new) (status, some 0) ∧
      status.ip = addressText ip ++ List.replicate (16 - (addressText ip).length) 0 ∧
      (addressText ip = ip ↔ (41 : UInt8) ∉ ip ∧ (0 : UInt8) ∉ ip) ∧
      status.lossRate = p / 100 ∧
      (status.minrtt, status.avgrtt, status.maxrtt) = t.getD (0, 0, 0) := by
  obtain ⟨rest, lines, rfl, hnl, hloss, hrtt, hlater⟩ := h.form
  have hname : nameLine host ip rest ≠ [] := by simp [nameLine, ascii]
  have hread (status : PingStatus) (hnew : status.ip = List.replicate 16 0) :
      readLines true (nameLine host ip rest :: lines) status = (({ status with
        ip := addressText ip ++ List.replicate (16 - (addressText ip).length) 0 } :
          PingStatus).told (some p) t, false) := by
    simp only [readLines, if_true, readIp_nameLine h.no_paren h.size.2 rest hnew,
      readLoss_none hloss, readRtt_none hrtt, hlater.readLines]
  have hret := getPingStatus_readLines hnl rfl (intercalate_ne_nil hname [] lines) .new
  rw [hread _ rfl] at hret
  exact ⟨_, hret, rfl, addressText_eq_iff, rfl, by cases t <;> rfl⟩

def halfLost : Bytes :=
  ascii "PING a.b (10.0.0.1) 56(84) bytes of data.\n" ++
    ascii "rtt min/avg/max/mdev = 7/7.5/08/0.500 ms\n" ++
    ascii "2 packets transmitted, 1 received, 50% packet loss, time 1001ms\n"

theorem getPingStatus_halfLost :
    ∃ status, Returns (fun k => getPingStatus k halfLost .new) (status, some 0) ∧
      status.ip = ascii "10.0.0.1" ++ List.replicate 8 0 ∧ status.lossRate = 1 / 2 ∧
      (status.minrtt, status.avgrtt, status.maxrtt) = (7, 15 / 2, 8) := by
  have hmin : Numeral (ascii "7") 7 := by
    convert Numeral.whole (w := ascii "7") (by decide) (by decide +kernel)
    decide +kernel
  have havg : Numeral (ascii "7.5") (15 / 2) := by
    convert Numeral.point (w := ascii "7") (f := ascii "5") (by decide) (by decide +kernel)
    · decide +kernel
    · decide +kernel
  have hmax : Numeral (ascii "08") 8 := by
    convert Numeral.whole (w := ascii "08") (by decide) (by decide +kernel)
    decide +kernel
  have hmdev := Numeral.point (w := ascii "0") (f := ascii "500") (by decide) (by decide +kernel)
  have hline : LossLine 50
      (ascii "2 packets transmitted, 1 received, 50% packet loss, time 1001ms") :=
    ⟨ascii "2 packets transmitted, 1 received,", ascii "50", ascii ", time 1001ms",
      by decide +kernel, by decide, by decide +kernel, by decide +kernel, by decide,
      by decide +kernel⟩
  have hlater : Later [timesLine (ascii "7") (ascii "7.5") (ascii "08") (ascii "0.500"),
      ascii "2 packets transmitted, 1 received, 50% packet loss, time 1001ms", []]
      (some 50) (some (7, 15 / 2, 8)) :=
    .times hmin havg hmax hmdev (.loss hline (by decide +kernel) (.other rfl rfl .nil))
  have hprinted : Printed (ascii "a.b") (ascii "10.0.0.1") halfLost 50 (some (7, 15 / 2, 8)) :=
    ⟨by decide, by decide, ascii "56(84) bytes of data.", _, by decide +kernel,
      by decide +kernel, by decide +kernel, by decide +kernel, hlater⟩
  obtain ⟨status, hret, hip, -, hloss, htimes⟩ := getPingStatus_printed hprinted
  exact ⟨status, hret, hip, by rw [hloss]; norm_num, htimes⟩

/-- An address with a parenthesis in it is cut there. -/
theorem getPingStatus_parenthesis :
    Printed (ascii "h") (ascii "1)2") (ascii "PING h (1)2) \n 0% packet loss") 0 none ∧
    ∃ status, Returns (fun k => getPingStatus k (ascii "PING h (1)2) \n 0% packet loss") .new)
        (status, some 0) ∧
      status.ip = ascii "1" ++ List.replicate 15 0 ∧
      status.ip ≠ ascii "1)2" ++ List.replicate 13 0 := by
  have hline : LossLine 0 (ascii " 0% packet loss") :=
    ⟨[], ascii "0", [], by decide +kernel, by decide, by decide +kernel, by decide +kernel,
      by decide, by decide +kernel⟩
  refine ⟨⟨by decide, by decide, [], [ascii " 0% packet loss"], by decide +kernel,
    by decide +kernel, by decide +kernel, by decide +kernel,
    .loss hline (by decide +kernel) .nil⟩, ?_⟩
  have hread : getPingStatus 3 (ascii "PING h (1)2) \n 0% packet loss") .new =
      done (⟨ascii "PING h (1)2) \n 0% packet loss", 0, 0, 0, 0,
        ascii "1" ++ List.replicate 15 0⟩, some 0) := by decide +kernel
  exact ⟨_, ⟨3, hread⟩, rfl, by decide⟩

end QyUtil.Ping
