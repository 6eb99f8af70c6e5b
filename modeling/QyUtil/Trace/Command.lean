import QyUtil.Loops.Basic
import QyUtil.Trace.TraceRouter

/-! # Running the command

`open_ping_cmd` prints the command into a buffer, with the host as part of the format, and
puts together what `fgets` reads of the output. The command is the one that is meant
exactly when the host has no percent sign and the buffer has room, and its output arrives
exactly when it has no NUL, however long its lines are.
-/

namespace QyUtil.Trace.Android

open Loops Outcome Turn Bytes

variable {host l m output rest str : Bytes} {k : ℕ}

def cmdBufLen : ℕ := 1024

inductive Fault where
  | format
  | overflow
  | nullPipe
  deriving DecidableEq, Repr

/-- `sprintf` for the formats that occur here. A conversion for which no argument is left is
undefined. -/
def sprintf : Bytes → List ℤ → Option Bytes
  | [], _ => some []
  | 37 :: 37 :: l, args => (sprintf l args).map (37 :: ·)
  | 37 :: 100 :: l, a :: args => (sprintf l args).map (intText a ++ ·)
  | 37 :: _, _ => none
  | b :: l, args => (sprintf l args).map (b :: ·)

def fmtPingOrder (host : Bytes) : Bytes := ascii "ping -t %d -c 1 -w 1 " ++ host

/-- `fgets(line, sizeof(line), pp)` with these bytes left in the pipe. -/
def fgets (rest : Bytes) : Bytes :=
  let head := rest.take (cmdBufLen - 1)
  if 10 ∈ head then head.takeWhile (· ≠ 10) ++ [10] else head

/-- The loop over the lines: what is left in the pipe, and `str_result`. -/
def readTurn (s : Bytes × Bytes) : Outcome Fault (Turn (Bytes × Bytes) Bytes) :=
  match s.1 with
  | [] => pure (.exit s.2)
  | _ => pure (.again (s.1.drop (fgets s.1).length, s.2 ++ cString (fgets s.1)))

/-- `open_ping_cmd`; `shell` is what `popen` makes of a command. -/
def openPingCmd (fuel : ℕ) (shell : Bytes → Option Bytes) (host : Bytes) (index : ℕ) :
    Outcome Fault Bytes :=
  match sprintf (cString (fmtPingOrder host)) [index] with
  | none => fault .format
  | some buf => do
    guard .overflow (buf.length < cmdBufLen)
    match shell buf with
    | none => fault .nullPipe
    | some output => loop readTurn fuel (output, [])

theorem exists_takeWhile {a : UInt8} (h : a ∈ l) : ∃ t, l = l.takeWhile (· ≠ a) ++ a :: t := by
  induction l with
  | nil => cases h
  | cons b l ih =>
    by_cases hb : b = a
    · exact ⟨l, by simp [hb]⟩
    · obtain ⟨t, ht⟩ := ih ((List.mem_cons.mp h).resolve_left (Ne.symm hb))
      refine ⟨t, ?_⟩
      rw [List.takeWhile_cons_of_pos (by simpa using hb), List.cons_append, ← ht]

theorem length_cString_lt (h : 0 ∈ l) : (cString l).length < l.length := by
  obtain ⟨t, ht⟩ := exists_takeWhile h
  have hlen := congrArg List.length ht
  rw [List.length_append, List.length_cons] at hlen
  unfold cString
  omega

theorem fgets_initial (rest : Bytes) : fgets rest <+: rest := by
  have htake := List.take_prefix (cmdBufLen - 1) rest
  unfold fgets
  dsimp only
  split_ifs with h
  · obtain ⟨t, ht⟩ := exists_takeWhile h
    refine .trans ⟨t, ?_⟩ htake
    rw [List.append_assoc, List.singleton_append, ← ht]
  · exact htake

theorem fgets_ne_nil (h : rest ≠ []) : fgets rest ≠ [] := by
  obtain ⟨b, l, rfl⟩ := List.exists_cons_of_ne_nil h
  unfold fgets
  dsimp only
  split_ifs
  · simp
  · exact List.cons_ne_nil _ _

theorem fgets_append_drop (rest : Bytes) : fgets rest ++ rest.drop (fgets rest).length = rest :=
  List.prefix_iff_eq_append.mp (fgets_initial rest)

/-- What has been put together and what is left are the output, as long as no line has lost
something behind a NUL. -/
structure Reads (output : Bytes) (s : Bytes × Bytes) : Prop where
  whole : 0 ∉ output → s.2 ++ s.1 = output
  lossy : 0 ∈ output → 0 ∈ s.1 ∨ s.2.length + s.1.length < output.length
  length : s.2.length + s.1.length ≤ output.length

theorem Reads.step (h : Reads output (rest, str)) :
    Reads output (rest.drop (fgets rest).length, str ++ cString (fgets rest)) := by
  have happend := fgets_append_drop rest
  have hlen := congrArg List.length happend
  have hkept : (cString (fgets rest)).length ≤ (fgets rest).length :=
    (List.takeWhile_sublist _).length_le
  have hle := h.length
  rw [List.length_append] at hlen
  constructor
  · intro hno
    have hwhole := h.whole hno
    have hline : 0 ∉ fgets rest := fun hmem => hno (by
      rw [← hwhole]
      exact List.mem_append_right _ ((fgets_initial rest).subset hmem))
    rw [cString_eq_self hline, List.append_assoc, happend, hwhole]
  · intro hmem
    dsimp only at hle ⊢
    rw [List.length_append]
    rcases h.lossy hmem with hrest | hlt
    · rw [← happend, List.mem_append] at hrest
      rcases hrest with hline | hrest
      · have hlt := length_cString_lt hline
        right
        omega
      · exact .inl hrest
    · right
      dsimp only at hlt
      omega
  · dsimp only at hle ⊢
    rw [List.length_append]
    omega

theorem readTurn_returns (output : Bytes) :
    ∃ r, Returns (fun n => loop readTurn n (output, [])) r ∧ (r = output ↔ 0 ∉ output) := by
  refine loop_returns_of_measure (I := Reads output) (fun s => s.1.length) ?_
    ⟨fun _ => rfl, fun h => .inl h, by simp⟩
  rintro ⟨rest, str⟩ h
  cases rest with
  | nil =>
    refine .inr ⟨str, rfl, fun heq hmem => ?_, fun hno => ?_⟩
    · have hlt := (h.lossy hmem).resolve_left List.not_mem_nil
      rw [heq] at hlt
      exact lt_irrefl _ hlt
    · have hwhole := h.whole hno
      rwa [List.append_nil] at hwhole
  | cons b l =>
    refine .inl ⟨_, rfl, h.step, ?_⟩
    have hpos := List.length_pos_iff.mpr (fgets_ne_nil (List.cons_ne_nil b l))
    rw [List.length_drop]
    simp only [List.length_cons]
    omega

def pingCommand (host : Bytes) (k : ℕ) : Bytes :=
  ascii "ping -t " ++ (decimal k ++ (ascii " -c 1 -w 1 " ++ cString host))

theorem sprintf_append (h : 37 ∉ l) (m : Bytes) (args : List ℤ) :
    sprintf (l ++ m) args = (sprintf m args).map (l ++ ·) := by
  induction l with
  | nil => simp
  | cons b l ih =>
    obtain ⟨hb, hl⟩ := not_or.mp (List.mem_cons.not.mp h)
    have hcons : sprintf (b :: (l ++ m)) args = (sprintf (l ++ m) args).map (b :: ·) := by
      rw [sprintf]
      · rintro _ rfl
        exact absurd rfl hb
      · rintro rfl
        exact hb rfl
      · rintro _ _ _ _ rfl
        exact absurd rfl hb
    rw [List.cons_append, hcons, ih hl, Option.map_map]
    rfl

/-- Without arguments a text is not printed in full if it has a percent sign: of two percent
signs next to each other one is printed. -/
theorem length_sprintf {args : List ℤ} (hargs : args = []) (h : sprintf l args = some m) :
    m.length ≤ l.length ∧ (37 ∈ l → m.length < l.length) := by
  fun_induction sprintf l args generalizing m with
  | case1 =>
    obtain rfl := Option.some.inj h
    exact ⟨le_refl _, fun hmem => absurd hmem List.not_mem_nil⟩
  | case2 args l ih =>
    obtain ⟨m, hm, rfl⟩ := Option.map_eq_some_iff.mp h
    obtain ⟨hle, -⟩ := ih hargs hm
    simp only [List.length_cons]
    omega
  | case3 => cases hargs
  | case4 => cases h
  | case5 b l args _ _ hb ih =>
    obtain ⟨m, hm, rfl⟩ := Option.map_eq_some_iff.mp h
    obtain ⟨hle, hlt⟩ := ih hargs hm
    refine ⟨Nat.succ_le_succ hle, fun hmem => Nat.succ_lt_succ (hlt ?_)⟩
    exact (List.mem_cons.mp hmem).resolve_left fun h => hb h.symm

theorem sprintf_pingOrder (host : Bytes) (k : ℕ) :
    sprintf (cString (fmtPingOrder host)) [(k : ℤ)] = (sprintf (cString host) []).map fun l =>
      ascii "ping -t " ++ (decimal k ++ (ascii " -c 1 -w 1 " ++ l)) := by
  have hfmt : cString (fmtPingOrder host) =
      ascii "ping -t " ++ (37 :: 100 :: (ascii " -c 1 -w 1 " ++ cString host)) := by
    have hzero : 0 ∉ ascii "ping -t %d -c 1 -w 1 " := by decide +kernel
    have hsplit : ascii "ping -t %d -c 1 -w 1 " =
        ascii "ping -t " ++ 37 :: 100 :: ascii " -c 1 -w 1 " := by decide +kernel
    rw [fmtPingOrder, cString_append hzero, hsplit, List.append_assoc]
    rfl
  rw [hfmt, sprintf_append (by decide), sprintf, sprintf_append (by decide), Option.map_map,
    Option.map_map]
  rfl

theorem sprintf_pingCommand_iff (host : Bytes) (k : ℕ) :
    sprintf (cString (fmtPingOrder host)) [(k : ℤ)] = some (pingCommand host k) ↔
      37 ∉ cString host := by
  rw [sprintf_pingOrder]
  constructor
  · intro h hmem
    obtain ⟨l, hl, heq⟩ := Option.map_eq_some_iff.mp h
    obtain ⟨-, hlt⟩ := length_sprintf rfl hl
    have hlen := congrArg List.length heq
    simp only [pingCommand, List.length_append] at hlen
    exact absurd (hlt hmem) (by omega)
  · intro h
    have hnone := sprintf_append h [] []
    rw [List.append_nil] at hnone
    rw [hnone]
    simp [sprintf, pingCommand]

theorem openPingCmd_run {shell : Bytes → Option Bytes} {buf : Bytes}
    (hformat : sprintf (cString (fmtPingOrder host)) [(k : ℤ)] = some buf)
    (hroom : buf.length < cmdBufLen) (hshell : shell buf = some output) (n : ℕ) :
    openPingCmd n shell host k = loop readTurn n (output, []) := by
  unfold openPingCmd
  split
  · next hnone =>
    rw [hformat] at hnone
    cases hnone
  · next b hb =>
    obtain rfl := Option.some.inj (hb.symm.trans hformat)
    rw [guard_true hroom, done_bind, hshell]

def onlyCommand (cmd c : Bytes) : Option Bytes := if c = cmd then some [] else none

theorem onlyCommand_self (cmd : Bytes) : onlyCommand cmd cmd = some [] := if_pos rfl

/-- The command is run as it is meant, and its whole output put together unless there is a NUL
in it, exactly when the host has no percent sign and the buffer has room for the command. -/
theorem openPingCmd_exact_iff (host : Bytes) (k : ℕ) :
    (∀ shell output, shell (pingCommand host k) = some output →
      (Returns (fun n => openPingCmd n shell host k) output ↔ 0 ∉ output)) ↔
      37 ∉ cString host ∧ (pingCommand host k).length < cmdBufLen := by
  constructor
  · intro h
    obtain ⟨n, hn⟩ := (h _ [] (onlyCommand_self (pingCommand host k))).mpr List.not_mem_nil
    unfold openPingCmd at hn
    split at hn
    · cases hn
    · next buf hbuf =>
      obtain ⟨_, hguard, hn⟩ := bind_eq_done.mp hn
      have hroom : buf.length < cmdBufLen := by
        by_contra hlong
        rw [guard_false hlong] at hguard
        cases hguard
      by_cases hmeant : buf = pingCommand host k
      · rw [hmeant] at hbuf hroom
        exact ⟨(sprintf_pingCommand_iff host k).mp hbuf, hroom⟩
      · rw [onlyCommand, if_neg hmeant] at hn
        cases hn
  · rintro ⟨hpercent, hroom⟩ shell output hshell
    obtain ⟨r, hr, hexact⟩ := readTurn_returns output
    have hopen := openPingCmd_run ((sprintf_pingCommand_iff host k).mpr hpercent) hroom hshell
    simp only [hopen]
    rw [← hexact]
    constructor
    · intro h
      exact hr.unique (loop_progressive _ _) h
    · rintro rfl
      exact hr

end QyUtil.Trace.Android
