import QyUtil.Net.Grammar
import QyUtil.Trace.Attribution
import QyUtil.Trace.Rows

/-! # Tracing a route

A route leads over routers to the host. A packet whose TTL runs out is answered by the
router where it does, and one that comes to the host by the host. When nothing else is read
from the sockets, each TTL gets a row of the report with the one who answers it, and who this
is can be read back from the text.
-/

namespace QyUtil.Trace

open Bytes Net

universe u

structure Route where
  routers : List Address
  host : Address

def Route.hop (r : Route) (k : ℕ) : Address := r.routers.getD (k - 1) r.host

/-- The text of the four bytes as an `int` of a little-endian machine. -/
def numberText (a : Address) : Bytes :=
  intText (Int.bmod (a.b0.toNat + a.b1.toNat * 2 ^ 8 + a.b2.toNat * 2 ^ 16 + a.b3.toNat * 2 ^ 24)
    (2 ^ 32))

def intValue : Bytes → ℤ
  | [] => 0
  | b :: l => if b = 45 then -digitsValue l else digitsValue (b :: l)

def numberAddress (s : Bytes) : Address :=
  let n := (intValue s % 2 ^ 32).toNat
  ⟨UInt8.ofNat n, UInt8.ofNat (n / 2 ^ 8), UInt8.ofNat (n / 2 ^ 16), UInt8.ofNat (n / 2 ^ 24)⟩

theorem intValue_intText (z : ℤ) : intValue (intText z) = z := by
  cases z with
  | ofNat n =>
    obtain ⟨b, l, hb⟩ := List.exists_cons_of_ne_nil (decimal_ne_nil n)
    have hdigit : isDigit b = true := isDigit_of_mem_decimal (hb ▸ List.mem_cons_self)
    have hminus : b ≠ 45 := by
      rintro rfl
      exact absurd hdigit (by decide)
    rw [intText, hb, intValue, if_neg hminus, ← hb, digitsValue_decimal]
    rfl
  | negSucc n =>
    rw [intText, intValue, if_pos rfl, digitsValue_decimal]
    rfl

theorem numberAddress_numberText (a : Address) : numberAddress (numberText a) = a := by
  have h0 := a.b0.toNat_lt
  have h1 := a.b1.toNat_lt
  have h2 := a.b2.toNat_lt
  have h3 := a.b3.toNat_lt
  have hvalue : (intValue (numberText a) % 2 ^ 32).toNat =
      a.b0.toNat + a.b1.toNat * 2 ^ 8 + a.b2.toNat * 2 ^ 16 + a.b3.toNat * 2 ^ 24 := by
    have hmod := Int.bmod_emod (x := (a.b0.toNat + a.b1.toNat * 2 ^ 8 + a.b2.toNat * 2 ^ 16 +
      a.b3.toNat * 2 ^ 24 : ℤ)) (m := 2 ^ 32)
    rw [numberText, intValue_intText]
    omega
  have hbyte (b : UInt8) (n : ℕ) (h : n % 2 ^ 8 = b.toNat) : UInt8.ofNat n = b :=
    UInt8.toNat_inj.mp (UInt8.toNat_ofNat'.trans h)
  simp only [numberAddress, hvalue]
  rw [hbyte a.b0 _ (by omega), hbyte a.b1 _ (by omega), hbyte a.b2 _ (by omega),
    hbyte a.b3 _ (by omega)]

theorem notMem_intText {c : UInt8} (hdigit : isDigit c = false) (hminus : c ≠ 45) (z : ℤ) :
    c ∉ intText z := by
  have hd (n : ℕ) : c ∉ decimal n := fun h => by
    rw [isDigit_of_mem_decimal h] at hdigit
    cases hdigit
  cases z with
  | ofNat n => exact hd n
  | negSucc n => exact fun h => (List.mem_cons.mp h).elim hminus (hd _)

theorem plain_numberText (a : Address) : Plain (numberText a) where
  no_nul := notMem_intText (by decide) (by decide) _
  no_newline := notMem_intText (by decide) (by decide) _
  no_opening := notMem_intText (by decide) (by decide) _
  no_closing := notMem_intText (by decide) (by decide) _

theorem plain_dotted (a : Address) : Plain a.dotted where
  no_nul := notMem_dotted (by decide) (by decide) a
  no_newline := notMem_dotted (by decide) (by decide) a
  no_opening := notMem_dotted (by decide) (by decide) a
  no_closing := notMem_dotted (by decide) (by decide) a

theorem ttls_lt : ∀ k ∈ ttls, k < 100 := by decide

/-- What is printed for the probes of a TTL; each that is answered comes with the name of
the one who answers and the time. -/
def printed : Bytes → List (Option (Bytes × ℕ)) → List Output
  | _, [] => []
  | tIp, none :: rest => .timeout :: printed tIp rest
  | tIp, some (ip, duration) :: rest =>
    (if tIp = ip then []
      else (if rest.length ≠ everyTTLExpCount - 1 then [.align] else []) ++ [.hop ip]) ++
    .time duration :: printed ip rest

section Printed

variable {ρ : Type u} {name ip tIp : Bytes} {answers : List (Option ℕ)}

theorem putHop_printed (t : Report ρ) (tIp ip : Bytes) (times duration : ℕ) :
    ((t.putHop tIp ip times).put (.time duration)).output = t.output ++
      ((if tIp = ip then []
        else (if times ≠ everyTTLExpCount - 1 then [.align] else []) ++ [.hop ip]) ++
        [.time duration]) := by
  unfold Report.putHop
  split_ifs <;> simp [Report.put]

theorem printed_after (name : Bytes) (answers : List (Option ℕ)) :
    printed name (answers.map (Option.map (name, ·))) = answers.map cell := by
  induction answers with
  | nil => rfl
  | cons t rest ih =>
    cases t with
    | none => exact congrArg _ ih
    | some duration => simp [printed, cell, ih]

theorem printed_cells (hname : name ≠ []) (hlen : answers.length ≤ everyTTLExpCount) :
    printed [] (answers.map (Option.map (name, ·))) =
      cells (answers.length == everyTTLExpCount) name answers := by
  induction answers with
  | nil => rfl
  | cons t rest ih =>
    have hlt : rest.length ≠ everyTTLExpCount := by
      rw [List.length_cons] at hlen
      omega
    cases t with
    | none =>
      have hfirst : (rest.length == everyTTLExpCount) = false := beq_eq_false_iff_ne.mpr hlt
      rw [List.map_cons, Option.map_none, printed, ih (Nat.le_of_succ_le hlen), hfirst, cells]
    | some duration =>
      have hfirst : ((some duration :: rest).length == everyTTLExpCount) =
          (rest.length == everyTTLExpCount - 1) := by
        simp [everyTTLExpCount]
      rw [List.map_cons, Option.map_some, printed, printed_after, cells, if_neg hname.symm,
        List.length_map, hfirst]
      by_cases h : rest.length = everyTTLExpCount - 1
      · simp [h]
      · simp [h, beq_eq_false_iff_ne.mpr h]

end Printed

namespace Native

variable {env : Env} {t : Report (Option Bytes)} {tIp host d : Bytes} {l : List Probe}
  {r : Route} {k : ℕ}

def seen (e : Probe) : Option (Bytes × ℕ) :=
  match recvWithinTime e.ready with
  | some (b :: d) => some (sourceText (b :: d), e.duration)
  | _ => none

theorem probes_printed (hsent : ∀ e ∈ l, 0 < e.sendto) (index : ℕ) :
    (probes index l (tIp, t)).2.output = t.output ++ printed tIp (l.map seen) := by
  induction l generalizing tIp t with
  | nil => simp [probes, printed]
  | cons e rest ih =>
    obtain ⟨hpos, hrest⟩ := List.forall_mem_cons.mp hsent
    rw [probes, if_neg (not_le.mpr hpos), List.map_cons, seen]
    cases hr : recvWithinTime e.ready with
    | none =>
      dsimp only
      rw [ih hrest, printed]
      simp [Report.put, Report.sent]
    | some d =>
      cases d with
      | nil =>
        dsimp only
        rw [ih hrest, printed]
        simp [Report.put, Report.sent]
      | cons b d =>
        have hput := putHop_printed (t.sent index (some (b :: d))) tIp
          (intText (readHeaders .new .new (b :: d)).1.sourceAddress) rest.length e.duration
        unfold sourceText
        dsimp only
        rw [ih hrest, printed, hput, List.length_map]
        simp [Report.sent]

/-- An answer to a packet with a TTL: a message of the one who answers, that the TTL has run
out, or the host's, that the port cannot be reached. -/
structure Answer (r : Route) (k : ℕ) (d : Bytes) : Prop where
  error : IcmpError d
  source : (⟨d.getD 12 0, d.getD 13 0, d.getD 14 0, d.getD 15 0⟩ : Address) = r.hop k
  type : d.getD (ihl d) 0 = if k ≤ r.routers.length then 11 else 3

/-- Everything can be sent, and nothing is read but answers. -/
structure Follows (r : Route) (env : Env) : Prop where
  socketW : env.socketW ≠ 0
  socketR : env.socketR ≠ 0
  rcvBuf : 0 ≤ env.rcvBuf
  noSigPipe : 0 ≤ env.noSigPipe
  ttl : ∀ k ∈ ttls, 0 ≤ env.ttl k
  sendto : ∀ k ∈ ttls, ∀ j < everyTTLExpCount, 0 < (env.probe k j).sendto
  answer : ∀ k ∈ ttls, ∀ j < everyTTLExpCount, ∀ d,
    recvWithinTime (env.probe k j).ready = some d → Answer r k d

def answers (env : Env) (k : ℕ) : List (Option ℕ) :=
  (List.range everyTTLExpCount).map fun j =>
    (recvWithinTime (env.probe k j).ready).map fun _ => (env.probe k j).duration

theorem Answer.text (h : Answer r k d) : sourceText d = numberText (r.hop k) := by
  have hw := h.error.wellFormed
  have hheader := hw.header
  rcases readHeaders_cases .new .new d with ⟨hn, -⟩ | ⟨-, -, ht, -⟩
  · exact absurd hw hn
  · rw [← h.source, sourceText, Ipv4Header.sourceAddress, toInt_append,
      Rep.get_eq_getD ht (by show 12 < _; omega), Rep.get_eq_getD ht (by show 13 < _; omega),
      Rep.get_eq_getD ht (by show 14 < _; omega), Rep.get_eq_getD ht (by show 15 < _; omega)]
    rfl

theorem Answer.ne_nil (h : Answer r k d) : d ≠ [] := by
  have hlen := h.error.wellFormed.length
  apply List.ne_nil_of_length_pos
  omega

theorem Follows.seen (h : Follows r env) (hk : k ∈ ttls) :
    ((List.range everyTTLExpCount).map (env.probe k)).map seen =
      (answers env k).map (Option.map (numberText (r.hop k), ·)) := by
  rw [answers, List.map_map, List.map_map]
  apply List.map_congr_left
  intro j hj
  have hanswer := h.answer k hk j (List.mem_range.mp hj)
  simp only [Function.comp_apply, Native.seen]
  cases hd : recvWithinTime (env.probe k j).ready with
  | none => rfl
  | some d =>
    cases d with
    | nil => exact absurd rfl (hanswer [] hd).ne_nil
    | cons b d => simp [(hanswer (b :: d) hd).text]

theorem numberText_ne_nil (a : Address) : numberText a ≠ [] := by
  unfold numberText
  cases Int.bmod (a.b0.toNat + a.b1.toNat * 2 ^ 8 + a.b2.toNat * 2 ^ 16 + a.b3.toNat * 2 ^ 24)
    (2 ^ 32) with
  | ofNat n => exact decimal_ne_nil n
  | negSucc n => exact List.cons_ne_nil _ _

theorem Follows.exploreRouter (h : Follows r env) (hhost : (inetPton host).isSome)
    (hk : k ∈ ttls) (t : Report (Option Bytes)) :
    (Native.exploreRouter host env k t).2.output =
      t.output ++ row k (numberText (r.hop k)) (answers env k) := by
  obtain ⟨a, ha⟩ := Option.isSome_iff_exists.mp hhost
  have hsent : ∀ e ∈ (List.range everyTTLExpCount).map (env.probe k), 0 < e.sendto := by
    rw [List.forall_mem_map]
    exact fun j hj => h.sendto k hk j (List.mem_range.mp hj)
  have hprinted : (probes k ((List.range everyTTLExpCount).map (env.probe k))
      ([], t.put (.index k))).2.output = _ := probes_printed hsent k
  have hlen : (answers env k).length = everyTTLExpCount := by
    rw [answers, List.length_map, List.length_range]
  rw [h.seen hk, printed_cells (numberText_ne_nil _) hlen.le, hlen, beq_self_eq_true] at hprinted
  simp only [Native.exploreRouter, ha]
  rw [Report.put, hprinted]
  simp [Report.put, row]

/-- The comparison with the host never ends the loop, and each TTL prints its row. -/
theorem Follows.exploreAll (h : Follows r env) (hhost : (inetPton host).isSome) (ks : List ℕ)
    (hks : ∀ k ∈ ks, k ∈ ttls) (t : Report (Option Bytes)) :
    (Native.exploreAll host env ks t).output =
      t.output ++ ks.flatMap fun k => row k (numberText (r.hop k)) (answers env k) := by
  induction ks generalizing t with
  | nil => simp [Native.exploreAll]
  | cons k ks ih =>
    obtain ⟨hk, hrest⟩ := List.forall_mem_cons.mp hks
    have hne := (exploreRouter_log (t := t) hhost env k).2
    have httl := not_lt.mpr (h.ttl k hk)
    simp only [Native.exploreAll, if_neg hne, if_neg httl]
    rw [ih hrest, h.exploreRouter hhost hk, List.append_assoc, List.flatMap_cons]

theorem Follows.start (h : Follows r env) (hhost : (inetPton host).isSome) :
    (Native.start host env).output =
      ttls.flatMap fun k => row k (numberText (r.hop k)) (answers env k) := by
  have hsockets : ¬ (env.socketW = 0 ∨ env.socketR = 0) := not_or.mpr ⟨h.socketW, h.socketR⟩
  rw [Native.start, if_neg hsockets, if_neg (not_lt.mpr h.rcvBuf),
    if_neg (not_lt.mpr h.noSigPipe), h.exploreAll hhost ttls fun _ => id]
  rfl

theorem Follows.length_log (h : Follows r env) (hhost : (inetPton host).isSome) :
    (Native.start host env).log.length = everyTTLExpCount * ttls.length := by
  have hreached : reached env = ttls := by
    rw [reached, if_neg (not_or.mpr ⟨h.socketW, h.socketR⟩),
      if_neg (not_or.mpr ⟨not_lt.mpr h.rcvBuf, not_lt.mpr h.noSigPipe⟩),
      List.takeWhile_eq_self_iff]
    exact fun k hk => decide_eq_true (h.ttl k hk)
  have hround : ∀ k ∈ ttls, (round env k).length = everyTTLExpCount := by
    intro k hk
    rw [round, responses, List.length_map, List.takeWhile_eq_self_iff.mpr, List.length_map,
      List.length_range]
    rw [List.forall_mem_map]
    exact fun j hj => decide_eq_true (h.sendto k hk j (List.mem_range.mp hj))
  rw [start_log hhost, hreached, Runs.roundLog, List.length_flatMap]
  simp only [List.length_map]
  rw [List.map_congr_left hround, List.map_const', List.sum_replicate, smul_eq_mul, mul_comm]

/-- The TTLs whose probes have an answer, and who gave it. -/
def located (r : Route) (env : Env) : List (ℕ × Address) :=
  (ttls.filter fun k => (answers env k).any Option.isSome).map fun k => (k, r.hop k)

theorem Follows.readReport (h : Follows r env) (hhost : (inetPton host).isSome) :
    (Trace.readReport ((Native.start host env).text host)).map
      (fun e => (e.1, numberAddress e.2)) = located r env := by
  have hks : ∀ k ∈ ttls, k < 100 ∧ Plain (numberText (r.hop k)) :=
    fun k hk => ⟨ttls_lt k hk, plain_numberText _⟩
  rw [Trace.readReport, Report.text_eq, h.start hhost, readLines_rows hks, located, List.map_map]
  apply List.map_congr_left
  intro k _
  rw [Function.comp_apply, numberAddress_numberText]

/-- A route is reported row by row, and each router that has answered can be read from the
text of the report with its TTL; from its own TTL on, this is the host. The host does not end
the run. -/
theorem report_of_route (r : Route) (env : Env) (hhost : (inetPton host).isSome)
    (h : Follows r env) :
    (Native.start host env).output =
      (ttls.flatMap fun k => row k (numberText (r.hop k)) (answers env k)) ∧
    (Trace.readReport ((Native.start host env).text host)).map
      (fun e => (e.1, numberAddress e.2)) = located r env ∧
    (Native.start host env).log.length = everyTTLExpCount * ttls.length :=
  ⟨h.start hhost, h.readReport hhost, h.length_log hhost⟩

/-- The message that answers a packet with a TTL. -/
def answerTo (r : Route) (k : ℕ) : Bytes :=
  let a := r.hop k
  [69, 0, 0, 28, 0, 0, 0, 0, 64, 1, 0, 0, a.b0, a.b1, a.b2, a.b3, 10, 0, 0, 2,
    if k ≤ r.routers.length then 11 else 3, 0, 0, 0, 0, 0, 0, 0]

theorem answerTo_answer (r : Route) (k : ℕ) : Answer r k (answerTo r k) := by
  have hihl : ihl (answerTo r k) = 20 := by simp [ihl, answerTo]
  have htype : (answerTo r k).getD (ihl (answerTo r k)) 0 =
      if k ≤ r.routers.length then 11 else 3 := by
    rw [hihl]
    rfl
  have hversion : ((answerTo r k).getD 0 0).toNat / 16 = 4 := by simp [answerTo]
  refine ⟨⟨⟨hversion, hihl.ge, ?_⟩, rfl, ?_⟩, rfl, htype⟩
  · rw [hihl]
    exact le_refl 28
  · rw [htype]
    split_ifs
    · exact .inl rfl
    · exact .inr rfl

/-- The answers on a route, of which one does not come. -/
def answering (r : Route) : Env :=
  ⟨3, 4, 0, 0, fun _ => 0,
    fun k j => ⟨50, ⟨false, ¬ (k = 2 ∧ j = 0), some (answerTo r k)⟩, 1000 * k⟩⟩

theorem answering_read (r : Route) (k j : ℕ) :
    recvWithinTime ((answering r).probe k j).ready =
      if k = 2 ∧ j = 0 then none else some (answerTo r k) := by
  by_cases h : k = 2 ∧ j = 0
  · simp [answering, recvWithinTime, h]
  · simp only [answering, recvWithinTime, if_neg h, decide_not, decide_eq_false h]
    rfl

theorem answering_follows (r : Route) : Follows r (answering r) where
  socketW := show (3 : ℤ) ≠ 0 by decide
  socketR := show (4 : ℤ) ≠ 0 by decide
  rcvBuf := le_refl 0
  noSigPipe := le_refl 0
  ttl _ _ := le_refl 0
  sendto _ _ _ _ := show (0 : ℤ) < 50 by decide
  answer k _ j _ d hd := by
    rw [answering_read] at hd
    split_ifs at hd
    obtain rfl := Option.some.inj hd
    exact answerTo_answer r k

theorem answering_any (r : Route) (k : ℕ) :
    (answers (answering r) k).any Option.isSome = true := by
  have hsecond : ¬ (k = 2 ∧ 1 = 0) := fun h => absurd h.2 (by decide)
  rw [answers, List.any_map]
  apply List.any_eq_true.mpr ⟨1, by decide, ?_⟩
  rw [Function.comp_apply, answering_read, if_neg hsecond]
  rfl

def twoRouters : Route := ⟨[⟨10, 0, 0, 1⟩, ⟨10, 0, 0, 200⟩], ⟨1, 1, 1, 1⟩⟩

theorem report_of_route_twoRouters :
    (Trace.readReport ((Native.start (ascii "1.1.1.1") (answering twoRouters)).text
      (ascii "1.1.1.1"))).map (fun e => (e.1, numberAddress e.2)) =
        located twoRouters (answering twoRouters) :=
  (report_of_route twoRouters (answering twoRouters) (by decide) (answering_follows _)).2.1

end Native

end QyUtil.Trace
