import QyUtil.Trace.ReportText

/-! # The size of a report

With sockets a hop is a number, and whatever happens a report has room in its buffer. The
command prints names of routers, each of which comes twice into the report, and nothing
limits their length.
-/

namespace QyUtil.Trace

open Bytes Net

variable {host : Bytes} {es : List Native.Probe}

namespace Native

theorem length_sourceAddress_le (h : Ipv4Header) : (intText h.sourceAddress).length ≤ 11 := by
  have hlt : h.sourceAddress < 2 ^ 31 := BitVec.toInt_lt
  have hge : -2 ^ 31 ≤ h.sourceAddress := BitVec.le_toInt _
  exact length_intText_le (by decide) (by omega)

theorem probes_length_le (hhost : (cString host).length ≤ 15) (index : ℕ) :
    ∀ tIp t, ((probes index es (tIp, t)).2.text host).length ≤
      (t.text host).length + 53 * es.length := by
  induction es with
  | nil => exact fun _ _ => le_refl _
  | cons e es ih =>
    intro tIp t
    rw [probes, List.length_cons]
    split_ifs
    · have hret := length_toInt_le e.sendto
      have hfailed : ((Output.sendFailed e.sendto).text host).length =
          12 + (cString host).length + 15 + (intText (toInt e.sendto)).length := by
        simp only [Output.text, List.length_append]
        rfl
      simp only [Report.length_put, hfailed]
      omega
    · split
      · next b d _ =>
        have hip := length_sourceAddress_le (readHeaders .new .new (b :: d)).1
        have hstring := (List.takeWhile_sublist (· ≠ 0) (l := intText
          (readHeaders .new .new (b :: d)).1.sourceAddress)).length_le
        have hhop := hopWidth_le tIp (intText (readHeaders .new .new (b :: d)).1.sourceAddress)
          es.length
        have htime := timeWidth_le e.duration
        refine (ih _ _).trans ?_
        simp only [Report.length_put, Report.length_putHop, Output.length_time, Report.text_sent]
        rw [cString] at hhop
        omega
      · have htimeout : (Output.timeout.text host).length = 2 := rfl
        refine (ih _ _).trans ?_
        simp only [Report.length_put, htimeout, Report.text_sent]
        omega

theorem exploreRouter_length_le (host : Bytes) (env : Env) {index : ℕ} (hi : index < 100)
    (t : Report (Option Bytes)) : ((exploreRouter host env index t).2.text host).length ≤
      (t.text host).length + 163 := by
  rw [exploreRouter]
  cases hhost : inetPton host with
  | none =>
    simp only [Report.length_put, Output.length_index hi]
    omega
  | some a =>
    have hlen := length_of_inetPton (Option.isSome_of_eq_some hhost)
    have hle := @probes_length_le host ((List.range everyTTLExpCount).map (env.probe index)) hlen
      index [] (t.put (.index index))
    have hend : (Output.lineEnd.text host).length = 1 := rfl
    simp only [Report.length_put, Output.length_index hi, List.length_map, List.length_range,
      everyTTLExpCount] at hle
    simp only [Report.length_put, hend, everyTTLExpCount]
    omega

theorem exploreAll_length_le (host : Bytes) (env : Env) {ks : List ℕ} (hks : ∀ k ∈ ks, k < 100) :
    ∀ t, ((exploreAll host env ks t).text host).length ≤
      (t.text host).length + 163 * ks.length := by
  induction ks with
  | nil => exact fun _ => le_refl _
  | cons k ks ih =>
    intro t
    obtain ⟨hk, hrest⟩ := List.forall_mem_cons.mp hks
    have hround := exploreRouter_length_le host env hk t
    have hrounds := ih hrest (exploreRouter host env k t).2
    rw [exploreAll, List.length_cons]
    dsimp only
    split_ifs <;> omega

theorem start_length_le (host : Bytes) (env : Env) :
    ((start host env).text host).length ≤ 3097 := by
  unfold start
  split_ifs
  · exact Nat.zero_le _
  · exact Nat.zero_le _
  · exact Nat.zero_le _
  · exact exploreAll_length_le host env (by decide) .new

end Native

namespace Android

/-- The address that is found in an output, if it does not count as a timeout. -/
def hopOf (output : Bytes) : Option Bytes :=
  if (processPingResult output []).1 then none else some (processPingResult output []).2

/-- The width of what is printed for some outputs, each with its duration, behind the
hop that was printed last. -/
def probesWidth : List (Bytes × ℕ) → Bytes → ℕ
  | [], _ => 0
  | (output, duration) :: rest, tIp => match hopOf output with
    | none => 2 + probesWidth rest tIp
    | some ip => hopWidth tIp ip rest.length + timeWidth duration + probesWidth rest ip

/-- The width of the whole report: for each TTL its number, the probes and the end of the
line. -/
def reportWidth (out : ℕ → ℕ → Bytes × ℕ) : ℕ :=
  (ttls.map fun k => 4 + probesWidth ((List.range everyTTLExpCount).map (out k)) []).sum

def printing (out : ℕ → ℕ → Bytes × ℕ) (k j : ℕ) : Probe := ⟨some (out k j).1, (out k j).2⟩

theorem probes_length (host : Bytes) (index : ℕ) (outs : List (Bytes × ℕ)) : ∀ tIp t,
    ∃ t', probes index (outs.map fun o => ⟨some o.1, o.2⟩) (tIp, t) = .ok t' ∧
      (t'.text host).length = (t.text host).length + probesWidth outs tIp + 1 := by
  induction outs with
  | nil =>
    intro tIp t
    exact ⟨_, rfl, by rw [Report.length_put]; rfl⟩
  | cons o outs ih =>
    intro tIp t
    rw [List.map_cons, probes, probesWidth]
    unfold hopOf
    dsimp only
    split_ifs with htimeout
    · obtain ⟨t', ht', hlen⟩ := ih tIp ((t.sent index o.1).put .timeout)
      have hwidth : (Output.timeout.text host).length = 2 := rfl
      rw [Report.length_put, Report.text_sent, hwidth] at hlen
      exact ⟨t', ht', by dsimp only; omega⟩
    · obtain ⟨t', ht', hlen⟩ := ih (processPingResult o.1 []).2 (((t.sent index o.1).putHop tIp
        (processPingResult o.1 []).2 outs.length).put (.time o.2))
      rw [Report.length_put, Report.length_putHop, Report.text_sent, Output.length_time] at hlen
      exact ⟨t', by rwa [List.length_map], by dsimp only; omega⟩

theorem exploreAll_length (host : Bytes) (out : ℕ → ℕ → Bytes × ℕ) {ks : List ℕ}
    (hks : ∀ k ∈ ks, k < 100) : ∀ t, ((exploreAll (printing out) ks t).text host).length =
      (t.text host).length +
        (ks.map fun k => 4 + probesWidth ((List.range everyTTLExpCount).map (out k)) []).sum := by
  induction ks with
  | nil => exact fun _ => rfl
  | cons k ks ih =>
    intro t
    obtain ⟨hk, hrest⟩ := List.forall_mem_cons.mp hks
    obtain ⟨t', ht', hlen⟩ := probes_length host k ((List.range everyTTLExpCount).map (out k)) []
      (t.put (.index k))
    rw [Report.length_put, Output.length_index hk] at hlen
    have hround : exploreRouter (printing out) k t = .ok t' := by
      rw [exploreRouter, ← ht', List.map_map]
      rfl
    rw [exploreAll, hround, List.map_cons, List.sum_cons]
    dsimp only
    rw [ih hrest, hlen]
    omega

theorem construct_length (host : Bytes) (out : ℕ → ℕ → Bytes × ℕ) :
    ((construct (printing out)).text host).length = reportWidth out := by
  rw [construct, exploreAll_length host out (by decide)]
  exact Nat.zero_add _

theorem probesWidth_le {n : ℕ} {outs : List (Bytes × ℕ)}
    (h : ∀ o ∈ outs, ∀ ip, hopOf o.1 = some ip → (cString ip).length ≤ n) :
    ∀ tIp, probesWidth outs tIp ≤ (23 + 2 * n) * outs.length := by
  induction outs with
  | nil => exact fun _ => le_refl 0
  | cons o outs ih =>
    intro tIp
    obtain ⟨ho, hrest⟩ := List.forall_mem_cons.mp h
    rw [probesWidth, List.length_cons, Nat.mul_succ]
    cases hhop : hopOf o.1 with
    | none =>
      have := ih hrest tIp
      dsimp only
      omega
    | some ip =>
      have hip := ho ip hhop
      have hwidth := hopWidth_le tIp ip outs.length
      have htime := timeWidth_le o.2
      have := ih hrest ip
      dsimp only
      omega

theorem reportWidth_lt {out : ℕ → ℕ → Bytes × ℕ}
    (h : ∀ k j ip, hopOf (out k j).1 = some ip → (cString ip).length ≤ 23) :
    reportWidth out < maxStrBuf := by
  have hline : ∀ w ∈ ttls.map fun k =>
      4 + probesWidth ((List.range everyTTLExpCount).map (out k)) [], w ≤ 211 := by
    intro w hw
    obtain ⟨k, -, rfl⟩ := List.mem_map.mp hw
    have hle := @probesWidth_le 23 ((List.range everyTTLExpCount).map (out k))
      (fun o ho ip hip => by
        obtain ⟨j, -, rfl⟩ := List.mem_map.mp ho
        exact h k j ip hip) []
    simp only [List.length_map, List.length_range, everyTTLExpCount] at hle ⊢
    omega
  have hsum := List.sum_le_card_nsmul _ _ hline
  rw [List.length_map, smul_eq_mul] at hsum
  exact hsum.trans_lt (by decide)

end Android

/-- With sockets a report always fits; with the command it does exactly when the widths of
the hops and times are less than the buffer in all. -/
theorem report_fits_iff (host : Bytes) (env : Native.Env) (out : ℕ → ℕ → Bytes × ℕ) :
    Fits host (Native.start host env) ∧
    (Fits host (Android.construct (Android.printing out)) ↔
      Android.reportWidth out < maxStrBuf) := by
  refine ⟨fits_iff.mpr ((Native.start_length_le host env).trans_lt (by decide)), ?_⟩
  rw [fits_iff, Android.construct_length]

def longName : Bytes := List.replicate 60 120 ++ 46 :: List.replicate 60 120 ++ ascii ".net"

def longOutput : Bytes :=
  ascii "From " ++ (longName ++ ascii " (10.0.0.1): icmp_seq=1 Time to live exceeded")

/-- When that router answers every probe, the report has more than 5000 bytes. -/
theorem long_names_overflow :
    5000 < ((Android.construct (Android.printing fun _ _ => (longOutput, 0))).text
      (ascii "10.9.8.7")).length ∧
    ¬ Fits (ascii "10.9.8.7")
      (Android.construct (Android.printing fun _ _ => (longOutput, 0))) := by
  have hhop : Android.hopOf longOutput = some (longName ++ ascii " (10.0.0.1)") := by
    decide +kernel
  have hwidth : hopWidth [] (longName ++ ascii " (10.0.0.1)") 2 = 276 := by decide +kernel
  have hline : 276 ≤ Android.probesWidth
      ((List.range everyTTLExpCount).map fun _ => (longOutput, 0)) [] := by
    show 276 ≤ Android.probesWidth [(longOutput, 0), (longOutput, 0), (longOutput, 0)] []
    rw [Android.probesWidth, hhop]
    simp only [List.length_cons, List.length_nil, hwidth]
    omega
  have hlong : 5000 < Android.reportWidth fun _ _ => (longOutput, 0) := by
    have hcount : ttls.length = 19 := by decide
    rw [Android.reportWidth, List.map_const', List.sum_replicate, hcount, smul_eq_mul]
    omega
  rw [← Android.construct_length (ascii "10.9.8.7")] at hlong
  exact ⟨hlong, fun h => absurd h.whole (by unfold maxStrBuf; omega)⟩

end QyUtil.Trace
