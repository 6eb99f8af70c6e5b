import QyUtil.Trace.Probing
import QyUtil.Trace.TraceRouter

/-! # Where the traceroute stops

With sockets, `t_ip` is the text of an `int` and so never the host. With the `ping`
command it is not compared with the host at all. Both go on as long as the system
lets them, and stop at the destination only where that ends the run anyway.
-/

namespace QyUtil.Trace

open Bytes Net Runs Probing

variable {host : Bytes}

theorem ttls_nodup : ttls.Nodup := List.nodup_range'

namespace Native

variable {env : Env} {t : Report (Option Bytes)} {tIp : Bytes}

/-- What comes back for the listed probes, up to the first that cannot be sent. -/
def responses (l : List Probe) : List (Option Bytes) :=
  (l.takeWhile fun e => 0 < e.sendto).map fun e => recvWithinTime e.ready

def round (env : Env) (k : ℕ) : List (Option Bytes) :=
  responses ((List.range everyTTLExpCount).map (env.probe k))

/-- The TTLs that can be set, up to the first failure. -/
def reached (env : Env) : List ℕ :=
  if env.socketW = 0 ∨ env.socketR = 0 then []
  else if env.rcvBuf < 0 ∨ env.noSigPipe < 0 then []
  else ttls.takeWhile fun k => 0 ≤ env.ttl k

theorem dot_not_mem_decimal (n : ℕ) : (46 : UInt8) ∉ decimal n := fun h =>
  absurd (isDigit_of_mem_decimal h) (by decide)

theorem dot_not_mem_intText (z : ℤ) : (46 : UInt8) ∉ intText z := by
  cases z with
  | ofNat n => exact dot_not_mem_decimal n
  | negSucc n =>
    rw [intText, List.mem_cons, not_or]
    exact ⟨by decide, dot_not_mem_decimal _⟩

theorem responses_cons_of_fail {e : Probe} (h : e.sendto ≤ 0) (rest : List Probe) :
    responses (e :: rest) = [] := by
  simp [responses, not_lt.mpr h]

theorem responses_cons {e : Probe} (h : ¬ e.sendto ≤ 0) (rest : List Probe) :
    responses (e :: rest) = recvWithinTime e.ready :: responses rest := by
  simp [responses, not_le.mp h]

theorem probes_log (index : ℕ) (l : List Probe) (h : (46 : UInt8) ∉ tIp) :
    (probes index l (tIp, t)).2.log = t.log ++ (responses l).map (index, ·) ∧
      (46 : UInt8) ∉ (probes index l (tIp, t)).1 := by
  induction l generalizing tIp t with
  | nil => exact ⟨by simp [probes, responses], h⟩
  | cons e rest ih =>
    simp only [probes]
    split
    · rw [responses_cons_of_fail ‹_›]
      exact ⟨by simp, h⟩
    · rw [responses_cons ‹_›]
      split
      · obtain ⟨hlog, hdot⟩ := ih (dot_not_mem_intText _)
        exact ⟨by simp [hlog], hdot⟩
      · obtain ⟨hlog, hdot⟩ := ih h
        exact ⟨by simp [hlog], hdot⟩

theorem exploreRouter_log (hh : (inetPton host).isSome) (env : Env) (k : ℕ) :
    (exploreRouter host env k t).2.log = t.log ++ (round env k).map (k, ·) ∧
      (exploreRouter host env k t).1 ≠ host := by
  obtain ⟨a, ha⟩ := Option.isSome_iff_exists.mp hh
  have hempty : (46 : UInt8) ∉ ([] : Bytes) := List.not_mem_nil
  obtain ⟨hlog, hdot⟩ := probes_log k (t := t.put (.index k))
    ((List.range everyTTLExpCount).map (env.probe k)) hempty
  simp only [exploreRouter, ha]
  refine ⟨by simp [hlog, round], fun he => hdot ?_⟩
  rw [he]
  exact dot_mem_of_inetPton hh

theorem exploreAll_log (hh : (inetPton host).isSome) (ks : List ℕ) :
    (exploreAll host env ks t).log =
      t.log ++ roundLog (round env) (ks.takeWhile fun k => 0 ≤ env.ttl k) := by
  induction ks generalizing t with
  | nil => simp [exploreAll, roundLog]
  | cons k ks ih =>
    obtain ⟨hlog, hne⟩ := exploreRouter_log (t := t) hh env k
    simp only [exploreAll, if_neg hne]
    split
    · simp [roundLog, not_le.mpr ‹_›]
    · rw [ih, hlog]
      simp [roundLog, not_lt.mp ‹_›]

theorem start_log (hh : (inetPton host).isSome) :
    (start host env).log = roundLog (round env) (reached env) := by
  unfold start reached
  by_cases hs : env.socketW = 0 ∨ env.socketR = 0
  · rw [if_pos hs, if_pos hs]
    rfl
  · rw [if_neg hs, if_neg hs]
    by_cases hb : env.rcvBuf < 0
    · rw [if_pos hb, if_pos (.inl hb)]
      rfl
    · by_cases hp : env.noSigPipe < 0
      · rw [if_neg hb, if_pos hp, if_pos (.inr hp)]
        rfl
      · rw [if_neg hb, if_neg hp, if_neg (not_or.mpr ⟨hb, hp⟩), exploreAll_log hh]
        rfl

theorem reached_nodup (env : Env) : (reached env).Nodup := by
  unfold reached
  split_ifs
  · exact List.nodup_nil
  · exact List.nodup_nil
  · exact ttls_nodup.sublist (List.takeWhile_sublist _)

theorem round_eq_nil {k : ℕ} : round env k = [] ↔ (env.probe k 0).sendto ≤ 0 := by
  have hl : (List.range everyTTLExpCount).map (env.probe k) =
      env.probe k 0 :: [env.probe k 1, env.probe k 2] := rfl
  rw [round, hl]
  by_cases h : (env.probe k 0).sendto ≤ 0
  · simp [responses_cons_of_fail h, h]
  · simp [responses_cons h, h]

/-- A probe is answered when something is received. -/
def Answered (r : Option Bytes) : Prop := ∃ d, r = some d ∧ d ≠ []

/-- What is received is a packet whose source is the host. -/
def FromHost (host : Bytes) (r : Option Bytes) : Prop :=
  ∃ d, r = some d ∧ WellFormed d ∧
    inetPton host = some ⟨d.getD 12 0, d.getD 13 0, d.getD 14 0, d.getD 15 0⟩

theorem start_stops (hh : (inetPton host).isSome) :
    Stops Answered (FromHost host) (start host env).log ↔
      ∀ k ∈ reached env, ∀ r, LastAnswer Answered (round env k) r → FromHost host r →
        ∀ k' ∈ reached env, k < k' → (env.probe k' 0).sendto ≤ 0 := by
  rw [start_log hh, stops_roundLog (reached_nodup env)]
  simp only [round_eq_nil]

end Native

namespace Android

variable {env : ℕ → ℕ → Probe} {t : Report Bytes}

/-- What the listed commands print, up to the first that cannot be run. -/
def transcripts : List Probe → List Bytes
  | [] => []
  | e :: rest => match e.popen with
    | none => []
    | some result => result :: transcripts rest

def round (env : ℕ → ℕ → Probe) (k : ℕ) : List Bytes :=
  transcripts ((List.range everyTTLExpCount).map (env k))

/-- The TTLs whose commands are tried: all commands of the earlier ones can be run. -/
def reached (env : ℕ → ℕ → Probe) : List ℕ → List ℕ
  | [] => []
  | k :: ks =>
    k :: if ((List.range everyTTLExpCount).map (env k)).all (·.popen.isSome) then reached env ks
      else []

theorem probes_log (index : ℕ) (l : List Probe) (tIp : Bytes) (t : Report Bytes) :
    ∃ t', t'.log = t.log ++ (transcripts l).map (index, ·) ∧
    probes index l (tIp, t) = if l.all (·.popen.isSome) then .ok t' else .error t' := by
  induction l generalizing tIp t with
  | nil => exact ⟨t.put .lineEnd, by simp [transcripts], rfl⟩
  | cons e rest ih =>
    simp only [probes]
    cases he : e.popen with
    | none => exact ⟨t, by simp [transcripts, he], by simp [he]⟩
    | some result =>
      dsimp only
      split
      · obtain ⟨t', hlog, hrun⟩ := ih tIp ((t.sent index result).put .timeout)
        exact ⟨t', by simp [hlog, transcripts, he], by simp [hrun, he]⟩
      · obtain ⟨t', hlog, hrun⟩ := ih (processPingResult result []).2
          (((t.sent index result).putHop tIp (processPingResult result []).2
            rest.length).put (.time e.duration))
        exact ⟨t', by simp [hlog, transcripts, he], by simp [hrun, he]⟩

theorem exploreAll_log (ks : List ℕ) :
    (exploreAll env ks t).log = t.log ++ roundLog (round env) (reached env ks) := by
  induction ks generalizing t with
  | nil => simp [exploreAll, reached, roundLog]
  | cons k ks ih =>
    obtain ⟨t', hlog, hrun⟩ := probes_log k ((List.range everyTTLExpCount).map (env k)) []
      (t.put (.index k))
    rw [exploreAll, exploreRouter, hrun, reached]
    split_ifs
    · simp [ih, hlog, roundLog, round]
    · simp [hlog, roundLog, round]

theorem reached_sublist (ks : List ℕ) : (reached env ks).Sublist ks := by
  induction ks with
  | nil => exact .slnil
  | cons k ks ih =>
    rw [reached]
    split_ifs
    · exact ih.cons_cons k
    · exact (List.nil_sublist ks).cons_cons k

theorem round_eq_nil {k : ℕ} : round env k = [] ↔ (env k 0).popen = none := by
  have hl : (List.range everyTTLExpCount).map (env k) = env k 0 :: [env k 1, env k 2] := rfl
  rw [round, hl, transcripts]
  cases (env k 0).popen <;> simp

/-- The transcript shows an answer of the address: a router's line or a reply's. -/
def ShowsAnswer (result ip : Bytes) : Prop :=
  (inetPton ip).isSome ∧ ∃ before after,
    result = before ++ ascii "From " ++ ip ++ ascii ": " ++ after ∨
    result = before ++ ascii "bytes from " ++ ip ++ ascii ": " ++ after

/-- A probe is answered when its transcript shows an answer of some address. -/
def Answered (result : Bytes) : Prop := ∃ ip, ShowsAnswer result ip

theorem construct_stops (host : Bytes) :
    Stops Answered (fun result => ShowsAnswer result host) (construct env).log ↔
      ∀ k ∈ reached env ttls, ∀ r, LastAnswer Answered (round env k) r → ShowsAnswer r host →
        ∀ k' ∈ reached env ttls, k < k' → (env k' 0).popen = none := by
  have hlog : (construct env).log = roundLog (round env) (reached env ttls) := exploreAll_log ttls
  rw [hlog, stops_roundLog (ttls_nodup.sublist (reached_sublist ttls))]
  simp only [round_eq_nil]

end Android

/-- Both specialisations stop at the host exactly when a TTL at which the host is
the last to answer is never followed by one of which the system lets a probe out. -/
theorem stopsAtHost_iff (hh : (inetPton host).isSome) (env : Native.Env)
    (commands : ℕ → ℕ → Android.Probe) :
    (Stops Native.Answered (Native.FromHost host) (Native.start host env).log ↔
      ∀ k ∈ Native.reached env, ∀ r, LastAnswer Native.Answered (Native.round env k) r →
        Native.FromHost host r →
        ∀ k' ∈ Native.reached env, k < k' → (env.probe k' 0).sendto ≤ 0) ∧
    (Stops Android.Answered (fun result => Android.ShowsAnswer result host)
        (Android.construct commands).log ↔
      ∀ k ∈ Android.reached commands ttls, ∀ r,
        LastAnswer Android.Answered (Android.round commands k) r → Android.ShowsAnswer r host →
        ∀ k' ∈ Android.reached commands ttls, k < k' → (commands k' 0).popen = none) :=
  ⟨Native.start_stops hh, Android.construct_stops host⟩

section OneHop

def portUnreachable : Bytes :=
  [69, 0, 0, 28, 0, 0, 0, 0, 64, 1, 0, 0, 1, 1, 1, 1, 10, 0, 0, 2, 3, 3, 0, 0, 0, 0, 0, 0]

def answeredEnv (ttl : ℕ → ℤ) : Native.Env :=
  ⟨3, 4, 0, 0, ttl, fun _ _ => ⟨50, ⟨false, true, some portUnreachable⟩, 1⟩⟩

def reply : Bytes := ascii "64 bytes from 1.1.1.1: icmp_seq=1 ttl=64"

theorem fromHost_portUnreachable :
    Native.FromHost (ascii "1.1.1.1") (some portUnreachable) :=
  ⟨_, rfl, ⟨by decide, by decide, by decide⟩, by decide⟩

theorem showsAnswer_reply : Android.ShowsAnswer reply (ascii "1.1.1.1") :=
  ⟨by decide, ascii "64 ", ascii "icmp_seq=1 ttl=64", .inr (by decide)⟩

theorem stopsAtHost_oneTtl :
    Stops Native.Answered (Native.FromHost (ascii "1.1.1.1"))
      (Native.start (ascii "1.1.1.1") (answeredEnv fun k => if k = 1 then 0 else -1)).log ∧
    Stops Android.Answered (fun result => Android.ShowsAnswer result (ascii "1.1.1.1"))
      (Android.construct fun k _ => ⟨if k = 1 then some reply else none, 1⟩).log := by
  have hhost : (inetPton (ascii "1.1.1.1")).isSome := by decide
  obtain ⟨hnative, handroid⟩ := stopsAtHost_iff hhost
    (answeredEnv fun k => if k = 1 then 0 else -1)
    (fun k _ => ⟨if k = 1 then some reply else none, 1⟩)
  refine ⟨hnative.mpr ?_, handroid.mpr ?_⟩
  · intro k hk _ _ _ k' hk' hlt
    have hreached : Native.reached (answeredEnv fun k => if k = 1 then 0 else -1) = [1] := rfl
    rw [hreached, List.mem_singleton] at hk hk'
    omega
  · intro k hk _ _ _ k' hk' hlt
    have hreached : Android.reached
        (fun k _ => ⟨if k = 1 then some reply else none, 1⟩) ttls = [1, 2] := rfl
    rw [hreached, List.mem_pair] at hk hk'
    obtain rfl : k' = 2 := by omega
    rfl

/-- Neither specialisation stops at a host that answers the first probe. -/
theorem passes_the_host :
    ¬ Stops Native.Answered (Native.FromHost (ascii "1.1.1.1"))
      (Native.start (ascii "1.1.1.1") (answeredEnv fun _ => 0)).log ∧
    ¬ Stops Android.Answered (fun result => Android.ShowsAnswer result (ascii "1.1.1.1"))
      (Android.construct fun _ _ => ⟨some reply, 1⟩).log := by
  constructor
  · intro h
    have hround : Native.round (answeredEnv fun _ => 0) 1 =
        [some portUnreachable, some portUnreachable, some portUnreachable] := rfl
    have hlast : LastAnswer Native.Answered (Native.round (answeredEnv fun _ => 0) 1)
        (some portUnreachable) :=
      ⟨[some portUnreachable, some portUnreachable], [], hround, ⟨_, rfl, by decide⟩, by simp⟩
    have hsent := (Native.start_stops (by decide)).mp h 1 (by decide) _ hlast
      fromHost_portUnreachable 2 (by decide) (by decide)
    exact absurd hsent (by decide)
  · intro h
    have hlast : LastAnswer Android.Answered
        (Android.round (fun _ _ => ⟨some reply, 1⟩) 1) reply :=
      ⟨[reply, reply], [], rfl, ⟨_, showsAnswer_reply⟩, by simp⟩
    have hsent := (Android.construct_stops (ascii "1.1.1.1")).mp h 1 (by decide) _ hlast
      showsAnswer_reply 2 (by decide) (by decide)
    cases hsent

end OneHop

end QyUtil.Trace
