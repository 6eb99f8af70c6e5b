import QyUtil.Trace.Stopping

/-! # Whose answer a hop is

With sockets, the traceroute reports the source of whatever it reads while it waits for
the answer to a probe. It looks neither at the state of the stream after the headers nor
at the type of the message, and nothing ties a message to the probe. So a hop is right
only if what was read in its round has the source of an answer to that round.
-/

namespace QyUtil.Trace

open Bytes Net Runs

variable {k i : ℕ} {ip host : Bytes} {out out' : List Output}

/-- The hops in an output that goes on the line of a TTL, each with the TTL of its line. -/
def hops : ℕ → List Output → List (ℕ × Bytes)
  | _, [] => []
  | k, o :: out => match o with
    | .index i => hops i out
    | .hop ip => (k, ip) :: hops k out
    | _ => hops k out

theorem hops_append_index (k i : ℕ) (out out' : List Output) :
    hops k (out ++ .index i :: out') = hops k out ++ hops i out' := by
  induction out generalizing k with
  | nil => rfl
  | cons o out ih => cases o <;> simp [hops, ih]

theorem hops_append (hi : ∀ i, .index i ∉ out) (k : ℕ) (out' : List Output) :
    hops k (out ++ out') = hops k out ++ hops k out' := by
  induction out with
  | nil => rfl
  | cons o out ih =>
    have hrest : ∀ i, Output.index i ∉ out := fun i h => hi i (List.mem_cons_of_mem _ h)
    cases o with
    | index i => exact absurd List.mem_cons_self (hi i)
    | hop ip => simp [hops, ih hrest]
    | sendFailed ret => simpa [hops] using ih hrest
    | timeout => simpa [hops] using ih hrest
    | align => simpa [hops] using ih hrest
    | time duration => simpa [hops] using ih hrest
    | lineEnd => simpa [hops] using ih hrest

namespace Native

variable {env : Env} {t : Report (Option Bytes)} {tIp : Bytes} {rs : List (Option Bytes)}
  {origin : ℕ → ℕ → Option ℕ}

def sourceText (d : Bytes) : Bytes := intText (readHeaders .new .new d).1.sourceAddress

theorem sourceText_ne_nil (d : Bytes) : sourceText d ≠ [] := by
  rw [sourceText]
  cases (readHeaders Ipv4Header.new IcmpHeader.new d).1.sourceAddress with
  | ofNat n => exact decimal_ne_nil n
  | negSucc n => exact List.cons_ne_nil _ _

/-- The texts reported for the responses of a TTL, when the last one so far is `t_ip`. -/
def shown : Bytes → List (Option Bytes) → List Bytes
  | _, [] => []
  | tIp, some (b :: d) :: rs =>
    if tIp = sourceText (b :: d) then shown tIp rs
    else sourceText (b :: d) :: shown (sourceText (b :: d)) rs
  | tIp, some [] :: rs => shown tIp rs
  | tIp, none :: rs => shown tIp rs

theorem exists_of_mem_shown (h : ip ∈ shown tIp rs) :
    ∃ d, some d ∈ rs ∧ d ≠ [] ∧ sourceText d = ip := by
  fun_induction shown tIp rs with
  | case1 => cases h
  | case2 b d rs ih =>
    obtain ⟨d', hd', hne, hip⟩ := ih h
    exact ⟨d', List.mem_cons_of_mem _ hd', hne, hip⟩
  | case3 tIp b d rs hne ih =>
    rcases List.mem_cons.mp h with rfl | h
    · exact ⟨b :: d, List.mem_cons_self, List.cons_ne_nil _ _, rfl⟩
    · obtain ⟨d', hd', hne, hip⟩ := ih h
      exact ⟨d', List.mem_cons_of_mem _ hd', hne, hip⟩
  | case4 tIp rs ih =>
    obtain ⟨d', hd', hne, hip⟩ := ih h
    exact ⟨d', List.mem_cons_of_mem _ hd', hne, hip⟩
  | case5 tIp rs ih =>
    obtain ⟨d', hd', hne, hip⟩ := ih h
    exact ⟨d', List.mem_cons_of_mem _ hd', hne, hip⟩

theorem mem_shown {d : Bytes} (hd : some d ∈ rs) (hne : d ≠ []) (htIp : sourceText d ≠ tIp) :
    sourceText d ∈ shown tIp rs := by
  fun_induction shown tIp rs with
  | case1 => cases hd
  | case2 b e rs ih =>
    rcases List.mem_cons.mp hd with h | h
    · obtain rfl := Option.some.inj h
      exact absurd rfl htIp
    · exact ih h htIp
  | case3 tIp b e rs hdiff ih =>
    rcases List.mem_cons.mp hd with h | h
    · obtain rfl := Option.some.inj h
      exact List.mem_cons_self
    · by_cases heq : sourceText d = sourceText (b :: e)
      · rw [heq]
        exact List.mem_cons_self
      · exact List.mem_cons_of_mem _ (ih h heq)
  | case4 tIp rs ih =>
    rcases List.mem_cons.mp hd with h | h
    · exact absurd (Option.some.inj h) hne
    · exact ih h htIp
  | case5 tIp rs ih =>
    rcases List.mem_cons.mp hd with h | h
    · cases h
    · exact ih h htIp

theorem putHop_output (tIp curIp : Bytes) (times : ℕ) (t : Report (Option Bytes)) :
    ∃ out, (t.putHop tIp curIp times).output = t.output ++ out ∧ (∀ i, .index i ∉ out) ∧
      ∀ k, hops k out = if tIp = curIp then [] else [(k, curIp)] := by
  unfold Report.putHop
  split_ifs
  · exact ⟨[], by simp, by simp, fun k => rfl⟩
  · exact ⟨[.align, .hop curIp], by simp [Report.put], by simp, fun k => rfl⟩
  · exact ⟨[.hop curIp], rfl, by simp, fun k => rfl⟩

theorem probes_output (index : ℕ) (l : List Probe) : ∀ tIp t,
    ∃ out, (probes index l (tIp, t)).2.output = t.output ++ out ∧ (∀ i, .index i ∉ out) ∧
      ∀ k, hops k out = (shown tIp (responses l)).map (k, ·) := by
  induction l with
  | nil => exact fun tIp t => ⟨[], by simp [probes], by simp, by simp [hops, responses, shown]⟩
  | cons e rest ih =>
    intro tIp t
    simp only [probes]
    split
    · rw [responses_cons_of_fail ‹_›]
      exact ⟨[.sendFailed e.sendto], rfl, by simp, by simp [hops, shown]⟩
    · rw [responses_cons ‹_›]
      split
      · next b d hd =>
        obtain ⟨out, hout, hindex, hhops⟩ := ih (sourceText (b :: d))
          (((t.sent index (recvWithinTime e.ready)).putHop tIp (sourceText (b :: d))
            rest.length).put (.time e.duration))
        obtain ⟨hop, hhop, hindex', hhops'⟩ := putHop_output tIp (sourceText (b :: d))
          rest.length (t.sent index (recvWithinTime e.ready))
        refine ⟨hop ++ .time e.duration :: out, ?_, ?_, fun k => ?_⟩
        · have htime : (((t.sent index (recvWithinTime e.ready)).putHop tIp (sourceText (b :: d))
              rest.length).put (.time e.duration)).output =
              t.output ++ hop ++ [.time e.duration] := by
            rw [Report.put, hhop]
            rfl
          refine hout.trans ?_
          rw [htime, List.append_assoc, List.append_assoc, List.singleton_append]
        · intro i hi
          rcases List.mem_append.mp hi with h | h
          · exact hindex' i h
          · exact hindex i (by simpa using h)
        · have htime : hops k (.time e.duration :: out) = hops k out := rfl
          rw [hops_append hindex', hhops' k, htime, hhops k, hd, shown]
          split_ifs with heq
          · rw [List.nil_append, heq]
          · rw [List.singleton_append, List.map_cons]
      · next hno =>
        obtain ⟨out, hout, hindex, hhops⟩ := ih tIp
          ((t.sent index (recvWithinTime e.ready)).put .timeout)
        refine ⟨.timeout :: out, ?_, ?_, fun k => ?_⟩
        · rw [hout]
          simp [Report.put, Report.sent]
        · simpa using hindex
        · have htimeout : hops k (.timeout :: out) = hops k out := rfl
          rw [htimeout, hhops k]
          cases hr : recvWithinTime e.ready with
          | none => rfl
          | some d =>
            cases d with
            | nil => rfl
            | cons b d => exact absurd hr (hno b d)

theorem exploreRouter_hops (hh : (inetPton host).isSome) (env : Env) (i k : ℕ)
    (t : Report (Option Bytes)) : hops i (exploreRouter host env k t).2.output =
      hops i t.output ++ (shown [] (round env k)).map (k, ·) := by
  obtain ⟨a, ha⟩ := Option.isSome_iff_exists.mp hh
  obtain ⟨out, hout, hindex, hhops⟩ := probes_output k
    ((List.range everyTTLExpCount).map (env.probe k)) [] (t.put (.index k))
  have houtput : (exploreRouter host env k t).2.output =
      t.output ++ .index k :: (out ++ [.lineEnd]) := by
    simp only [exploreRouter, ha]
    show (probes k _ ([], t.put (.index k))).2.output ++ [.lineEnd] = _
    rw [hout]
    simp [Report.put]
  have hline : hops k [.lineEnd] = [] := rfl
  rw [houtput, hops_append_index, hops_append hindex, hhops k, hline, List.append_nil, round]

theorem exploreAll_hops (hh : (inetPton host).isSome) (ks : List ℕ) : ∀ i t,
    hops i (exploreAll host env ks t).output = hops i t.output ++
      roundLog (fun k => shown [] (round env k)) (ks.takeWhile fun k => 0 ≤ env.ttl k) := by
  induction ks with
  | nil => simp [exploreAll, roundLog]
  | cons k ks ih =>
    intro i t
    have hne := (exploreRouter_log (t := t) hh env k).2
    simp only [exploreAll, if_neg hne]
    split
    · simp [roundLog, not_le.mpr ‹_›]
    · rw [ih, exploreRouter_hops hh]
      simp [roundLog, not_lt.mp ‹_›]

theorem exploreAll_no_hops (hh : inetPton host = none) (ks : List ℕ) : ∀ i t,
    hops i (exploreAll host env ks t).output = hops i t.output := by
  induction ks with
  | nil => exact fun i t => rfl
  | cons k ks ih =>
    intro i t
    have hput : hops i (t.put (.index k)).output = hops i t.output :=
      (hops_append_index i k t.output []).trans (List.append_nil _)
    simp only [exploreAll, exploreRouter, hh]
    split_ifs
    · rfl
    · exact hput
    · rw [ih, hput]

theorem mem_hops_start : (k, ip) ∈ hops i (start host env).output ↔
    (inetPton host).isSome ∧ k ∈ reached env ∧ ip ∈ shown [] (round env k) := by
  have hnew : ¬ ∃ k ip, (k, ip) ∈ hops i (Report.new : Report (Option Bytes)).output := by
    rintro ⟨_, _, h⟩
    cases h
  unfold start reached
  by_cases hs : env.socketW = 0 ∨ env.socketR = 0
  · rw [if_pos hs, if_pos hs]
    exact iff_of_false (fun h => hnew ⟨k, ip, h⟩) fun h => absurd h.2.1 List.not_mem_nil
  by_cases hb : env.rcvBuf < 0
  · rw [if_neg hs, if_neg hs, if_pos hb, if_pos (.inl hb)]
    exact iff_of_false (fun h => hnew ⟨k, ip, h⟩) fun h => absurd h.2.1 List.not_mem_nil
  by_cases hp : env.noSigPipe < 0
  · rw [if_neg hs, if_neg hs, if_neg hb, if_pos hp, if_pos (.inr hp)]
    exact iff_of_false (fun h => hnew ⟨k, ip, h⟩) fun h => absurd h.2.1 List.not_mem_nil
  rw [if_neg hs, if_neg hs, if_neg hb, if_neg hp, if_neg (not_or.mpr ⟨hb, hp⟩)]
  cases hh : inetPton host with
  | none =>
    rw [exploreAll_no_hops hh]
    exact iff_of_false (fun h => hnew ⟨k, ip, h⟩) fun h => absurd h.1 (by decide)
  | some a =>
    have hsome : (inetPton host).isSome := by rw [hh]; rfl
    rw [exploreAll_hops hsome]
    simp [Report.new, hops, mem_roundLog]

/-- An ICMP message, in a well-formed IPv4 packet, that the time is exceeded or the
destination cannot be reached. -/
structure IcmpError (d : Bytes) : Prop where
  wellFormed : WellFormed d
  protocol : d.getD 9 0 = 1
  type : d.getD (ihl d) 0 = 11 ∨ d.getD (ihl d) 0 = 3

/-- The `j`-th read for TTL `i` gives a datagram. -/
def Received (host : Bytes) (env : Env) (i j : ℕ) (d : Bytes) : Prop :=
  (own i (start host env).log)[j]? = some (some d)

/-- Every hop reported for a TTL is the source of an error message that answers a probe
of this TTL; `origin` tells which TTL the datagram of each read answers, if any. -/
def Attributed (host : Bytes) (env : Env) (origin : ℕ → ℕ → Option ℕ) : Prop :=
  ∀ k ip, (k, ip) ∈ hops 0 (start host env).output →
    ∃ i j d, Received host env i j d ∧ origin i j = some k ∧ IcmpError d ∧ sourceText d = ip

theorem received_iff (hh : (inetPton host).isSome) {j : ℕ} {d : Bytes} :
    Received host env i j d ↔ i ∈ reached env ∧ (round env i)[j]? = some (some d) := by
  rw [Received, start_log hh]
  by_cases hi : i ∈ reached env
  · rw [own_roundLog (reached_nodup env) hi]
    exact (and_iff_right hi).symm
  · rw [own_roundLog_of_not_mem hi]
    exact iff_of_false (by simp) fun h => hi h.1

/-- The hops are attributed rightly exactly when the source of whatever is read for a TTL
is the source of an answer to this TTL that is read at some time. -/
theorem attributed_iff (host : Bytes) (env : Env) (origin : ℕ → ℕ → Option ℕ) :
    Attributed host env origin ↔ ((inetPton host).isSome → ∀ k ∈ reached env, ∀ d ≠ [],
      some d ∈ round env k → ∃ i ∈ reached env, ∃ j d', (round env i)[j]? = some (some d') ∧
        origin i j = some k ∧ IcmpError d' ∧ sourceText d' = sourceText d) := by
  constructor
  · intro hattr hh k hk d hne hd
    have hshown := mem_shown hd hne (sourceText_ne_nil d)
    obtain ⟨i, j, d', hrec, horigin, herror, hsource⟩ :=
      hattr k _ (mem_hops_start.mpr ⟨hh, hk, hshown⟩)
    obtain ⟨hi, hj⟩ := (received_iff hh).mp hrec
    exact ⟨i, hi, j, d', hj, horigin, herror, hsource⟩
  · intro hcond k ip hip
    obtain ⟨hh, hk, hshown⟩ := mem_hops_start.mp hip
    obtain ⟨d, hd, hne, rfl⟩ := exists_of_mem_shown hshown
    obtain ⟨i, hi, j, d', hj, horigin, herror, hsource⟩ := hcond hh k hk d hne hd
    exact ⟨i, j, d', (received_iff hh).mpr ⟨hi, hj⟩, horigin, herror, hsource⟩

def timeExceeded : Bytes :=
  [69, 0, 0, 28, 0, 0, 0, 0, 64, 1, 0, 0, 10, 0, 0, 1, 10, 0, 0, 2, 11, 0, 0, 0, 0, 0, 0, 0]

/-- The answer to a probe with TTL 1 comes when the first probe with TTL 2 is waited for,
and no other comes. -/
def lateEnv : Env :=
  ⟨3, 4, 0, 0, fun _ => 0, fun k j => ⟨50, ⟨false, k = 2 ∧ j = 0, some timeExceeded⟩, 1⟩⟩

/-- The router of the first hop is reported for the second. -/
theorem late_answer_misattributed :
    ¬ Attributed (ascii "1.1.1.1") lateEnv fun i j => if i = 2 ∧ j = 0 then some 1 else none := by
  intro h
  have hround : round lateEnv 2 = [some timeExceeded, none, none] := by decide +kernel
  have hhop : (2, sourceText timeExceeded) ∈ hops 0 (start (ascii "1.1.1.1") lateEnv).output := by
    refine mem_hops_start.mpr ⟨by decide, by decide, ?_⟩
    rw [hround]
    exact mem_shown List.mem_cons_self (by decide) (sourceText_ne_nil _)
  obtain ⟨i, j, d, -, horigin, -⟩ := h 2 _ hhop
  dsimp only at horigin
  split_ifs at horigin
  · exact absurd (Option.some.inj horigin) (by decide)

end Native

end QyUtil.Trace
