import QyUtil.Trace.PingOutput
import QyUtil.Trace.Route

/-! # A route by the `ping` command

Of a route the command prints the routers where the TTL runs out. Its report gets a row for
each TTL like that of the sockets, but from the host's TTL on all rows are timeouts.
-/

namespace QyUtil.Trace

open Bytes Net

namespace Android

variable {env : ℕ → ℕ → Probe} {shown : ℕ → ℕ → Bool} {t : Report Bytes} {text : Bytes}
  {l : List Probe} {r : Route} {k : ℕ}

def seen (e : Probe) : Option (Bytes × ℕ) :=
  e.popen.bind fun result =>
    if (processPingResult result []).1 then none
    else some ((processPingResult result []).2, e.duration)

theorem probes_printed (hruns : ∀ e ∈ l, e.popen.isSome) (index : ℕ) : ∀ tIp t,
    ∃ t', probes index l (tIp, t) = .ok t' ∧
      t'.output = t.output ++ (printed tIp (l.map seen) ++ [.lineEnd]) := by
  induction l with
  | nil => exact fun _ t => ⟨t.put .lineEnd, rfl, rfl⟩
  | cons e rest ih =>
    intro tIp t
    obtain ⟨hrun, hrest⟩ := List.forall_mem_cons.mp hruns
    obtain ⟨result, hresult⟩ := Option.isSome_iff_exists.mp hrun
    have hseen : seen e = if (processPingResult result []).1 then none
        else some ((processPingResult result []).2, e.duration) := by rw [seen, hresult]; rfl
    rw [probes, hresult, List.map_cons, hseen]
    dsimp only
    split_ifs
    · obtain ⟨t', hrun, hout⟩ := ih hrest tIp ((t.sent index result).put .timeout)
      exact ⟨t', hrun, by rw [hout, printed]; simp [Report.put, Report.sent]⟩
    · have hput := putHop_printed (t.sent index result) tIp (processPingResult result []).2
        rest.length e.duration
      obtain ⟨t', hrun, hout⟩ := ih hrest (processPingResult result []).2 (((t.sent index
        result).putHop tIp (processPingResult result []).2 rest.length).put (.time e.duration))
      refine ⟨t', hrun, ?_⟩
      rw [hout, hput, printed, List.length_map]
      simp [Report.sent]

/-- What a command prints: a line of the router where the TTL has run out, or no such line,
as when the host replies or nothing comes back. -/
inductive Prints (r : Route) (k : ℕ) (text : Bytes) : Bool → Prop where
  | exceeded {line : Bytes} (hk : k ≤ r.routers.length) (hlead : Leads text line)
      (hline : Exceeded (r.hop k) line) : Prints r k text true

  | silent (hnone : Search.search (ascii "From ") text = none) : Prints r k text false

/-- All commands can be run; `shown` tells which of them print the line of a router. -/
def Follows (r : Route) (env : ℕ → ℕ → Probe) (shown : ℕ → ℕ → Bool) : Prop :=
  ∀ k ∈ ttls, ∀ j < everyTTLExpCount,
    ∃ text, (env k j).popen = some text ∧ Prints r k text (shown k j)

def answers (env : ℕ → ℕ → Probe) (shown : ℕ → ℕ → Bool) (k : ℕ) : List (Option ℕ) :=
  (List.range everyTTLExpCount).map fun j =>
    if shown k j then some (env k j).duration else none

theorem Prints.seen {e : Probe} {b : Bool} (he : e.popen = some text) (h : Prints r k text b) :
    seen e = if b then some ((r.hop k).dotted, e.duration) else none := by
  cases h with
  | exceeded hk hlead hline =>
    have hresult := processPingResult_of_fromText (hlead.fromText hline) []
    rw [Android.seen, he, Option.bind_some, hresult]
    rfl
  | silent hnone =>
    have hresult : processPingResult text [] = (true, []) := by
      simp only [processPingResult, Search.find_zero, hnone]
    rw [Android.seen, he, Option.bind_some, hresult]
    rfl

theorem Follows.seen (h : Follows r env shown) (hk : k ∈ ttls) :
    ((List.range everyTTLExpCount).map (env k)).map seen =
      (answers env shown k).map (Option.map ((r.hop k).dotted, ·)) := by
  rw [answers, List.map_map, List.map_map]
  apply List.map_congr_left
  intro j hj
  obtain ⟨text, htext, hprints⟩ := h k hk j (List.mem_range.mp hj)
  rw [Function.comp_apply, Function.comp_apply, hprints.seen htext]
  split_ifs <;> rfl

theorem dotted_ne_nil (a : Address) : a.dotted ≠ [] := by
  simp [Address.dotted]

theorem Follows.exploreRouter (h : Follows r env shown) (hk : k ∈ ttls) (t : Report Bytes) :
    ∃ t', Android.exploreRouter env k t = .ok t' ∧
      t'.output = t.output ++ row k (r.hop k).dotted (answers env shown k) := by
  have hruns : ∀ e ∈ (List.range everyTTLExpCount).map (env k), e.popen.isSome := by
    rw [List.forall_mem_map]
    intro j hj
    obtain ⟨text, htext, -⟩ := h k hk j (List.mem_range.mp hj)
    rw [htext, Option.isSome_some]
  obtain ⟨t', hrun, hout⟩ := probes_printed hruns k [] (t.put (.index k))
  have hlen : (answers env shown k).length = everyTTLExpCount := by
    rw [answers, List.length_map, List.length_range]
  refine ⟨t', hrun, ?_⟩
  rw [hout, h.seen hk, printed_cells (dotted_ne_nil _) hlen.le, hlen, beq_self_eq_true]
  simp [Report.put, row]

theorem Follows.exploreAll (h : Follows r env shown) (ks : List ℕ) (hks : ∀ k ∈ ks, k ∈ ttls)
    (t : Report Bytes) : (Android.exploreAll env ks t).output =
      t.output ++ ks.flatMap fun k => row k (r.hop k).dotted (answers env shown k) := by
  induction ks generalizing t with
  | nil => simp [Android.exploreAll]
  | cons k ks ih =>
    obtain ⟨hk, hrest⟩ := List.forall_mem_cons.mp hks
    obtain ⟨t', hrun, hout⟩ := h.exploreRouter hk t
    rw [Android.exploreAll, hrun]
    dsimp only
    rw [ih hrest, hout, List.append_assoc, List.flatMap_cons]

theorem Follows.construct (h : Follows r env shown) : (Android.construct env).output =
    ttls.flatMap fun k => row k (r.hop k).dotted (answers env shown k) :=
  h.exploreAll ttls (fun _ => id) .new

/-- The TTLs for which the line of a router has been printed, and the router. -/
def located (r : Route) (shown : ℕ → ℕ → Bool) : List (ℕ × Address) :=
  (ttls.filter fun k => (List.range everyTTLExpCount).any (shown k)).map fun k => (k, r.hop k)

theorem answers_any (env : ℕ → ℕ → Probe) (shown : ℕ → ℕ → Bool) (k : ℕ) :
    (answers env shown k).any Option.isSome = (List.range everyTTLExpCount).any (shown k) := by
  rw [answers, List.any_map]
  congr 1
  funext j
  rw [Function.comp_apply]
  cases shown k j <;> rfl

theorem Follows.readReport (h : Follows r env shown) (host : Bytes) :
    (Trace.readReport ((Android.construct env).text host)).map (fun e => (e.1, inetPton e.2)) =
      (located r shown).map fun e => (e.1, some e.2) := by
  have hks : ∀ k ∈ ttls, k < 100 ∧ Plain (r.hop k).dotted :=
    fun k hk => ⟨ttls_lt k hk, plain_dotted _⟩
  rw [Trace.readReport, Report.text_eq, h.construct, readLines_rows hks, located, List.map_map,
    List.map_map]
  simp only [answers_any]
  apply List.map_congr_left
  intro k _
  rw [Function.comp_apply, Function.comp_apply, inetPton_dotted]

theorem Follows.le_of_shown (h : Follows r env shown) (hk : k ∈ ttls)
    (hany : (List.range everyTTLExpCount).any (shown k) = true) : k ≤ r.routers.length := by
  obtain ⟨j, hj, hshown⟩ := List.any_eq_true.mp hany
  obtain ⟨text, -, hprints⟩ := h k hk j (List.mem_range.mp hj)
  rw [hshown] at hprints
  cases hprints with
  | exceeded hle => exact hle

/-- Of one route the command reports the routers that the sockets report, and not the host:
its report is the other one up to the last router, in the addresses' own text. -/
theorem reports_agree (r : Route) (env : ℕ → ℕ → Probe) (shown : ℕ → ℕ → Bool)
    (sockets : Native.Env) (host : Bytes) (hhost : (inetPton host).isSome)
    (h : Follows r env shown) (hs : Native.Follows r sockets)
    (hsame : ∀ k ∈ ttls, k ≤ r.routers.length →
      (List.range everyTTLExpCount).any (shown k) =
        (Native.answers sockets k).any Option.isSome) :
    (Android.construct env).output =
      (ttls.flatMap fun k => row k (r.hop k).dotted (answers env shown k)) ∧
    (Trace.readReport ((Android.construct env).text host)).map (fun e => (e.1, inetPton e.2)) =
      (((Trace.readReport ((Native.start host sockets).text host)).map
        fun e => (e.1, numberAddress e.2)).filter (·.1 ≤ r.routers.length)).map
          fun e => (e.1, some e.2) := by
  refine ⟨h.construct, ?_⟩
  rw [h.readReport, hs.readReport hhost]
  congr 1
  rw [located, Native.located, List.filter_map, List.filter_filter]
  congr 1
  apply List.filter_congr
  intro k hk
  rw [Function.comp_apply]
  by_cases hle : k ≤ r.routers.length
  · rw [decide_eq_true hle, Bool.true_and, hsame k hk hle]
  · rw [decide_eq_false hle, Bool.false_and]
    exact Bool.eq_false_iff.mpr fun hany => hle (h.le_of_shown hk hany)

def exceeding (r : Route) (k j : ℕ) : Probe where
  popen := if k ≤ r.routers.length ∧ ¬ (k = 2 ∧ j = 0) then
      some (ascii "From " ++ ((r.hop k).dotted ++ (ascii ": " ++ ascii "Time to live exceeded")))
    else some []
  duration := 1000 * k

theorem exceeding_follows (r : Route) :
    Follows r (exceeding r) fun k j => k ≤ r.routers.length ∧ ¬ (k = 2 ∧ j = 0) := by
  intro k _ j _
  unfold exceeding
  dsimp only
  by_cases h : k ≤ r.routers.length ∧ ¬ (k = 2 ∧ j = 0)
  · refine ⟨_, if_pos h, ?_⟩
    rw [decide_eq_true h]
    exact .exceeded h.1 ⟨[], [], (List.append_nil _).symm, by simp [Silent], .inl rfl⟩ ⟨_, rfl⟩
  · refine ⟨_, if_neg h, ?_⟩
    rw [decide_eq_false h]
    exact .silent rfl

theorem exceeding_any {r : Route} {k : ℕ} (hk : k ≤ r.routers.length) :
    (List.range everyTTLExpCount).any
      (fun j => k ≤ r.routers.length ∧ ¬ (k = 2 ∧ j = 0)) = true := by
  apply List.any_eq_true.mpr ⟨1, by decide, ?_⟩
  exact decide_eq_true ⟨hk, fun h => absurd h.2 (by decide)⟩

theorem reports_agree_twoRouters :
    (Trace.readReport ((Android.construct (exceeding Native.twoRouters)).text
        (ascii "1.1.1.1"))).map (fun e => (e.1, inetPton e.2)) =
      (((Trace.readReport ((Native.start (ascii "1.1.1.1")
          (Native.answering Native.twoRouters)).text (ascii "1.1.1.1"))).map
        fun e => (e.1, numberAddress e.2)).filter
          (·.1 ≤ Native.twoRouters.routers.length)).map fun e => (e.1, some e.2) :=
  (reports_agree Native.twoRouters (exceeding Native.twoRouters) _
    (Native.answering Native.twoRouters) (ascii "1.1.1.1") (by decide) (exceeding_follows _)
    (Native.answering_follows _)
    fun _ _ hle => (exceeding_any hle).trans (Native.answering_any _ _).symm).2

end Android

end QyUtil.Trace
