import QyUtil.Diagnosis.Basic
import QyUtil.Dns.Result

/-! # The calls of a diagnosis

What the callbacks see of a run. The lookup stores an address exactly when it succeeds,
so the list of addresses, the codes of the calls and the result of the run say the same.
-/

namespace QyUtil.Diagnosis

open Loops Outcome Bytes Net Dns Ping

variable {env : Pings} {garbage error : ErrorInfo} {ips : List Bytes} {ipInfo : SocketIpInfo}
  {net : Network} {hostName dnsServer : Bytes} {timeout ret : ℤ} {as : List Address} {i : ℕ}

/-- A call for one address: no error, no message, and the status of this address. -/
def PingsAddress (ip : Bytes) (call : Call) : Prop :=
  ∃ status error, call = .ping status error ∧ error.errorCode = 0 ∧ cString error.msg = [] ∧
    cString status.ip = ip

/-- The calls of a run that has resolved these addresses and gives this result. -/
structure Follows (ips : List Bytes) (ret : ℤ) (calls : List Call) : Prop where
  /-- the lookup is reported first, and once -/
  order : ∃ error pings, calls = .dnsQuery ips error :: pings ∧
    (error.errorCode = -1 ↔ ips = []) ∧
    (ips = [] → ∃ error, pings = [.ping .new error] ∧ error.errorCode = -1) ∧
    (ips ≠ [] → List.Forall₂ PingsAddress ips pings)
  result : ret = 0 ↔ ∀ status error, .ping status error ∈ calls → error.errorCode = 0

theorem cString_zeros (n : ℕ) : cString (List.replicate n 0) = [] := by
  cases n <;> simp [cString, List.replicate_succ]

theorem cString_strncpy {s : Bytes} {n : ℕ} (hs : (0 : UInt8) ∉ s) (hn : s.length ≤ n) (m : ℕ) :
    cString (strncpy (List.replicate m 0) s n) = s := by
  have htake : (s ++ List.replicate n 0).take n = s ++ List.replicate (n - s.length) 0 := by
    rw [List.take_append, List.take_of_length_le hn, List.take_replicate,
      min_eq_left (Nat.sub_le _ _)]
  rw [strncpy, cString_eq_self hs, htake, writeAt, List.take_zero, List.nil_append,
    List.append_assoc, cString_append hs, List.drop_replicate, List.replicate_append_replicate,
    cString_zeros, List.append_nil]

theorem Pings.status_ip (env : Pings) (i : ℕ) (a : Address) :
    cString (env.status i a.dotted).ip = a.dotted := by
  have hnul : (0 : UInt8) ∉ a.dotted := notMem_dotted (by decide) (by decide) a
  show cString (strncpy (List.replicate 16 0) (cString a.dotted) 15) = a.dotted
  rw [cString_eq_self hnul]
  exact cString_strncpy hnul (length_dotted a) 16

theorem pingAll_addresses (as : List Address) : ∀ i error,
    List.Forall₂ PingsAddress (as.map Address.dotted)
      (pingAll env i (as.map Address.dotted) error) := by
  induction as with
  | nil => exact fun _ _ => .nil
  | cons a as ih =>
    intro i error
    exact .cons ⟨_, _, rfl, rfl, cString_zeros _, env.status_ip i a⟩ (ih _ _)

theorem pingAll_code (ips : List Bytes) : ∀ i error, ∀ call ∈ pingAll env i ips error,
    ∀ status error, call = .ping status error → error.errorCode = 0 := by
  induction ips with
  | nil => simp [pingAll]
  | cons ip ips ih =>
    intro i error call hmem status error' hcall
    rcases List.mem_cons.mp hmem with rfl | hmem
    · obtain ⟨-, rfl⟩ := Call.ping.inj hcall
      rfl
    · exact ih _ _ call hmem status error' hcall

theorem vecIp_eq (h : Holds ipInfo as) :
    (List.range ipInfo.size).map (fun i => ipInfo.ip.getD i []) = as.map Address.dotted := by
  have hlen := congrArg List.length h.2
  rw [List.length_take, List.length_map, ← h.1] at hlen
  rw [← h.2]
  refine List.ext_getElem (by simpa using by omega) fun i hi hi' => ?_
  rw [List.length_map, List.length_range] at hi
  rw [List.getElem_map, List.getElem_range, List.getElem_take,
    List.getD_eq_getElem _ _ (by omega)]

theorem callbacks_follow (env : Pings) (garbage : ErrorInfo) (h : Holds ipInfo as)
    (hret : ret = 0 ↔ as ≠ []) :
    Follows (as.map Address.dotted) ret (callbacks env garbage ipInfo) := by
  have hsize : ipInfo.size = 0 ↔ as = [] := by rw [h.1, List.length_eq_zero_iff]
  simp only [callbacks, vecIp_eq h, hsize]
  by_cases hnil : as = []
  · subst hnil
    simp only [if_true]
    have hcode : ((ErrorInfo.new garbage).set (-1) (some (ascii "unknown host"))).errorCode = -1 :=
      rfl
    refine ⟨⟨_, _, rfl, iff_of_true hcode rfl, fun _ => ⟨_, rfl, rfl⟩, fun h => absurd rfl h⟩, ?_⟩
    refine iff_of_false (fun h => hret.mp h rfl) fun hall => ?_
    have hping := hall _ _ (List.mem_cons_of_mem _ List.mem_cons_self)
    exact absurd hping (show (-1 : ℤ) ≠ 0 by decide)
  · simp only [if_neg hnil]
    have hne : as.map Address.dotted ≠ [] := by simpa using hnil
    have hpings := @pingAll_addresses env as 0 (ErrorInfo.new garbage)
    have hcode : (ErrorInfo.new garbage).errorCode ≠ -1 := show (0 : ℤ) ≠ -1 by decide
    refine ⟨⟨_, _, rfl, iff_of_false hcode hne, fun h => absurd h hne, fun _ => hpings⟩, ?_⟩
    refine iff_of_true (hret.mpr hnil) fun status error hmem => ?_
    rcases List.mem_cons.mp hmem with hdns | hping
    · cases hdns
    · exact pingAll_code _ _ _ _ hping status error rfl

/-- Whatever comes of the lookup and of the pings, the calls follow the protocol. -/
theorem diagnosis_follows (env : Pings) (garbage : ErrorInfo) {r : Lookup}
    (hr : Returns (fun n => socketGethostbyname n net (some (cString hostName))
      (some { ipInfo with size := 0 }) timeout (some (cString dnsServer))) r) :
    ∃ info calls, r.info = some info ∧ Follows (info.ip.take info.size) r.ret calls ∧
      Returns (fun n => networkDiagnosis n net env garbage ipInfo hostName dnsServer timeout)
        (r.ret, calls) := by
  obtain ⟨n, hn⟩ := hr
  obtain ⟨info, as, hinfo, hholds, hret⟩ := lookup_consistent rfl hn
  refine ⟨info, callbacks env garbage info, hinfo, ?_, n, ?_⟩
  · rw [hholds.2]
    exact callbacks_follow env garbage hholds hret
  · simp only [networkDiagnosis, hn, done_bind, hinfo, Option.getD_some, pure_eq]

theorem diagnosis_follows_alias : ∃ calls, Follows [ascii "93.184.216.34"] 0 calls ∧
    Returns (fun n => networkDiagnosis n aliasNetwork ⟨7, fun _ => 3, fun _ _ => ⟨8, none, 1⟩⟩
      ⟨0, []⟩ emptyInfo (Dns.hostName [ascii "q", ascii "a"] false) (ascii "8.8.8.8") 0)
      (0, calls) := by
  obtain ⟨a, hread, -⟩ := aliasResponse_records.readResponse plentiful_reliable
    (by decide) emptyInfo
  have hlookup : Returns (fun n => socketGethostbyname n aliasNetwork
      (some (cString (Dns.hostName [ascii "q", ascii "a"] false)))
      (some { emptyInfo with size := 0 }) 0 (some (cString (ascii "8.8.8.8"))))
      (answered aliasNetwork [ascii "q", ascii "a"]
        (pushAll emptyInfo [⟨93, 184, 216, 34⟩]) a) := by
    rw [cString_hostName fun _ => aliasLabels]
    exact lookup_returns (fun _ => aliasLabels) rfl (by decide) (by decide) (by decide) rfl hread
  obtain ⟨info, calls, hinfo, hfollows, hret⟩ := diagnosis_follows
    ⟨7, fun _ => 3, fun _ _ => ⟨8, none, 1⟩⟩ ⟨0, []⟩ hlookup
  obtain rfl := Option.some.inj hinfo
  exact ⟨calls, hfollows, hret⟩

end QyUtil.Diagnosis
