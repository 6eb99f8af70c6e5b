import QyUtil.Bytes.Pairs
import QyUtil.Dns.Result

/-! # The joined addresses

The model of `NativeGetHostNameByServer`, which joins the addresses of a lookup.
It takes off the last comma and copies the string only after a return value of
zero, and this value means that there is an address.
-/

namespace QyUtil.Dns

open Loops Outcome Bytes Net

/-- Undefined behaviour of the lookup, of the access `ip[i]`, and of `pop_back`. -/
inductive JoinFault where
  | lookup (e : Fault)
  | addressIndex (i : ℕ)
  | popEmpty
  deriving DecidableEq, Repr

/-- The loop over the addresses from index `i` on, with `n` turns to go. -/
def joinLoop (info : SocketIpInfo) : ℕ → ℕ → Bytes → Outcome JoinFault Bytes
  | 0, _, ips => pure ips
  | n + 1, i, ips => do
    guard (.addressIndex i) (i < socketMaxIpCount)
    joinLoop info n (i + 1) (ips ++ (info.ip.getD i [] ++ [44]))

/-- What `ipList` holds, with the given bytes there before, when `ret` and the addresses
are those of the lookup. -/
def joinAddresses (ret : ℤ) (info : SocketIpInfo) (ipList : Bytes) :
    Outcome JoinFault (ℤ × Bytes) :=
  if ret = 0 then do
    let ips ← joinLoop info info.size 0 []
    guard .popEmpty (ips ≠ [])
    pure (ret, writeAt ipList 0 (cString ips.dropLast ++ [0]))
  else pure (ret, ipList)

/-- The timeout is not passed on. -/
def nativeGetHostNameByServer (fuel : ℕ) (net : Network) (hostName : Option Bytes) (_timeout : ℤ)
    (dnsServer : Option Bytes) (ipList : Bytes) : Outcome JoinFault (ℤ × Bytes) := do
  let r ← (socketGethostbyname fuel net hostName (some emptyInfo) 1000 dnsServer).liftFault .lookup
  joinAddresses r.ret (r.info.getD emptyInfo) ipList

variable {net : Network} {info info' : SocketIpInfo} {host : Option Bytes} {timeout : ℤ}
  {dnsserver : Option Bytes} {r : Lookup} {as : List Address} {n : ℕ}

theorem Holds.le (h : Holds info as) : as.length ≤ socketMaxIpCount := by
  have hlen := congrArg List.length h.2
  rw [List.length_take, info.ip_length, List.length_map, h.1] at hlen
  omega

/-- The return value of a lookup, and the addresses it says it holds. -/
structure Contract (r : Lookup) (info : SocketIpInfo) (as : List Address) : Prop where
  info_eq : r.info = some info
  holds : Holds info as
  success : r.ret = 0 ↔ as ≠ []
  failure : r.ret = -1 ↔ as = []

theorem lookup_contract (h0 : info.size = 0)
    (h : socketGethostbyname n net host (some info) timeout dnsserver = done r) :
    ∃ info' as, Contract r info' as := by
  have hret : r.ret = 0 ∨ r.ret = -1 := by
    cases host with
    | none =>
      obtain rfl := done.inj h
      exact .inr rfl
    | some host =>
      rcases lookup_cases h with ⟨hret, -⟩ | ⟨_, _, info', _, -, -, -, hret, -⟩
      · exact .inr hret
      · rw [hret]
        split_ifs
        · exact .inr rfl
        · exact .inl rfl
  have hc : Consistent r := by
    cases host with
    | none =>
      obtain rfl := done.inj h
      exact consistent_failed h0 rfl rfl
    | some host => exact lookup_consistent h0 h
  obtain ⟨info', as, hinfo, hholds, hsuccess⟩ := hc
  refine ⟨info', as, hinfo, hholds, hsuccess, ?_⟩
  rw [← not_iff_not, ← Ne, ← Ne, ← hsuccess]
  rcases hret with hret | hret <;> simp [hret]

theorem joinLoop_done {i : ℕ} (hn : i + n ≤ socketMaxIpCount) (ips : Bytes) :
    joinLoop info n i ips =
      done (ips ++ ((info.ip.drop i).take n).flatMap (· ++ [44])) := by
  induction n generalizing i ips with
  | zero => simp [joinLoop]
  | succ n ih =>
    have hi : i < info.ip.length := by
      rw [info.ip_length]
      omega
    rw [joinLoop, guard_true (by omega), done_bind, ih (by omega), List.drop_eq_getElem_cons hi,
      List.take_succ_cons, List.flatMap_cons, List.getD_eq_getElem _ _ hi]
    simp

def joinedAddresses (as : List Address) : Bytes := [44].intercalate (as.map Address.dotted)

theorem length_commas (as : List Address) :
    ((as.map Address.dotted).flatMap (· ++ [44])).length ≤ 16 * as.length := by
  induction as with
  | nil => simp
  | cons a as ih =>
    have := length_dotted a
    simp only [List.map_cons, List.flatMap_cons, List.length_append, List.length_cons,
      List.length_nil]
    omega

variable (hne : as ≠ [])
include hne

theorem joined_append_comma :
    joinedAddresses as ++ [44] = (as.map Address.dotted).flatMap (· ++ [44]) :=
  Pairs.intercalate_append (by simpa using hne) [44]

theorem zero_notMem_joinedAddresses : (0 : UInt8) ∉ joinedAddresses as := by
  intro hm
  have hm' : (0 : UInt8) ∈ (as.map Address.dotted).flatMap (· ++ [44]) := by
    rw [← joined_append_comma hne]
    exact List.mem_append_left _ hm
  obtain ⟨t, ht, hmem⟩ := List.mem_flatMap.mp hm'
  obtain ⟨a, -, rfl⟩ := List.mem_map.mp ht
  rcases List.mem_append.mp hmem with h | h
  · exact notMem_dotted (by decide) (by decide) a h
  · exact absurd h (by decide)

/-- What is copied fits into 320 bytes with its terminator. -/
theorem length_joinedAddresses (hle : as.length ≤ socketMaxIpCount) :
    (joinedAddresses as).length ≤ 319 := by
  have hlen := congrArg List.length (joined_append_comma hne)
  have hle' := length_commas as
  rw [List.length_append, List.length_singleton] at hlen
  rw [socketMaxIpCount] at hle
  omega

omit hne

theorem joinAddresses_contract (h : Contract r info as) (ipList : Bytes) :
    joinAddresses r.ret info ipList = done (r.ret,
      if r.ret = 0 then writeAt ipList 0 (joinedAddresses as ++ [0]) else ipList) := by
  by_cases hret : r.ret = 0
  · have hne := h.success.mp hret
    have hsize : info.size ≤ socketMaxIpCount := by
      rw [h.holds.1]
      exact h.holds.le
    have hloop : joinLoop info info.size 0 [] = done (joinedAddresses as ++ [44]) := by
      rw [joinLoop_done (by omega), List.drop_zero, h.holds.2, List.nil_append,
        joined_append_comma hne]
    rw [joinAddresses, if_pos hret, if_pos hret, hloop, done_bind,
      guard_true (List.append_ne_nil_of_right_ne_nil _ (List.cons_ne_nil _ _)), done_bind,
      List.dropLast_concat, cString_eq_self (zero_notMem_joinedAddresses hne)]
    rfl
  · rw [joinAddresses, if_neg hret, if_neg hret]
    rfl

theorem nativeGetHostNameByServer_done
    (hr : socketGethostbyname n net host (some emptyInfo) 1000 dnsserver = done r)
    (h : Contract r info as) (ipList : Bytes) :
    nativeGetHostNameByServer n net host timeout dnsserver ipList = done (r.ret,
      if r.ret = 0 then writeAt ipList 0 (joinedAddresses as ++ [0]) else ipList) :=
  bind_eq_done.mpr ⟨r, liftFault_eq_done.mpr hr, by
    rw [h.info_eq, Option.getD_some, joinAddresses_contract h]⟩

theorem nativeGetHostNameByServer_fault {ipList : Bytes} {e : JoinFault}
    (h : nativeGetHostNameByServer n net host timeout dnsserver ipList = fault e) :
    ∃ e', e = .lookup e' := by
  rcases bind_eq_fault.mp h with h | ⟨r, hr, h⟩
  · obtain ⟨e', -, rfl⟩ := liftFault_eq_fault.mp h
    exact ⟨e', rfl⟩
  · obtain ⟨info', as, hc⟩ := lookup_contract rfl (liftFault_eq_done.mp hr)
    rw [hc.info_eq, Option.getD_some, joinAddresses_contract hc] at h
    cases h

end QyUtil.Dns
