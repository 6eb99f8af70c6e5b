import QyUtil.Diagnosis.Protocol
import QyUtil.Dns.Server
import QyUtil.Ping.Echo

/-! # A diagnosis from end to end

A diagnosis of a host that a server knows, and of which every address answers its pings.
The callbacks get the addresses that the server has, and for each of them, in the same
order, a status without loss and with the times of its own four attempts.
-/

namespace QyUtil.Diagnosis

open Loops Outcome Bytes Net Dns Ping

variable {env : Pings} {ips : List Bytes} {ipInfo : SocketIpInfo} {as : List Address}
  {dnsServer sendBuf : Bytes} {timeout : ℤ} {ls : List Bytes} {trailing : Bool} {buf : RecvBuf}

def Pings.config (env : Pings) (ip : Bytes) : Config := ⟨cString ip, 4, 0, env.pid⟩

/-- Every attempt of the pingers is answered, by the `k`-th host for the `k`-th address, and
some attempt takes no longer than a second. -/
structure AllAnswer (env : Pings) (hosts : ℕ → IpSender) (as : List Address) : Prop where
  socket : ∀ k < as.length, env.socket k ≠ 0
  echoed : ∀ k a, as[k]? = some a → Echoed (hosts k) (env.config a.dotted) (env.attempt k) 4
  sum_lt : ∀ k a, as[k]? = some a →
    (durations (env.config a.dotted) (env.attempt k)).sum < 2 ^ 64
  fast : ∀ k a, as[k]? = some a →
    ∃ t ∈ durations (env.config a.dotted) (env.attempt k), t ≤ 1000

theorem AllAnswer.status {hosts : ℕ → IpSender} (h : AllAnswer env hosts as) {a : Address} {k : ℕ}
    (ha : as[k]? = some a) : (env.status k a.dotted).lossRate = 0 ∧
      ∃ hne, RttRight (durations (env.config a.dotted) (env.attempt k)) hne
        (env.status k a.dotted) := by
  have hvalid : (inetPton (env.config a.dotted).host).isSome := by
    have hnul : (0 : UInt8) ∉ a.dotted := notMem_dotted (by decide) (by decide) a
    show (inetPton (cString a.dotted)).isSome
    rw [cString_eq_self hnul, inetPton_dotted]
    rfl
  have hs := h.socket k (List.getElem?_eq_some_iff.mp ha).1
  obtain ⟨hloss, hrtt⟩ := (h.echoed k a ha).status hvalid (Nat.zero_le _) hs (Nat.zero_lt_succ 3) 1
  exact ⟨hloss, hrtt (h.sum_lt k a ha) (h.fast k a ha)⟩

def answeringConfig : Config := ⟨ascii "93.184.216.34", 4, 0, 7⟩

def answering : Pings where
  pid := 7
  socket _ := 3
  attempt _ := echoing plainSender answeringConfig

end QyUtil.Diagnosis
