import QyUtil.Dns.Answer
import QyUtil.Ping.Statistics

/-! # The diagnosis of a host

The model of `NetworkDiagnosis` for platforms other than Android. One error object is
passed to all callbacks; a call is recorded with what the object holds at that time.
-/

namespace QyUtil.Diagnosis

open Loops Outcome Bytes Dns Ping

def maxMsgBuf : ℕ := 512

structure ErrorInfo where
  errorCode : ℤ
  msg : Bytes
  deriving DecidableEq, Repr

/-- `set`; `none` is the null pointer. -/
def ErrorInfo.set (e : ErrorInfo) (nerr : ℤ) (msg : Option Bytes) : ErrorInfo :=
  match msg with
  | some m =>
    let size := if maxMsgBuf ≤ m.length then maxMsgBuf - 1 else m.length
    ⟨nerr, strncpy e.msg m size⟩
  | none => ⟨nerr, List.replicate maxMsgBuf 0⟩

def ErrorInfo.recover (e : ErrorInfo) : ErrorInfo := e.set 0 none

/-- A new object, whatever its memory held before. -/
def ErrorInfo.new (garbage : ErrorInfo) : ErrorInfo := garbage.recover

inductive Call where
  | dnsQuery (ips : List Bytes) (error : ErrorInfo)
  | ping (status : PingStatus) (error : ErrorInfo)

/-- What the pings of a run meet: the identifier of the process, and for each of them
the socket and what happens in its attempts. -/
structure Pings where
  pid : UInt16
  socket : ℕ → ℤ
  attempt : ℕ → ℕ → Attempt

/-- `_ping_status` of `pinger(ip, 4, 0, 1, 0)`, the `i`-th pinger of the run. -/
def Pings.status (env : Pings) (i : ℕ) (ip : Bytes) : PingStatus :=
  pingStatus ⟨cString ip, 4, 0, env.pid⟩ 1 (env.socket i) (env.attempt i)

def pingAll (env : Pings) : ℕ → List Bytes → ErrorInfo → List Call
  | _, [], _ => []
  | i, ip :: ips, error =>
    let error := error.recover
    .ping (env.status i ip) error :: pingAll env (i + 1) ips error

/-- The calls that `NetworkDiagnosis` makes for what the lookup has stored. -/
def callbacks (env : Pings) (garbage : ErrorInfo) (ipInfo : SocketIpInfo) : List Call :=
  let vecIp := (List.range ipInfo.size).map fun i => ipInfo.ip.getD i []
  let error := ErrorInfo.new garbage
  let error := if ipInfo.size = 0 then error.set (-1) (some (ascii "unknown host")) else error
  .dnsQuery vecIp error ::
    if ipInfo.size = 0 then
      let error := error.recover
      let error := error.set (-1) (some (ascii "empty ip list"))
      [.ping .new error]
    else pingAll env 0 vecIp error

/-- `NetworkDiagnosis`: its result and the calls it makes. What the uninitialised
`ipInfo.ip` holds is part of `ipInfo`. -/
def networkDiagnosis (fuel : ℕ) (net : Network) (env : Pings) (garbage : ErrorInfo)
    (ipInfo : SocketIpInfo) (hostName : Bytes) (dnsServer : Bytes) (timeout : ℤ) :
    Outcome Dns.Fault (ℤ × List Call) := do
  let r ← socketGethostbyname fuel net (some (cString hostName)) (some { ipInfo with size := 0 })
    timeout (some (cString dnsServer))
  pure (r.ret, callbacks env garbage (r.info.getD ipInfo))

end QyUtil.Diagnosis
