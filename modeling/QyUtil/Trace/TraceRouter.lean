import QyUtil.Bytes.Search
import QyUtil.Net.Headers
import QyUtil.Net.Inet

/-! # The traceroute

`TraceRouter<_, 0>` sends UDP probes with growing TTL from one socket and reads
ICMP messages from another. `TraceRouter<_, 1>` runs the `ping` command for each
probe and scans its output. Both make three probes for each TTL from 1 to 19 and
report the hop that answered as a text.
-/

namespace QyUtil.Trace

open Bytes Net Search

universe u

def bufLen : ℕ := 65536

def everyTTLExpCount : ℕ := 3

def maxTraceTTL : ℕ := 20

/-- The texts passed to the output, with the values they are formatted from. -/
inductive Output where
  | index (i : ℕ)
  | sendFailed (ret : ℤ)
  | timeout
  | align
  | hop (ip : Bytes)
  | time (duration : ℕ)
  | lineEnd
  deriving DecidableEq, Repr

/-- What has been printed, and for each probe sent its TTL and what came back. -/
structure Report (ρ : Type u) where
  output : List Output
  log : List (ℕ × ρ)

namespace Report

variable {ρ : Type u}

def new : Report ρ := ⟨[], []⟩

def put (t : Report ρ) (o : Output) : Report ρ := { t with output := t.output ++ [o] }

def sent (t : Report ρ) (index : ℕ) (r : ρ) : Report ρ := { t with log := t.log ++ [(index, r)] }

@[simp] theorem log_put (t : Report ρ) (o : Output) : (t.put o).log = t.log := rfl

@[simp] theorem log_sent (t : Report ρ) (index : ℕ) (r : ρ) :
    (t.sent index r).log = t.log ++ [(index, r)] := rfl

/-- Report a hop unless it is the one reported last. `times` probes are still to come. -/
def putHop (t : Report ρ) (tIp curIp : Bytes) (times : ℕ) : Report ρ :=
  if tIp = curIp then t
  else (if times ≠ everyTTLExpCount - 1 then t.put .align else t).put (.hop curIp)

@[simp] theorem log_putHop (t : Report ρ) (tIp curIp : Bytes) (times : ℕ) :
    (t.putHop tIp curIp times).log = t.log := by
  unfold putHop
  split_ifs <;> rfl

end Report

/-- The values the counter of the loop over the TTLs takes. -/
def ttls : List ℕ := List.range' 1 (maxTraceTTL - 1)

namespace Native

/-- What `select` and, if it is called, `recvfrom` return. -/
structure Ready where
  exceptional : Bool
  readable : Bool
  recvfrom : Option Bytes
  deriving DecidableEq, Repr

/-- `none` is the result -1. -/
def recvWithinTime (r : Ready) : Option Bytes :=
  if r.exceptional then none
  else if r.readable then r.recvfrom.map (List.take bufLen) else none

structure Probe where
  sendto : ℤ
  ready : Ready
  duration : ℕ
  deriving DecidableEq, Repr

/-- The results of the system calls of a run. The probes of each TTL are numbered
in the order in which they are made. -/
structure Env where
  socketW : ℤ
  socketR : ℤ
  rcvBuf : ℤ
  noSigPipe : ℤ
  ttl : ℕ → ℤ
  probe : ℕ → ℕ → Probe

/-- The loop of `explore_router` over the probes of one TTL, with `t_ip`. -/
def probes (index : ℕ) : List Probe → Bytes × Report (Option Bytes) → Bytes × Report (Option Bytes)
  | [], s => s
  | e :: rest, (tIp, t) =>
    if e.sendto ≤ 0 then (tIp, t.put (.sendFailed e.sendto))
    else
      let t := t.sent index (recvWithinTime e.ready)
      match recvWithinTime e.ready with
      | some (b :: d) =>
        let curIp := intText (readHeaders .new .new (b :: d)).1.sourceAddress
        probes index rest (curIp, (t.putHop tIp curIp rest.length).put (.time e.duration))
      | _ => probes index rest (tIp, t.put .timeout)

/-- The probes of one TTL. The result holds `t_ip`, which starts empty. -/
def exploreRouter (host : Bytes) (env : Env) (index : ℕ) (t : Report (Option Bytes)) :
    Bytes × Report (Option Bytes) :=
  let t := t.put (.index index)
  match inetPton host with
  | none => ([], t)
  | some _ =>
    let r := probes index ((List.range everyTTLExpCount).map (env.probe index)) ([], t)
    (r.1, r.2.put .lineEnd)

/-- The loop of `start`, which compares `t_ip` with the host to find the end. -/
def exploreAll (host : Bytes) (env : Env) : List ℕ → Report (Option Bytes) → Report (Option Bytes)
  | [], t => t
  | i :: rest, t =>
    if env.ttl i < 0 then t
    else
      let r := exploreRouter host env i t
      if r.1 = host then r.2 else exploreAll host env rest r.2

def start (host : Bytes) (env : Env) : Report (Option Bytes) :=
  if env.socketW = 0 ∨ env.socketR = 0 then .new
  else if env.rcvBuf < 0 then .new
  else if env.noSigPipe < 0 then .new
  else exploreAll host env ttls .new

end Native

namespace Android

/-- What one command prints. Without a pipe, `fgets` reads from a null pointer and
the run ends. -/
structure Probe where
  popen : Option Bytes
  duration : ℕ
  deriving DecidableEq, Repr

/-- Whether the probe timed out, and the address, which is else left alone. -/
def processPingResult (result ip : Bytes) : Bool × Bytes :=
  match find result (ascii "From ") 0 with
  | none => (true, ip)
  | some pos =>
    let ipStr := result.drop (pos + 5)
    match find ipStr (ascii ": ") 0 with
    | none => (true, ip)
    | some spacePos => (false, ipStr.take spacePos)

/-- The loop of `explore_router`. An error carries what a crash leaves behind. -/
def probes (index : ℕ) : List Probe → Bytes × Report Bytes → Except (Report Bytes) (Report Bytes)
  | [], (_, t) => .ok (t.put .lineEnd)
  | e :: rest, (tIp, t) => match e.popen with
    | none => .error t
    | some result =>
      let t := t.sent index result
      let r := processPingResult result []
      if r.1 then probes index rest (tIp, t.put .timeout)
      else probes index rest (r.2, (t.putHop tIp r.2 rest.length).put (.time e.duration))

def exploreRouter (env : ℕ → ℕ → Probe) (index : ℕ) (t : Report Bytes) :
    Except (Report Bytes) (Report Bytes) :=
  probes index ((List.range everyTTLExpCount).map (env index)) ([], t.put (.index index))

/-- The loop of the constructor, which does not look at `t_ip`. -/
def exploreAll (env : ℕ → ℕ → Probe) : List ℕ → Report Bytes → Report Bytes
  | [], t => t
  | i :: rest, t => match exploreRouter env i t with
    | .error t => t
    | .ok t => exploreAll env rest t

def construct (env : ℕ → ℕ → Probe) : Report Bytes := exploreAll env ttls .new

end Android

end QyUtil.Trace
