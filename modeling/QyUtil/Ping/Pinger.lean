import QyUtil.Net.Headers
import QyUtil.Net.Inet

/-! # The pinger

`pinger<_, 0>::start` makes a number of attempts. Each sends an echo request and
reads at most one datagram. `read_data` answers with a length, and `start` takes
every positive answer for a reply. The members that hold the received headers
live as long as the object, so a short datagram leaves older bytes in them.
-/

namespace QyUtil.Ping

open Bytes Net

def sendLen : ℕ := 1024

def recvLen : ℕ := 65536

/-- What the constructor is given, and the identifier of the process. -/
structure Config where
  host : Bytes
  times : ℤ
  packageSize : ℕ
  pid : UInt16
  deriving DecidableEq, Repr

structure PingState where
  costTime : ℕ
  bsend : Bool
  brecv : Bool
  deriving DecidableEq, Repr

/-- The members that `start` changes, the arguments of each `sendto` and the
lines passed to the log. -/
structure Pinger where
  sequenceNumber : ℕ
  recvIpv4Hdr : Ipv4Header
  recvIcmpHdr : IcmpHeader
  result : List PingState
  sent : List (Bytes × ℕ)
  info : List Bytes

def Pinger.new : Pinger := ⟨0, .new, .new, [], [], []⟩

/-- What happens outside during one attempt. `recvfrom` fails or returns a
datagram, of which it keeps what fits the buffer. -/
structure Attempt where
  sendto : ℤ
  recvfrom : Option Bytes
  duration : ℕ
  deriving DecidableEq, Repr

def Attempt.datagram (a : Attempt) : Option Bytes := a.recvfrom.map (List.take recvLen)

def sumBody : UInt32 → Bytes → UInt32
  | sum, [] => sum
  | sum, [a] => sum + (a.toUInt32 <<< 8)
  | sum, a :: b :: rest => sumBody (sum + (a.toUInt32 <<< 8) + b.toUInt32) rest

def computeChecksum (header : IcmpHeader) (body : Bytes) : IcmpHeader :=
  let sum := sumBody ((header.type.toUInt32 <<< 8) + header.code.toUInt32 +
    UInt32.ofNat header.identifier + UInt32.ofNat header.sequenceNumber) body
  let sum := (sum >>> 16) + (sum &&& 0xFFFF)
  let sum := sum + (sum >>> 16)
  header.setChecksum (~~~sum).toUInt16

/-- The header of the request, with the sequence number cut to 16 bits. -/
def echoRequest (pid : UInt16) (sequenceNumber : ℕ) (body : Bytes) : IcmpHeader :=
  computeChecksum ((((IcmpHeader.new.setType IcmpHeader.echoRequest).setCode 0).setIdentifier
    pid).setSequenceNumber (UInt16.ofNat sequenceNumber)) body

/-- `_send_buf` after the header and, by `strcpy`, the body have been stored. -/
def fillSendBuf (header : IcmpHeader) (body : Bytes) : Bytes :=
  writeAt (writeAt (List.replicate sendLen 0) 0 header.rep.bytes) 8 (cString body ++ [0])

def sendData (c : Config) (a : Attempt) (s : Pinger) : ℤ × Pinger :=
  let s := { s with sequenceNumber := s.sequenceNumber + 1 }
  let body := List.replicate c.packageSize 0
  let sendBuf := fillSendBuf (echoRequest c.pid s.sequenceNumber body) body
  match inetPton c.host with
  | none => (0, s)
  | some _ => (a.sendto, { s with sent := s.sent ++ [(sendBuf, 8 + body.length)] })

def readData (c : Config) (a : Attempt) (s : Pinger) : ℤ × Pinger :=
  match a.datagram with
  | none => (-1, s)
  | some d =>
    let r := readHeaders s.recvIpv4Hdr s.recvIcmpHdr d
    let s := { s with recvIpv4Hdr := r.1, recvIcmpHdr := r.2.1 }
    if r.2.2.good ∧ r.2.1.type = IcmpHeader.echoReply ∧ r.2.1.identifier = c.pid.toNat ∧
        r.2.1.sequenceNumber = s.sequenceNumber then
      (r.1.totalLength, s)
    else (d.length, s)

/-- The line that `start` writes for a reply, from the headers it has at hand. -/
def replyLine (s : Pinger) (duration : ℕ) : Bytes :=
  decimal s.recvIpv4Hdr.headerLength ++ ascii " bytes from " ++
    intText s.recvIpv4Hdr.sourceAddress ++ ascii ": icmp_seq=" ++
    decimal s.recvIcmpHdr.sequenceNumber ++ ascii ", ttl=" ++
    decimal s.recvIpv4Hdr.timeToLive ++ ascii ", time=" ++ decimal duration ++ ascii "ms"

def Pinger.push (s : Pinger) (state : PingState) : Pinger :=
  { s with result := s.result ++ [state] }

/-- The body of the loop of `start`. -/
def attempt (c : Config) (a : Attempt) (s : Pinger) : Pinger :=
  let state : PingState := ⟨0, false, false⟩
  let r := sendData c a s
  if 0 < r.1 then
    let q := readData c a r.2
    if 0 < q.1 then
      let s := { q.2 with info := q.2.info ++ [replyLine q.2 a.duration] }
      s.push { state with bsend := true, brecv := true, costTime := a.duration }
    else q.2.push state
  else r.2.push state

/-- The object after the first attempts of the loop. -/
def attempts (c : Config) (env : ℕ → Attempt) : ℕ → Pinger
  | 0 => .new
  | i + 1 => attempt c (env i) (attempts c env i)

def effectiveTimes (times : ℤ) : ℕ := if times = 0 then 4 else times.toNat

/-- `start`, up to the statistics over the result. -/
def start (c : Config) (socket : ℤ) (env : ℕ → Attempt) : Pinger :=
  if socket = 0 then .new else attempts c env (effectiveTimes c.times)

end QyUtil.Ping
