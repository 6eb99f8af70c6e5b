import QyUtil.Dns.Query
import QyUtil.Net.Inet

/-! # Reading the answers

The models of `ReadRecvAnswer` and of `socket_gethostbyname` around it. The
record walk advances by what `ReadName` reports and by RDLENGTH. The copy loop
walks over as many records as the header announces, whether they were read or not.
-/

namespace QyUtil.Dns

open Loops Outcome Bytes Net

def socketMaxIpCount : ℕ := 20

/-- `RES_RECORD`; `none` is `NULL`, and `resource` is a position in the receive buffer. -/
structure ResRecord where
  name : Option Block
  resource : Option ℕ
  rdata : Option Block
  deriving DecidableEq, Repr

def RecvBuf.ntohs (buf : RecvBuf) (i : ℕ) : Outcome Fault ℕ := do
  let hi ← buf.load i
  let lo ← buf.load (i + 1)
  pure (be16 hi lo)

def RecvBuf.copy (buf : RecvBuf) : ℕ → ℕ → Outcome Fault Bytes
  | 0, _ => pure []
  | n + 1, i => do
    let b ← buf.load i
    let bs ← buf.copy n (i + 1)
    pure (b :: bs)

/-- `sizeof(struct R_DATA)`, and the offset of `data_len` in it. -/
def rDataSize : ℕ := 10
def dataLenOffset : ℕ := 8

/-- The stores that fill a block of `n + 1` bytes with data and a terminator. -/
def fillStores (block n : ℕ) : List HeapEvent :=
  .malloc block :: (List.range (n + 1)).map fun k : ℕ => .store block k (n + 1)

/-- One record as the loop of `ReadRecvAnswer` leaves it, with the new cursor.
`more` is false when the loop ends with "answer error.". -/
structure AnswerRead where
  record : ResRecord
  reader : ℕ
  calls : ℕ
  trace : List HeapEvent
  more : Bool
  deriving DecidableEq, Repr

/-- The part of the loop body behind the owner name. -/
def readRecord (fuel : ℕ) (heap : Heap) (buf : RecvBuf) (reader : ℕ) (owner : NameRead) :
    Outcome Fault AnswerRead := do
  let resource := reader + owner.count
  let reader := resource + rDataSize
  let type ← buf.ntohs resource
  if type = 1 then do
    let dataLen ← buf.ntohs (resource + dataLenOffset)
    if heap.succeeds owner.calls then do
      let data ← buf.copy dataLen reader
      pure
        { record := ⟨owner.name, some resource, some ⟨owner.calls, data ++ [0]⟩⟩
          reader := reader + dataLen
          calls := owner.calls + 1
          trace := owner.trace ++ fillStores owner.calls dataLen
          more := true }
    else
      pure
        { record := ⟨owner.name, some resource, none⟩
          reader := reader
          calls := owner.calls + 1
          trace := owner.trace
          more := false }
  else do
    let data ← readName fuel heap buf reader owner.calls
    pure
      { record := ⟨owner.name, some resource, data.name⟩
        reader := reader + data.count
        calls := data.calls
        trace := owner.trace ++ data.trace
        more := true }

/-- The loop body of `ReadRecvAnswer`. -/
def readAnswer (fuel : ℕ) (heap : Heap) (buf : RecvBuf) (reader calls : ℕ) :
    Outcome Fault AnswerRead := do
  let owner ← readName fuel heap buf reader calls
  readRecord fuel heap buf reader owner

/-- What `ReadRecvAnswer` leaves in `_answers`; the records after these stay zero. -/
structure Answers where
  records : List ResRecord
  calls : ℕ
  trace : List HeapEvent
  deriving DecidableEq, Repr

def Answers.cons (r : ResRecord) (trace : List HeapEvent) (a : Answers) : Answers where
  records := r :: a.records
  calls := a.calls
  trace := trace ++ a.trace

def readAnswers (fuel : ℕ) (heap : Heap) (buf : RecvBuf) :
    ℕ → ℕ → ℕ → Outcome Fault Answers
  | 0, _, calls => pure { records := [], calls := calls, trace := [] }
  | n + 1, reader, calls => do
    let a ← readAnswer fuel heap buf reader calls
    if a.more then do
      let rest ← readAnswers fuel heap buf n a.reader a.calls
      pure (rest.cons a.record a.trace)
    else
      pure { records := [a.record], calls := a.calls, trace := a.trace }

def answerCount (buf : RecvBuf) : Outcome Fault ℕ := do
  let n ← buf.ntohs 6
  pure (min socketMaxIpCount n)

def readRecvAnswer (fuel : ℕ) (heap : Heap) (buf : RecvBuf) (reader calls : ℕ) :
    Outcome Fault Answers := do
  let n ← answerCount buf
  readAnswers fuel heap buf n reader calls

structure SocketIpInfo where
  size : ℕ
  ip : List Bytes
  ip_length : ip.length = socketMaxIpCount

def SocketIpInfo.push (info : SocketIpInfo) (a : Bytes) : SocketIpInfo where
  size := info.size + 1
  ip := info.ip.set info.size a
  ip_length := by rw [List.length_set, info.ip_length]

def Block.address (b : Block) : Address :=
  ⟨b.bytes.getD 0 0, b.bytes.getD 1 0, b.bytes.getD 2 0, b.bytes.getD 3 0⟩

def loadAddress (i : ℕ) (r : ResRecord) : Outcome Fault Address :=
  match r.rdata with
  | none => fault .nullPointer
  | some b => do
    guard (.addressOutside i) (4 ≤ b.bytes.length)
    pure b.address

/-- The copy loop of `socket_gethostbyname`, from record `i` on. -/
def copyAnswers (buf : RecvBuf) : ℕ → List ResRecord → SocketIpInfo → Outcome Fault SocketIpInfo
  | _, [], info => pure info
  | i, r :: rs, info =>
    match r.resource with
    | none => fault .nullPointer
    | some resource => do
      let type ← buf.ntohs resource
      if type = 1 then do
        let a ← loadAddress i r
        copyAnswers buf (i + 1) rs (info.push a.dotted)
      else copyAnswers buf (i + 1) rs info

def zeroRecord : ResRecord := ⟨none, none, none⟩

def Answers.first (a : Answers) (n : ℕ) : List ResRecord :=
  (a.records ++ List.replicate (socketMaxIpCount - a.records.length) zeroRecord).take n

def freeAll (records : List ResRecord) : List HeapEvent :=
  records.flatMap fun r => (r.name.toList ++ r.rdata.toList).map fun b => .free b.id

/-- Read the answers of a response and copy the addresses. -/
def readResponse (fuel : ℕ) (heap : Heap) (buf : RecvBuf) (reader : ℕ) (info : SocketIpInfo) :
    Outcome Fault (SocketIpInfo × Answers) := do
  let answers ← readRecvAnswer fuel heap buf reader 0
  let n ← answerCount buf
  let info ← copyAnswers buf 0 (answers.first n) { info with size := 0 }
  pure (info, answers)

/-- What the operating system answers to one call of `socket_gethostbyname`. -/
structure Network where
  pid : ℕ
  hostServers : List Bytes
  socket : ℤ
  sendto : Bytes → ℤ
  recvWithinTime : ℕ → ℕ → Option RecvBuf
  heap : Heap

inductive SocketEvent where
  | opened (fd : ℤ)
  | sent (datagram : Bytes)
  | closed (fd : ℤ)
  deriving DecidableEq, Repr

/-- The outcome of a lookup, with its socket and heap events. -/
structure Lookup where
  ret : ℤ
  info : Option SocketIpInfo
  events : List SocketEvent
  trace : List HeapEvent

def defaultTimeout : ℕ := 3000

def effectiveTimeout (timeout : ℤ) : ℕ :=
  if timeout ≤ 0 then defaultTimeout else timeout.toNat

def isValidIpAddress (s : Bytes) : Bool := (inetPton s).isSome

/-- The servers to ask: the given one when it is an address, else those of the system. -/
def dnsServers (net : Network) (dnsserver : Option Bytes) : List Bytes :=
  match dnsserver with
  | some s => if isValidIpAddress s then [s] else net.hostServers
  | none => net.hostServers

/-- The position behind the header and the question, computed from the query. -/
def answerStart (sendBuf : Bytes) : ℕ := headerSize + (qnameLength sendBuf + 1) + questionSize

theorem answerStart_eq (sendBuf : Bytes) : answerStart sendBuf = sendPacklen sendBuf := rfl

/-- The part of `socket_gethostbyname` between `memset` and `FreeAll`. -/
def queryServer (fuel : ℕ) (net : Network) (host : Bytes) (timeout : ℕ) (info : SocketIpInfo) :
    Outcome Fault Lookup := do
  let sendBuf ← prepareDnsQueryPacket net.pid host
  let datagram := sendBuf.take (sendPacklen sendBuf)
  if net.sendto datagram = -1 then
    pure { ret := -1, info := some info, events := [.sent datagram], trace := [] }
  else
    match net.recvWithinTime (timeout / 1000) (timeout % 1000 * 1000) with
    | none => pure { ret := -1, info := some info, events := [.sent datagram], trace := [] }
    | some buf => do
      let (info, answers) ← readResponse fuel net.heap buf (answerStart sendBuf) info
      pure
        { ret := if info.size = 0 then -1 else 0
          info := some info
          events := [.sent datagram]
          trace := answers.trace ++ freeAll answers.records }

def socketGethostbyname (fuel : ℕ) (net : Network) (host : Option Bytes)
    (info : Option SocketIpInfo) (timeout : ℤ) (dnsserver : Option Bytes) :
    Outcome Fault Lookup :=
  match host, info with
  | some host, some info =>
    let timeout := effectiveTimeout timeout
    if net.socket < 0 then
      pure { ret := -1, info := some info, events := [], trace := [] }
    else
      match dnsServers net dnsserver with
      | [] => pure
          { ret := -1
            info := some info
            events := [.opened net.socket, .closed net.socket]
            trace := [] }
      | server :: _ =>
        if (inetPton server).isSome then do
          let r ← queryServer fuel net (cString host) timeout info
          pure { r with events := .opened net.socket :: r.events ++ [.closed net.socket] }
        else
          -- "invalid address!": returns at once
          pure { ret := -1, info := some info, events := [.opened net.socket], trace := [] }
  | _, _ => pure { ret := -1, info := info, events := [], trace := [] }

end QyUtil.Dns
