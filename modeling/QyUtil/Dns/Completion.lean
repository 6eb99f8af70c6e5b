import QyUtil.Dns.AddressWalk
import QyUtil.Dns.Ownership
import QyUtil.Dns.Resolve

/-! # Records that were not completed

`ReadRecvAnswer` goes on or gives up when a heap call fails, and leaves pointers at
`NULL`. The loop that copies the addresses counts the records by the header again, and
looks at all of them. So every failed call shows, unless the loop is stopped before.
-/

namespace QyUtil.Dns

open Loops Outcome Bytes Net

variable {heap : Heap} {buf : RecvBuf} {q s k m n i : ℕ} {info info' : SocketIpInfo}
  {r : ResRecord} {rows : List ResRecord}

/-- All that `ReadRecvAnswer` allocates for a record is there. -/
structure Completed (r : ResRecord) : Prop where
  name : r.name.isSome
  resource : r.resource.isSome
  rdata : r.rdata.isSome

def nameCalls (buf : RecvBuf) (q : ℕ) : ℕ := growths buf q + 1

def recordCalls (buf : RecvBuf) (s : ℕ) : ℕ :=
  nameCalls buf s + if recordType buf s = 1 then 1 else nameCalls buf (dataAt buf s)

def Granted (heap : Heap) (k n : ℕ) : Prop := ∀ u < n, heap.succeeds (k + u) = true

/-- The heap calls for the `n` records from `s` on succeed, up to the first record whose
address cannot be loaded. -/
def Served (heap : Heap) (buf : RecvBuf) : ℕ → ℕ → ℕ → Prop
  | 0, _, _ => True
  | n + 1, s, k => Granted heap k (recordCalls buf s) ∧
      (Loadable buf s → Served heap buf n (recordAfter buf s) (k + recordCalls buf s))

def Passes (buf : RecvBuf) (r : ResRecord) : Prop :=
  ∃ f, r.resource = some f ∧ f + 1 < bufLen ∧
    (buf.be16 f = 1 → ∃ b, r.rdata = some b ∧ 4 ≤ b.bytes.length)

structure Complete (heap : Heap) (buf : RecvBuf) (s k : ℕ) (a : AnswerRead) : Prop where
  granted : Granted heap k (recordCalls buf s)
  completed : Completed a.record
  more : a.more = true
  reader : a.reader = recordAfter buf s
  calls : a.calls = k + recordCalls buf s
  passes : Passes buf a.record ↔ Loadable buf s

variable {net : Network} {host : Bytes} {timeout : ℤ} {dnsserver : Option Bytes}

end QyUtil.Dns
