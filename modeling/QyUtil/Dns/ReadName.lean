import QyUtil.Bytes.Basic
import QyUtil.Loops.Basic

/-! # Reading a name

The model of `ReadName`: the loop that collects the bytes of a possibly
compressed name into a heap buffer, and the pass that turns length bytes into
dots in place. Loads outside the receive buffer are faults. Heap calls and stores
to the heap buffer are recorded together with the capacity at that moment, and
the memory around the buffer is left unbounded.
-/

namespace QyUtil.Dns

open Loops Outcome

/-- `BUF_LEN`, the size of the send and receive buffers. -/
def bufLen : ℕ := 65536

/-- Accesses that the C++ standard leaves undefined. -/
inductive Fault where
  | readOutside (i : ℕ)
  | sendOutside (i : ℕ)
  | nullPointer
  | addressOutside (i : ℕ)
  deriving DecidableEq, Repr

/-- The zero-filled receive buffer, with the received bytes at its start. -/
structure RecvBuf where
  datagram : Bytes
  fits : datagram.length ≤ bufLen

def RecvBuf.byte (b : RecvBuf) (i : ℕ) : UInt8 := b.datagram.getD i 0

def RecvBuf.load (b : RecvBuf) (i : ℕ) : Outcome Fault UInt8 := do
  guard (.readOutside i) (i < bufLen)
  pure (b.byte i)

/-- The allocator: which of its calls succeed, and what new memory first holds. -/
structure Heap where
  succeeds : ℕ → Bool
  garbage : ℕ → ℕ → UInt8

/-- Heap calls, with blocks numbered by the call that obtained them, and stores. -/
inductive HeapEvent where
  | malloc (block : ℕ)
  | realloc (old new : ℕ)
  | free (block : ℕ)
  | store (block : ℕ) (index : ℤ) (capacity : ℕ)
  deriving DecidableEq, Repr

/-- A heap block and what the program has put at its start. -/
structure Block where
  id : ℕ
  bytes : Bytes
  deriving DecidableEq, Repr

def initSize : ℕ := 256
def increment : ℕ := 64

def capacity (timesForRealloc : ℕ) : ℕ := initSize + increment * timesForRealloc

/-- The variables of the reading loop; `name` holds `name[0..p)`. -/
structure Scan where
  reader : ℕ
  name : Bytes
  jumped : Bool
  count : ℕ
  timesForRealloc : ℕ
  block : ℕ
  calls : ℕ
  trace : List HeapEvent

def pointerOffset (hi lo : UInt8) : ℕ := Bytes.be16 hi lo - 49152

/-- Take the byte at the reader, or follow the pointer there. -/
def Scan.advance (buf : RecvBuf) (b : UInt8) (s : Scan) : Outcome Fault Scan :=
  if 192 ≤ b then do
    let lo ← buf.load (s.reader + 1)
    -- `_buffer + offset - 1`, and then one byte on
    pure { s with reader := pointerOffset b lo, jumped := true }
  else
    pure { s with
      reader := s.reader + 1
      name := s.name ++ [b]
      trace := s.trace ++ [.store s.block s.name.length (capacity s.timesForRealloc)] }

def Scan.countUp (s : Scan) : Scan :=
  if s.jumped then s else { s with count := s.count + 1 }

def Scan.grow (heap : Heap) (s : Scan) : Turn Scan (Scan × Bool) :=
  if capacity s.timesForRealloc ≤ s.count then
    if heap.succeeds s.calls then
      .again { s with
        timesForRealloc := s.timesForRealloc + 1
        block := s.calls
        calls := s.calls + 1
        trace := s.trace ++ [.realloc s.block s.calls] }
    else
      .exit ({ s with calls := s.calls + 1, trace := s.trace ++ [.free s.block] }, false)
  else .again s

/-- One turn of the reading loop. It is left with `false` when `realloc` fails. -/
def readTurn (heap : Heap) (buf : RecvBuf) (s : Scan) :
    Outcome Fault (Turn Scan (Scan × Bool)) := do
  let b ← buf.load s.reader
  if b = 0 then
    pure (.exit (s, true))
  else do
    let s ← s.advance buf b
    pure (s.countUp.grow heap)

structure Convert where
  mem : ℕ → UInt8
  i : ℕ
  trace : List HeapEvent

def Convert.shift (block cap : ℕ) : ℕ → Convert → Convert
  | 0, c => c
  | l + 1, c => Convert.shift block cap l
      { mem := Function.update c.mem c.i (c.mem (c.i + 1))
        i := c.i + 1
        trace := c.trace ++ [.store block c.i cap] }

/-- One turn of the conversion pass over a name whose terminator was stored at `p`. -/
def convertTurn (block cap p : ℕ) (c : Convert) : Outcome Fault (Turn Convert Convert) :=
  -- `strlen` never looks past the terminator at `p`
  if c.i < Bytes.strlen c.mem (p + 1) 0 then
    let c := c.shift block cap (c.mem c.i).toNat
    pure (.again
      { mem := Function.update c.mem c.i 46
        i := c.i + 1
        trace := c.trace ++ [.store block c.i cap] })
  else pure (.exit c)

/-- What `ReadName` leaves: its result (`none` is `NULL`), `*_count` and the heap events. -/
structure NameRead where
  name : Option Block
  count : ℕ
  calls : ℕ
  trace : List HeapEvent
  deriving DecidableEq, Repr

def terminated (name : Bytes) (garbage : ℕ → UInt8) (k : ℕ) : UInt8 :=
  if k < name.length then name.getD k 0 else if k = name.length then 0 else garbage k

/-- The conversion pass and the removal of the last dot. -/
def finishName (fuel : ℕ) (heap : Heap) (s : Scan) : Outcome Fault NameRead := do
  let p := s.name.length
  let cap := capacity s.timesForRealloc
  let count := if s.jumped then s.count + 1 else s.count
  let c ← loop (convertTurn s.block cap p) fuel
    { mem := terminated s.name (heap.garbage s.block)
      i := 0
      trace := s.trace ++ [.store s.block p cap] }
  let mem := if c.i = 0 then c.mem else Function.update c.mem (c.i - 1) 0
  pure
    { name := some ⟨s.block, (List.range (Bytes.strlen mem (p + 1) 0)).map mem⟩
      count := count
      calls := s.calls
      trace := c.trace ++ [.store s.block ((c.i : ℤ) - 1) cap] }

def Scan.start (reader calls : ℕ) : Scan where
  reader := reader
  name := []
  jumped := false
  count := 1
  timesForRealloc := 0
  block := calls
  calls := calls + 1
  trace := [.malloc calls, .store calls 0 (capacity 0)]

def readName (fuel : ℕ) (heap : Heap) (buf : RecvBuf) (reader calls : ℕ) :
    Outcome Fault NameRead :=
  if heap.succeeds calls then do
    let (s, ok) ← loop (readTurn heap buf) fuel (.start reader calls)
    if ok then
      finishName fuel heap s
    else
      pure { name := none, count := s.count, calls := s.calls, trace := s.trace }
  else
    pure { name := none, count := 1, calls := calls + 1, trace := [] }

end QyUtil.Dns
