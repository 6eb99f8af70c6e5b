import QyUtil.Http.Text

/-! # Receiving a response

The model of `BaseResponse`: the loop of `get_header`, the treatment of the bytes
that arrive with the end of the header, and `get_boday` as `Request::get` calls it.
What `m_boday` holds before anything is stored there is a parameter. Lengths are
`size_t` values, with their wrapping differences.
-/

namespace QyUtil.Http

open Loops Outcome Turn Bytes Search

def readBufLength : ℕ := 1024

/-- The results that the reads of a connection will give: the chunks in turn, and
then for ever the end of the stream, or an error when `failing`. -/
structure Stream where
  chunks : List Bytes
  sizes : ∀ c ∈ chunks, c.length ≤ readBufLength
  failing : Bool

/-- The bytes that one `recv` gives, and what is left; `none` is the result -1. -/
def Stream.read (s : Stream) : Option Bytes × Stream :=
  match s with
  | ⟨[], _, failing⟩ => (if failing then none else some [], s)
  | ⟨c :: cs, h, failing⟩ => (some c, ⟨cs, fun c hc => h c (List.mem_cons_of_mem _ hc), failing⟩)

structure Response where
  mHeader : Bytes
  mBoday : Bytes
  stream : Stream
  readLength : ℕ
  isHasSomeBody : Bool
  contentLength : ℕ
  respHeader : List (Bytes × Bytes)

/-- A new response, with `garbage` in the uninitialised `m_boday`. -/
def Response.new (stream : Stream) (garbage : ℕ → UInt8) : Response where
  mHeader := List.replicate readBufLength 0
  mBoday := (List.range readBufLength).map garbage
  stream := stream
  readLength := 0
  isHasSomeBody := false
  contentLength := 0
  respHeader := []

def sizeAdd (a b : ℕ) : ℕ := (a + b) % sizeBound

def sizeSub (a b : ℕ) : ℕ := (a + (sizeBound - b)) % sizeBound

/-- One turn of the loop of `get_header`; it is left with `eof_pos`. -/
def headerTurn (r : Response) : Outcome Fault (Turn Response (Response × ℕ)) :=
  let (x, stream) := r.stream.read
  match x with
  -- the count -1 is a large `size_t`, never below zero
  | none => fault (.copyOutside (sizeBound - 1))
  | some c => do
    let header := if r.mHeader.length ≤ sizeAdd r.readLength c.length then
      r.mHeader ++ List.replicate readBufLength 0 else r.mHeader
    guard (.copyOutside c.length) (r.readLength + c.length ≤ header.length)
    let header := writeAt header r.readLength c
    let r := { r with
      mHeader := header
      stream := stream
      readLength := sizeAdd r.readLength c.length }
    match find header httpHeaderEof 0 with
    | none => pure (.again r)
    | some eofPos => pure (.exit (r, eofPos))

/-- `get_header` after its loop. -/
def finishHeader (r : Response) (eofPos : ℕ) : Outcome Fault Response := do
  let eofPos := eofPos + httpHeaderEof.length
  let header ← if eofPos < (cString r.mHeader).length then do
      let n := sizeSub r.readLength eofPos
      guard (.copyOutside n) (eofPos + n ≤ r.mHeader.length ∧ n ≤ r.mBoday.length)
      pure ((writeAt r.mHeader eofPos (r.mBoday.take n)).take eofPos)
    else pure r.mHeader
  pure { r with mHeader := header, isHasSomeBody := header.length < r.readLength }

def getHeader (fuel : ℕ) (r : Response) : Outcome Fault Response := do
  let (r, eofPos) ← loop headerTurn fuel r
  finishHeader r eofPos

/-- `get_header` with the value it returns. The loop would return the count of a read
that is below zero, but the count is a `size_t`. -/
def getHeaderResult (fuel : ℕ) (r : Response) : Outcome Fault (Response × ℤ) := do
  let r ← getHeader fuel r
  pure (r, 0)

def parseHeader (fuel : ℕ) (r : Response) : Outcome Fault Response := do
  let fields ← parseFields fuel r.mHeader r.respHeader
  let n ← getContentLength r.mHeader r.contentLength
  pure { r with respHeader := fields, contentLength := n }

def eof : ℤ := -1

/-- `get_boday`, with the bytes in the output stream. -/
def getBoday (r : Response) (os : Bytes) : Outcome Fault (Response × Bytes × ℤ) :=
  if r.isHasSomeBody then do
    let n := sizeSub r.readLength r.mHeader.length
    guard (.readOutside n) (n ≤ r.mBoday.length)
    pure ({ r with isHasSomeBody := false }, os ++ r.mBoday.take n, n)
  else
    let (x, stream) := r.stream.read
    match x with
    | none => pure ({ r with stream := stream }, os, eof)
    | some c =>
      if c = [] then pure ({ r with stream := stream }, os, eof)
      else
        let r := { r with stream := stream, readLength := sizeAdd r.readLength c.length }
        let code := if r.contentLength ≤ sizeSub r.readLength r.mHeader.length then eof else 0
        pure (r, os ++ c, code)

/-- One turn of the loop of `Request::get`; it is left with the output. -/
def bodyTurn (s : Response × Bytes) : Outcome Fault (Turn (Response × Bytes) Bytes) := do
  let (r, os, code) ← getBoday s.1 s.2
  if code = eof then pure (.exit os) else pure (.again (r, os))

/-- The part of `Request::get` that receives the response: what `get_boday` has written. -/
def receive (fuel : ℕ) (stream : Stream) (garbage : ℕ → UInt8) : Outcome Fault Bytes := do
  let r ← getHeader fuel (.new stream garbage)
  let r ← parseHeader fuel r
  loop bodyTurn fuel (r, [])

variable {s : Stream} {c : Bytes} {cs : List Bytes} {r r' : Response} {os o : Bytes}

theorem read_nil (h : s.chunks = []) : s.read = (if s.failing then none else some [], s) := by
  obtain ⟨chunks, sizes, failing⟩ := s
  subst h
  rfl

theorem read_chunk (h : s.chunks = c :: cs) :
    ∃ s', s.read = (some c, s') ∧ s'.chunks = cs ∧ s'.failing = s.failing := by
  obtain ⟨chunks, sizes, failing⟩ := s
  subst h
  exact ⟨_, rfl, rfl, rfl⟩

theorem sizeAdd_eq {a b : ℕ} (h : a + b < sizeBound) : sizeAdd a b = a + b := Nat.mod_eq_of_lt h

theorem sizeSub_eq {a b : ℕ} (hb : b ≤ a) (ha : a < sizeBound) : sizeSub a b = a - b := by
  rw [sizeSub, show a + (sizeBound - b) = a - b + sizeBound by omega, Nat.add_mod_right,
    Nat.mod_eq_of_lt (by omega)]

theorem sizeSub_wrap {a b : ℕ} (hab : a < b) (hb : b ≤ sizeBound) :
    sizeSub a b = sizeBound - (b - a) := by
  rw [sizeSub, Nat.mod_eq_of_lt (by omega)]
  omega

theorem getHeader_progressive (r : Response) : Progressive fun k => getHeader k r :=
  Progressive.bind (loop_progressive _ _) fun _ => progressive_const _

theorem parseHeader_progressive (r : Response) : Progressive fun k => parseHeader k r :=
  Progressive.bind (parseFields_progressive _ _) fun _ => progressive_const _

theorem receive_progressive (stream : Stream) (garbage : ℕ → UInt8) :
    Progressive fun k => receive k stream garbage :=
  Progressive.bind (getHeader_progressive _) fun r =>
    Progressive.bind (parseHeader_progressive r) fun _ => loop_progressive _ _

end QyUtil.Http
