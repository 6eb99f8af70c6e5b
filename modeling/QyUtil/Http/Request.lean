import QyUtil.Http.Response

/-! # Requests

The model of `Request`: the members that its helper functions write, and `get` up
to the point where the request has been sent, as a function on these members. What
the resolver, the connection attempts and the connection answer belongs to the call.
-/

namespace QyUtil.Http

open Loops Outcome Bytes

/-- The exceptions that `get` can throw before it reads a response. -/
inductive Thrown where
  | qyutil (msg : Bytes)
  | outOfRange
  deriving DecidableEq, Repr

/-- What `socket_gethostbyname` gives: its result and the addresses. -/
structure Resolution where
  result : ℤ
  addresses : List Bytes
  deriving DecidableEq, Repr

/-- One call of `get`, with all that happens to it. `opens k` tells whether its
`k`-th connection attempt succeeds, and `written` is what `write` returns. -/
structure Call where
  url : Bytes
  params : List (Bytes × Bytes)
  dns : Resolution
  opens : ℕ → Bool
  written : ℕ
  stream : Stream
  garbage : ℕ → UInt8

/-- The members of `Request` that outlive a call; `port` is a positive `short`. -/
structure Request where
  header : Bytes
  ips : List Bytes
  port : ℤ
  port_pos : 0 < port
  port_le : port ≤ 32767

inductive Event where
  | asked (domain : Bytes)
  | opened (ip : Bytes) (port : ℤ)
  | sent (bytes : Bytes)
  deriving DecidableEq, Repr

def defaultPort : ℤ := 80

def Request.new : Request where
  header := []
  ips := []
  port := defaultPort
  port_pos := by decide
  port_le := by decide

def toShort (n : ℤ) : ℤ := n.bmod (2 ^ 16)

/-- `strtol` in base 10, which keeps to the range of `long`. -/
def strtol (s : Bytes) : ℤ :=
  let t := (cString s).dropWhile isSpace
  let negative := t.head? = some 45
  let digits := (if negative ∨ t.head? = some 43 then t.tail else t).takeWhile isDigit
  let v : ℤ := if negative then -digitsValue digits else digitsValue digits
  max (-2 ^ 63) (min v (2 ^ 63 - 1))

def atoi (s : Bytes) : ℤ := (strtol s).bmod (2 ^ 32)

/-- What follows the first colon of a domain, when anything does. -/
def portText (domain : Bytes) : Option Bytes :=
  match domain.dropWhile (· ≠ 58) with
  | _ :: c :: rest => some (c :: rest)
  | _ => none

/-- The port that `parse_url` takes from a domain. -/
def acceptedPort (domain : Bytes) : Option ℤ :=
  (portText domain).bind fun t => if 0 < toShort (atoi t) then some (toShort (atoi t)) else none

theorem acceptedPort_range {domain : Bytes} {n : ℤ} (h : acceptedPort domain = some n) :
    0 < n ∧ n ≤ 32767 := by
  obtain ⟨t, -, ht⟩ := Option.bind_eq_some_iff.mp h
  split_ifs at ht with hpos
  obtain rfl := Option.some.inj ht
  have := Int.bmod_lt (x := atoi t) (m := 2 ^ 16) (by decide)
  refine ⟨hpos, ?_⟩
  simp only [toShort]
  omega

/-- The address part of a URL, as `parse_url` cuts it out. -/
def urlDomain (url : Bytes) : Bytes := (url.drop 7).takeWhile (· ≠ 47)

/-- The exception for a URL that `parse_url` does not take. -/
def urlError (url : Bytes) : Option Thrown :=
  if url.take 4 ≠ ascii "http" then some (.qyutil (ascii "bad url:" ++ url))
  else if url.take 5 = ascii "https" then some (.qyutil (ascii "not support url:" ++ url))
  else if url.length < 7 then some .outOfRange
  else none

def Request.setPort (st : Request) (domain : Bytes) : Request :=
  match h : acceptedPort domain with
  | some n => { st with
      port := n
      port_pos := (acceptedPort_range h).1
      port_le := (acceptedPort_range h).2 }
  | none => st

def Request.getIpByDomain (st : Request) (dns : Resolution) : Request :=
  { st with ips := st.ips ++ dns.addresses }

def Request.parseUrl (st : Request) (url : Bytes) (dns : Resolution) :
    Request × List Event × Option Thrown :=
  match urlError url with
  | some e => (st, [], some e)
  | none =>
    let domain := urlDomain url
    ((st.setPort domain).getIpByDomain dns, [.asked domain],
      if dns.result = 0 then none else some (.qyutil (ascii "unknown domain:" ++ domain)))

def methodName : List Bytes := [ascii "GET", ascii "POST", ascii "PUT", ascii "DELETE"]

/-- The path that `build_req_header` computes from the URL and the parameters. -/
def requestPath (url : Bytes) (params : List (Bytes × Bytes)) : Bytes :=
  match (url.drop 7).dropWhile (· ≠ 47) with
  | [] => ascii "/"
  | path => (path ++ ascii "?" ++
      params.flatMap fun p => p.1 ++ ascii "=" ++ p.2 ++ ascii "&").dropLast

def userAgent : Bytes :=
  ascii "User-Agent: Mozilla/5.0 (Linux; Android 6.0; Nexus 5 Build/MRA58N) " ++
    ascii "AppleWebKit/537.36 (KHTML, like Gecko) Chrome/79.0.3945.130 Mobile Safari/537.36"

/-- `build_req_header`: the path it computes, which it writes nowhere, and the text
that it appends to `header`. -/
def buildReqHeader (url : Bytes) (method : ℕ) (params : List (Bytes × Bytes)) : Bytes × Bytes :=
  let name := methodName.getD method []
  (requestPath url params,
    name ++ ascii " /" ++ ascii " HTTP/" ++ ascii "1.0" ++ httpHeaderBreak ++
      ascii "method:" ++ name ++ httpHeaderBreak ++
      ascii "Connection: keep-alive" ++ httpHeaderBreak ++
      userAgent ++ httpHeaderBreak ++ httpHeaderEof)

/-- The connection attempts from the `k`-th on: the addresses tried, and success. -/
def tryOpen (opens : ℕ → Bool) : ℕ → List Bytes → List Bytes × Bool
  | _, [] => ([], false)
  | k, ip :: ips =>
    if opens k then ([ip], true)
    else (ip :: (tryOpen opens (k + 1) ips).1, (tryOpen opens (k + 1) ips).2)

def Call.text (c : Call) : Bytes := (buildReqHeader c.url 0 c.params).2

/-- The bytes of a text that `send` takes. As a `size_t` the result -1 exceeds every length. -/
def Call.taken (c : Call) (text : Bytes) : Bytes :=
  if c.written ≤ text.length then text.take c.written else []

/-- The part of `get` behind `build_req_header`, up to the end of `send_data`. The
last result tells whether a response is to be read. -/
def Request.sendRequest (st : Request) (c : Call) : List Event × Option Thrown × Bool :=
  let (tried, connected) := tryOpen c.opens 0 st.ips
  let events := tried.map fun ip => Event.opened ip st.port
  if connected then
    (events ++ [.sent (c.taken st.header)],
      if c.written = 0 then some (.qyutil (ascii "send error")) else none, c.written ≠ 0)
  else (events, none, false)

/-- `get` up to the end of `send_data`. -/
def Request.request (st : Request) (c : Call) : Request × List Event × Option Thrown × Bool :=
  let (st, events, thrown) := st.parseUrl c.url c.dns
  match thrown with
  | some e => (st, events, some e, false)
  | none =>
    let st := { st with header := st.header ++ c.text }
    let (events', result) := st.sendRequest c
    (st, events ++ events', result)

/-- `get`: the members it leaves, its events, and an exception or the text it prints. -/
def Request.get (fuel : ℕ) (st : Request) (c : Call) :
    Outcome Fault (Request × List Event × Except Thrown Bytes) :=
  match st.request c with
  | (st, events, some e, _) => pure (st, events, .error e)
  | (st, events, none, false) => pure (st, events, .ok [])
  | (st, events, none, true) => do
    let body ← receive fuel c.stream c.garbage
    pure (st, events, .ok body)

/-- The calls made on one `Request` so far, each of which has come back. -/
inductive Run : List Call → Request → Prop
  | fresh : Run [] Request.new
  | call {calls : List Call} {st : Request} {c : Call}
      {r : Request × List Event × Except Thrown Bytes} :
      Run calls st → Returns (fun n => st.get n c) r → Run (calls ++ [c]) r.1

end QyUtil.Http
