import QyUtil.Ping.Checksum
import QyUtil.Ping.Recognition

/-! # The layout of requests

`send_data` copies the header and the body into the zero-filled send buffer and passes the
length of both to `sendto`. The body holds zeros only, so `strcpy` stores no more than
its end, and the zeros behind the header are those of the buffer. Nothing compares the
length with the size of the buffer.
-/

namespace QyUtil.Ping

open Bytes Net

variable {c : Config} {a : Attempt} {s : Pinger} {m : Bytes × ℕ}

def body (c : Config) : Bytes := List.replicate c.packageSize 0

def Handed (c : Config) (a : Attempt) (s : Pinger) (m : Bytes × ℕ) : Prop :=
  (sendData c a s).2.sent = s.sent ++ [m]

/-- An echo request with the header of 8 bytes and the body whose checksum it carries,
all of it inside the send buffer. -/
structure LaidOut (c : Config) (s : Pinger) (m : Bytes × ℕ) : Prop where
  buffer : m.1.length = sendLen
  inside : m.2 ≤ sendLen
  echo : (request c s).type = IcmpHeader.echoRequest ∧ (request c s).code = 0
  header : (m.1.take m.2).take 8 = write (request c s)
  body : (m.1.take m.2).drop 8 = body c

theorem handed_iff : Handed c a s m ↔
    (inetPton c.host).isSome ∧ m = (fillSendBuf (request c s) (body c), 8 + c.packageSize) := by
  simp only [Handed, sendData]
  cases inetPton c.host <;> simp [request, body, eq_comm]

theorem cString_body (c : Config) : cString (body c) = [] := by
  rw [body]
  cases c.packageSize <;> simp [cString, List.replicate_succ]

/-- Whatever the size of the package, `strcpy` only stores its terminating zero. -/
theorem length_fillSendBuf (header : IcmpHeader) (c : Config) :
    (fillSendBuf header (body c)).length = sendLen := by
  have hheader : (writeAt (List.replicate sendLen 0) 0 header.rep.bytes).length = sendLen := by
    rw [length_writeAt, List.length_replicate]
    rw [header.rep.size, List.length_replicate]
    decide
  rw [fillSendBuf, cString_body, length_writeAt, hheader]
  rw [hheader]
  decide

theorem request_echo (c : Config) (s : Pinger) :
    (request c s).type = IcmpHeader.echoRequest ∧ (request c s).code = 0 := ⟨rfl, rfl⟩

/-- A request is laid out as it should be exactly when it is not longer than the buffer. -/
theorem laidOut_iff (c : Config) (a : Attempt) (s : Pinger) :
    (∀ m, Handed c a s m → LaidOut c s m) ↔
      ((inetPton c.host).isSome → c.packageSize ≤ 1016) := by
  constructor
  · intro h hhost
    have hinside := (h _ (handed_iff.mpr ⟨hhost, rfl⟩)).inside
    simp only [sendLen] at hinside
    omega
  · intro h m hm
    obtain ⟨hhost, rfl⟩ := handed_iff.mp hm
    have hsize : 8 + c.packageSize ≤ sendLen := Nat.add_le_add_left (h hhost) 8
    have htake := fillSendBuf_take (request c s) hsize
    have hlen : (write (request c s)).length = 8 := (request c s).rep.size
    refine ⟨length_fillSendBuf _ c, hsize, request_echo c s, ?_, ?_⟩
    · rw [body, htake, List.take_left' hlen]
    · show (List.take (8 + c.packageSize) _).drop 8 = body c
      rw [body, htake, List.drop_left' hlen]

/-- With a package of 1017 bytes `sendto` reads one byte behind the buffer. -/
theorem long_package_outside :
    Handed ⟨ascii "10.0.0.1", 1, 1017, 7⟩ ⟨1025, none, 0⟩ .new
      (fillSendBuf (request ⟨ascii "10.0.0.1", 1, 1017, 7⟩ .new)
        (body ⟨ascii "10.0.0.1", 1, 1017, 7⟩), 1025) ∧
    ¬ LaidOut ⟨ascii "10.0.0.1", 1, 1017, 7⟩ .new
      (fillSendBuf (request ⟨ascii "10.0.0.1", 1, 1017, 7⟩ .new)
        (body ⟨ascii "10.0.0.1", 1, 1017, 7⟩), 1025) :=
  ⟨handed_iff.mpr ⟨by decide, rfl⟩, fun h => absurd h.inside (show ¬ 1025 ≤ sendLen by decide)⟩

end QyUtil.Ping
