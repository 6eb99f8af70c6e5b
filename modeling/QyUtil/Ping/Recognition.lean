import QyUtil.Ping.Matching

/-! # Recognising the reply to a request

A request carries the number of its attempt cut to 16 bits, and `read_data`
compares the field of the reply with the whole number. So the reply to a request
is recognised exactly in the attempts whose number the field can hold.
-/

namespace QyUtil.Ping

open Bytes Net

variable {c : Config} {env : ℕ → Attempt} {k : ℕ} {d : Bytes}

def request (c : Config) (s : Pinger) : IcmpHeader :=
  echoRequest c.pid (s.sequenceNumber + 1) (List.replicate c.packageSize 0)

/-- A well-formed packet with an echo reply that carries the identifier and the
sequence number of a request. -/
structure ReplyTo (request : IcmpHeader) (d : Bytes) : Prop where
  wellFormed : WellFormed d
  type : d.getD (ihl d) 0 = 0
  identifier : be16 (d.getD (ihl d + 4) 0) (d.getD (ihl d + 5) 0) = request.identifier
  sequence : be16 (d.getD (ihl d + 6) 0) (d.getD (ihl d + 7) 0) = request.sequenceNumber

theorem request_fields (c : Config) (s : Pinger) : (request c s).identifier = c.pid.toNat ∧
    (request c s).sequenceNumber = (s.sequenceNumber + 1) % 65536 := by
  simp [request, echoRequest, computeChecksum, UInt16.toNat_ofNat']

def replyPacket (pid sequence : UInt16) : Bytes :=
  [69, 0, 0, 28, 0, 0, 0, 0, 64, 1, 0, 0, 10, 0, 0, 1, 10, 0, 0, 2, 0, 0, 0, 0,
    (pid >>> 8).toUInt8, (pid &&& 0xFF).toUInt8, (sequence >>> 8).toUInt8,
    (sequence &&& 0xFF).toUInt8]

theorem replyPacket_reply (c : Config) (s : Pinger) :
    ReplyTo (request c s) (replyPacket c.pid (UInt16.ofNat (s.sequenceNumber + 1))) := by
  obtain ⟨hid, hseq⟩ := request_fields c s
  have hihl : ihl (replyPacket c.pid (UInt16.ofNat (s.sequenceNumber + 1))) = 20 := by
    simp [ihl, replyPacket]
  refine ⟨⟨by simp [replyPacket], hihl.ge, by rw [hihl]; exact le_refl 28⟩, ?_, ?_, ?_⟩ <;>
    rw [hihl]
  · rfl
  · rw [hid]
    exact Rep.be16_halves c.pid
  · rw [hseq, ← UInt16.toNat_ofNat']
    exact Rep.be16_halves _

/-- Whatever attempt `k + 1` reads, it recognises the replies to its own request. -/
def RecognisedAt (c : Config) (env : ℕ → Attempt) (k : ℕ) : Prop :=
  ∀ d, ReplyTo (request c (attempts c env k)) d →
    Recognises c (sendData c (env k) (attempts c env k)).2 d

theorem recognisedAt_iff (c : Config) (env : ℕ → Attempt) (k : ℕ) :
    RecognisedAt c env k ↔ k + 1 ≤ 65535 := by
  obtain ⟨hseq, -⟩ := attempts_result c env k
  obtain ⟨hid, hnum⟩ := request_fields c (attempts c env k)
  have hsend := (sendData_frame (c := c) (a := env k) (s := attempts c env k)).1
  rw [hseq] at hnum hsend
  simp only [RecognisedAt, recognises_iff, hsend]
  constructor
  · intro h
    have hreply := replyPacket_reply c (attempts c env k)
    have hmatch := (h _ hreply).sequence
    rw [hreply.sequence, hnum] at hmatch
    have := Nat.mod_lt (k + 1) (show 0 < 65536 by decide)
    omega
  · intro hk d hd
    refine ⟨hd.wellFormed, hd.type, hd.identifier.trans hid, ?_⟩
    rw [hd.sequence, hnum, Nat.mod_eq_of_lt (by omega)]

/-- The replies to the own request are recognised in exactly the attempts up to number
65535, and so in all attempts of exactly the runs that make no more than these. -/
theorem own_reply_recognised_iff (c : Config) (env : ℕ → Attempt) :
    (∀ k, RecognisedAt c env k ↔ k + 1 ≤ 65535) ∧
    ((∀ k < effectiveTimes c.times, RecognisedAt c env k) ↔ effectiveTimes c.times ≤ 65535) := by
  refine ⟨recognisedAt_iff c env, ?_⟩
  simp only [recognisedAt_iff]
  constructor
  · intro h
    by_contra hn
    have := h 65535 (by omega)
    omega
  · intro h k hk
    omega

/-- The reply to request 65536 has sequence number 0 and is not recognised. -/
theorem wrapped_reply_unrecognised :
    ReplyTo (request ⟨ascii "10.0.0.1", 65536, 0, 7⟩
      (attempts ⟨ascii "10.0.0.1", 65536, 0, 7⟩ (fun _ => ⟨8, none, 0⟩) 65535))
      (replyPacket 7 0) ∧
    65535 < effectiveTimes 65536 ∧
    ¬ RecognisedAt ⟨ascii "10.0.0.1", 65536, 0, 7⟩ (fun _ => ⟨8, none, 0⟩) 65535 := by
  refine ⟨?_, by decide, fun h => absurd ((recognisedAt_iff _ _ _).mp h) (by decide)⟩
  have hreply := replyPacket_reply ⟨ascii "10.0.0.1", 65536, 0, 7⟩
    (attempts ⟨ascii "10.0.0.1", 65536, 0, 7⟩ (fun _ => ⟨8, none, 0⟩) 65535)
  rwa [(attempts_result _ _ _).1] at hreply

end QyUtil.Ping
