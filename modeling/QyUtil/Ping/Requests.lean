import QyUtil.Ping.Layout

/-! # The requests of a run

Whatever comes back, and in however many attempts, a run sends the same requests to a host
with a valid address: one for each attempt, with the numbers 1, 2 and so on cut to 16 bits.
As long as the package fits behind the header in the send buffer, each of them is an echo
request of this process with a checksum that verifies.
-/

namespace QyUtil.Ping

open Bytes Net

variable {c : Config} {env : ℕ → Attempt} {n : ℕ}

/-- The datagram that `sendto` is given adds up to all ones. -/
def Verifies (m : Bytes × ℕ) : Prop := Checksum.sum 65536 (words (pad (m.1.take m.2))) = 0xFFFF

def packet (c : Config) (s : Pinger) : Bytes × ℕ :=
  (fillSendBuf (request c s) (body c), 8 + c.packageSize)

theorem readData_sent (c : Config) (a : Attempt) (s : Pinger) :
    (readData c a s).2.sent = s.sent := by
  simp only [readData]
  cases a.datagram with
  | none => rfl
  | some d =>
    dsimp only
    split <;> rfl

theorem attempt_sent (c : Config) (a : Attempt) (s : Pinger) :
    (attempt c a s).sent = s.sent ++ if (inetPton c.host).isSome then [packet c s] else [] := by
  have hread := readData_sent c a (sendData c a s).2
  have hsend : (sendData c a s).2.sent =
      s.sent ++ if (inetPton c.host).isSome then [packet c s] else [] := by
    simp only [sendData]
    cases inetPton c.host <;> simp [packet, request, body]
  rw [← hsend]
  simp only [attempt]
  split_ifs
  · exact hread
  · exact hread
  · rfl

theorem attempts_sent (c : Config) (env : ℕ → Attempt) (n : ℕ) :
    (attempts c env n).sent = if (inetPton c.host).isSome then
      (List.range n).map fun i => packet c (attempts c env i) else [] := by
  induction n with
  | zero => simp [attempts, Pinger.new]
  | succ n ih =>
    rw [attempts, attempt_sent, ih]
    split_ifs <;> simp [List.range_succ]

theorem packet_verifies (hsize : 8 + c.packageSize ≤ sendLen) (s : Pinger) :
    Verifies (packet c s) := by
  have hbody : (body c).length ≤ 65535 := by
    rw [body, List.length_replicate]
    exact (Nat.le_add_left _ 8).trans (hsize.trans (by decide))
  -- the header has an even number of bytes
  have hpad (header : IcmpHeader) (l : Bytes) : pad (write header ++ l) =
      write header ++ pad l := by
    rw [pad, pad, List.append_assoc, List.length_append, write, Rep.size, Nat.add_mod]
    simp
  simp only [Verifies, packet, body, fillSendBuf_take _ hsize, hpad]
  exact words_computeChecksum _ hbody

theorem packet_inside (hsize : c.packageSize ≤ 1016) (s : Pinger) :
    (packet c s).2 ≤ (packet c s).1.length := by
  show 8 + c.packageSize ≤ (fillSendBuf (request c s) (body c)).length
  rw [length_fillSendBuf, sendLen]
  omega

theorem attempts_inside (hsize : c.packageSize ≤ 1016) (env : ℕ → Attempt) (n : ℕ) :
    ∀ m ∈ (attempts c env n).sent, m.2 ≤ m.1.length := by
  rw [attempts_sent]
  split_ifs
  · simp only [List.mem_map, forall_exists_index, and_imp]
    rintro m i - rfl
    exact packet_inside hsize _
  · simp

end QyUtil.Ping
