import QyUtil.Http.Request

/-! # Sending a request

`write` gives back what `send` returns, but as a `size_t`, so that the error -1 becomes the
greatest value of that type. `send_data` writes once and takes only 0 for a failure. A
request is then taken for sent as soon as one byte of it is, and also when `send` fails.
-/

namespace QyUtil.Http

open Bytes

/-- The `send` of a socket: what its `k`-th call returns when it is given `n` bytes. -/
structure Socket where
  send : ℕ → ℕ → ℤ
  result : ∀ k n, send k n = -1 ∨ 0 ≤ send k n ∧ send k n ≤ n

/-- The calls of `send` made so far, and the bytes that it has accepted. -/
structure Accepted where
  calls : ℕ
  bytes : Bytes
  deriving DecidableEq, Repr

def toSize (n : ℤ) : ℕ := if 0 ≤ n then n.toNat else sizeBound - n.natAbs

def Socket.write (s : Socket) (a : Accepted) (buf : Bytes) : ℕ × Accepted :=
  let r := s.send a.calls buf.length
  (toSize r, ⟨a.calls + 1, a.bytes ++ buf.take r.toNat⟩)

def Socket.sendData (s : Socket) (a : Accepted) (header : Bytes) : Except Thrown ℤ × Accepted :=
  let w := s.write a header
  (if w.1 ≤ 0 then .error (.qyutil (ascii "send error")) else .ok 0, w.2)

/-- `send_data` returns only when all bytes of the request have been accepted, in their
order, and else it throws a `QYUtilException`. -/
structure SendsAll (s : Socket) (a : Accepted) (header : Bytes) : Prop where
  complete : ∀ n a', s.sendData a header = (.ok n, a') → a'.bytes = a.bytes ++ header
  thrown : ∀ e a', s.sendData a header = (.error e, a') → ∃ msg, e = .qyutil msg

variable {s : Socket} {a : Accepted} {header : Bytes} {st : Request} {c : Call}

theorem toSize_eq_zero {n : ℤ} (h : -1 ≤ n) : toSize n ≤ 0 ↔ n = 0 := by
  unfold toSize sizeBound
  split_ifs <;> omega

/-- A call of `get` that writes to this socket throws what `send_data` throws, and what is
sent is what the socket has accepted. -/
theorem sendRequest_sendData (hopen : (tryOpen c.opens 0 st.ips).2 = true)
    (hw : c.written = (s.write a st.header).1) (hlength : st.header.length < sizeBound - 1) :
    (st.sendRequest c).2.1 = (match (s.sendData a st.header).1 with
      | .error e => some e
      | .ok _ => none) ∧
    (s.sendData a st.header).2.bytes = a.bytes ++ c.taken st.header ∧
    .sent (c.taken st.header) ∈ (st.sendRequest c).1 := by
  refine ⟨?_, ?_, ?_⟩
  · simp only [Request.sendRequest, hopen, if_true, hw, Socket.sendData, Nat.le_zero]
    split_ifs <;> rfl
  · simp only [Socket.sendData, Call.taken, hw, Socket.write, toSize]
    rcases s.result a.calls st.header.length with hfail | ⟨hge, hle⟩
    · have hmore : ¬ sizeBound - 1 ≤ st.header.length := not_le.mpr hlength
      simp [hfail, hmore]
    · rw [if_pos hge, if_pos (Int.toNat_le.mpr hle)]
  · simp [Request.sendRequest, hopen]

theorem sendData_cases (s : Socket) (a : Accepted) (header : Bytes) :
    (s.send a.calls header.length = 0 ∧ s.sendData a header =
      (.error (.qyutil (ascii "send error")), ⟨a.calls + 1, a.bytes⟩)) ∨
    (s.send a.calls header.length ≠ 0 ∧ s.sendData a header =
      (.ok 0, ⟨a.calls + 1, a.bytes ++ header.take (s.send a.calls header.length).toNat⟩)) := by
  have hge : -1 ≤ s.send a.calls header.length := by
    rcases s.result a.calls header.length with h | h <;> omega
  by_cases hz : s.send a.calls header.length = 0
  · refine .inl ⟨hz, ?_⟩
    simp [Socket.sendData, Socket.write, hz, toSize]
  · refine .inr ⟨hz, ?_⟩
    simp only [Socket.sendData, Socket.write, toSize_eq_zero hge, if_neg hz]

/-- A request that is not empty is sent whole or refused exactly when the first `send`
takes nothing of it or everything. -/
theorem sendsAll_iff (s : Socket) (a : Accepted) (header : Bytes) :
    SendsAll s a header ↔ header = [] ∨ s.send a.calls header.length = 0 ∨
      s.send a.calls header.length = header.length := by
  rcases sendData_cases s a header with ⟨hz, hdata⟩ | ⟨hz, hdata⟩
  · refine iff_of_true ⟨fun n a' h => ?_, fun e a' h => ?_⟩ (.inr (.inl hz))
    · rw [hdata] at h
      cases (Prod.mk.inj h).1
    · rw [hdata] at h
      cases (Prod.mk.inj h).1
      exact ⟨_, rfl⟩
  · constructor
    · intro h
      have hall := List.append_cancel_left (h.complete _ _ hdata)
      have hlen := congrArg List.length hall
      rw [List.length_take] at hlen
      rcases s.result a.calls header.length with hfail | ⟨hge, hle⟩
      · rw [hfail] at hlen
        exact .inl (List.length_eq_zero_iff.mp (by simpa using hlen.symm))
      · exact .inr (.inr (by omega))
    · intro h
      refine ⟨fun n a' h' => ?_, fun e a' h' => ?_⟩
      · rw [hdata] at h'
        obtain rfl := (Prod.mk.inj h').2
        rcases h with rfl | h | h
        · simp
        · exact absurd h hz
        · simp [h]
      · rw [hdata] at h'
        cases (Prod.mk.inj h').1

/-- The request of which nothing is sent: `send` fails, and `send_data` returns. -/
theorem failed_send_returns :
    (Socket.sendData ⟨fun _ _ => -1, fun _ _ => .inl rfl⟩ ⟨0, []⟩ (ascii "GET / HTTP/1.0")) =
      (.ok 0, ⟨1, []⟩) ∧
    ¬ SendsAll ⟨fun _ _ => -1, fun _ _ => .inl rfl⟩ ⟨0, []⟩ (ascii "GET / HTTP/1.0") := by
  have hdata : Socket.sendData ⟨fun _ _ => -1, fun _ _ => .inl rfl⟩ ⟨0, []⟩
      (ascii "GET / HTTP/1.0") = (.ok 0, ⟨1, []⟩) := by decide
  exact ⟨hdata, fun h => absurd (h.complete 0 ⟨1, []⟩ hdata) (by decide)⟩

end QyUtil.Http
