import QyUtil.Bytes.Basic

/-! # Slices

The bytes of a buffer from an offset on. A slice reads back what was stored there, and a
store that does not touch it leaves it as it is.
-/

namespace Bytes

variable {m bs : Bytes} {off off' n : ℕ}

def slice (m : Bytes) (off n : ℕ) : Bytes := (m.drop off).take n

theorem slice_add (m : Bytes) (off k n : ℕ) :
    slice m off (k + n) = slice m off k ++ slice m (off + k) n := by
  rw [slice, slice, slice, List.take_add, List.drop_drop]

theorem slice_writeAt (hn : bs.length = n) (h : off ≤ m.length) :
    slice (writeAt m off bs) off n = bs := by
  rw [slice, writeAt, List.append_assoc, List.drop_left' (by simpa using h), List.take_left' hn]

theorem slice_writeAt_before (hle : off' + n ≤ off) (h : off ≤ m.length) :
    slice (writeAt m off bs) off' n = slice m off' n := by
  have htake : (writeAt m off bs).take (off' + n) = m.take (off' + n) := by
    rw [← min_eq_left hle, ← List.take_take, take_writeAt h, List.take_take]
  rw [slice, slice, List.take_drop, List.take_drop, htake]

theorem slice_writeAt_behind (hle : off + bs.length ≤ off') (h : off + bs.length ≤ m.length) :
    slice (writeAt m off bs) off' n = slice m off' n := by
  obtain ⟨k, rfl⟩ := Nat.exists_eq_add_of_le hle
  have hlen : (m.take off ++ bs).length = off + bs.length := by
    rw [List.length_append, List.length_take]
    omega
  rw [slice, slice, writeAt, ← List.drop_drop, List.drop_left' hlen, List.drop_drop]

end Bytes
