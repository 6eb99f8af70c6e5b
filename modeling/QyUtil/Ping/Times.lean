import QyUtil.Ping.LossRate

/-! # The round trip times

`statistics` looks for the greatest of the recorded times from 0 upwards and for the least
one from the interval downwards, and it divides their sum by the number of all attempts.
So the greatest time is always right, and the others are when some reply comes within the
interval and no attempt is lost.
-/

namespace QyUtil.Ping

variable {c : Config} {env : ℕ → Attempt} {interval socket : ℤ} {times : List ℕ} {a n r s : ℕ}

/-- The recorded reply times. -/
def replyTimes (s : Pinger) : List ℕ := (s.result.filter PingState.brecv).map PingState.costTime

/-- The three times of a status are those of a list of reply times. -/
structure RttRight (times : List ℕ) (h : times ≠ []) (status : PingStatus) : Prop where
  least : status.minrtt = times.min h
  greatest : status.maxrtt = times.max h
  mean : status.avgrtt = times.sum / times.length
  ordered : status.minrtt ≤ status.avgrtt ∧ status.avgrtt ≤ status.maxrtt

theorem length_replyTimes (s : Pinger) : (replyTimes s).length = replies s := by
  rw [replyTimes, List.length_map, replies, List.countP_eq_length_filter]

theorem tally_times (result : List PingState) (hflags : ∀ st ∈ result, st.bsend = st.brecv) :
    ∀ t : Tally, t.avg < 2 ^ 64 → ∀ times,
      times = (result.filter PingState.brecv).map PingState.costTime →
      (result.foldl Tally.add t).max = times.foldl max t.max ∧
      (result.foldl Tally.add t).min = times.foldl min t.min ∧
      (result.foldl Tally.add t).avg = (t.avg + times.sum) % 2 ^ 64 := by
  induction result with
  | nil =>
    rintro t ht times rfl
    exact ⟨rfl, rfl, (Nat.mod_eq_of_lt ht).symm⟩
  | cons it result ih =>
    rintro t ht times rfl
    obtain ⟨hit, hrest⟩ := List.forall_mem_cons.mp hflags
    cases hr : it.brecv with
    | false =>
      have hadd : t.add it = t := by simp [Tally.add, hit, hr]
      rw [List.foldl_cons, hadd, List.filter_cons_of_neg (by simp [hr])]
      exact ih hrest t ht _ rfl
    | true =>
      obtain ⟨hmax, hmin, havg⟩ := ih hrest (t.add it)
        (by simp [Tally.add, hit, hr, Nat.mod_lt]) _ rfl
      rw [List.foldl_cons, List.filter_cons_of_pos hr, List.map_cons, List.foldl_cons,
        List.foldl_cons, List.sum_cons, hmax, hmin, havg]
      refine ⟨?_, ?_, ?_⟩
      · simp [Tally.add, hit, hr, max_def_lt]
      · simp [Tally.add, hit, hr, min_comm t.min, min_def_lt]
      · simp [Tally.add, hit, hr, Nat.add_assoc]

theorem pingStatus_times (ht : replyTimes (start c socket env) = times) :
    (pingStatus c interval socket env).maxrtt = times.foldl max 0 ∧
    (pingStatus c interval socket env).minrtt = times.foldl min (startMin interval) ∧
    (pingStatus c interval socket env).avgrtt = (times.sum % 2 ^ 64 : ℕ) / timesOf c.times := by
  obtain ⟨hmax, hmin, havg⟩ := tally_times (start c socket env).result
    (start_flags c socket env) ⟨0, 0, 0, startMin interval, 0⟩
    (show 0 < 2 ^ 64 by decide) times ht.symm
  rw [Nat.zero_add] at havg
  simp only [pingStatus, statistics, hmax, hmin, havg]
  exact ⟨trivial, trivial, trivial⟩

theorem mean_between (h : times ≠ []) : (times.min h : ℚ) ≤ times.sum / times.length ∧
    (times.sum : ℚ) / times.length ≤ times.max h := by
  have hpos : (0 : ℚ) < times.length := Nat.cast_pos.mpr (List.length_pos_iff.mpr h)
  have hlow := List.card_nsmul_le_sum times (times.min h) fun t ht => List.min_le_of_mem ht
  have hhigh := List.sum_le_card_nsmul times (times.max h) fun t ht => List.le_max_of_mem ht
  rw [smul_eq_mul] at hlow hhigh
  rw [le_div_iff₀ hpos, div_le_iff₀ hpos]
  constructor
  · rw [mul_comm]
    exact_mod_cast hlow
  · rw [mul_comm]
    exact_mod_cast hhigh

/-- Dividing by too large a number, or a sum that has wrapped, makes the mean too small. -/
theorem mean_eq_iff (hr : 0 < r) (hle : r ≤ n) (has : a ≤ s) :
    (a : ℚ) / n = s / r ↔ a = s ∧ (r = n ∨ s = 0) := by
  have hr' : (r : ℚ) ≠ 0 := Nat.cast_ne_zero.mpr hr.ne'
  have hn' : (n : ℚ) ≠ 0 := Nat.cast_ne_zero.mpr (hr.trans_le hle).ne'
  rw [div_eq_div_iff hn' hr']
  constructor
  · intro h
    have h : a * r = s * n := by exact_mod_cast h
    have heq : a * r = s * r :=
      le_antisymm (Nat.mul_le_mul_right r has) (h ▸ Nat.mul_le_mul_left s hle)
    obtain rfl := Nat.eq_of_mul_eq_mul_right hr heq
    rcases Nat.eq_zero_or_pos a with hz | hpos
    · exact ⟨rfl, .inr hz⟩
    · exact ⟨rfl, .inl (Nat.eq_of_mul_eq_mul_left hpos h)⟩
  · rintro ⟨rfl, rfl | rfl⟩
    · rfl
    · simp

/-- The times are right exactly when every attempt has its reply, or all replies took no
time, the sum does not wrap, and some reply took no longer than the interval. -/
theorem rtt_right_iff (h : replyTimes (start c socket env) ≠ []) :
    RttRight (replyTimes (start c socket env)) h (pingStatus c interval socket env) ↔
      (replies (start c socket env) = effectiveTimes c.times ∨
        (replyTimes (start c socket env)).sum = 0) ∧
      (replyTimes (start c socket env)).sum < 2 ^ 64 ∧
      ∃ t ∈ replyTimes (start c socket env), t ≤ startMin interval := by
  obtain ⟨hmax, hmin, havg⟩ := @pingStatus_times c env interval socket _ rfl
  have hpos : 0 < replies (start c socket env) := by
    rw [← length_replyTimes]
    exact List.length_pos_iff.mpr h
  have hle := replies_le c socket env
  have hmean := mean_eq_iff hpos hle (Nat.mod_le (replyTimes (start c socket env)).sum (2 ^ 64))
  have hleast : (min (startMin interval) ((replyTimes (start c socket env)).min h) : ℚ) =
      (replyTimes (start c socket env)).min h ↔
      ∃ t ∈ replyTimes (start c socket env), t ≤ startMin interval := by
    rw [min_eq_right_iff, Nat.cast_le]
    constructor
    · intro hi
      exact ⟨_, List.min_mem h, hi⟩
    · rintro ⟨t, ht, hi⟩
      exact (List.min_le_of_mem ht).trans hi
  rw [List.foldl_max_eq_max h, Nat.zero_max] at hmax
  rw [List.foldl_min_eq_min h, Nat.cast_min] at hmin
  rw [timesOf_eq (hpos.trans_le hle)] at havg
  constructor
  · rintro ⟨hl, -, hm, -⟩
    rw [havg, length_replyTimes, hmean, Nat.mod_eq_iff_lt (by decide)] at hm
    exact ⟨hm.2, hm.1, hleast.mp (hmin.symm.trans hl)⟩
  · rintro ⟨hall, hlt, hfast⟩
    have hl := hmin.trans (hleast.mpr hfast)
    have hm := havg.trans (hmean.mpr ⟨Nat.mod_eq_of_lt hlt, hall⟩)
    rw [← length_replyTimes] at hm
    exact ⟨hl, hmax, hm, by rw [hl, hm, hmax]; exact mean_between h⟩

theorem rtt_right_fourTimes : RttRight (replyTimes (start fourTimes 3 (repliedTo 4)))
    (by decide +kernel) (pingStatus fourTimes 1 3 (repliedTo 4)) :=
  (rtt_right_iff _).mpr
    ⟨.inl (by decide +kernel), by decide +kernel, 1, by decide +kernel, by decide +kernel⟩

/-- Of four attempts one is lost, and the mean of three replies of 1 ms is 0.75 ms. -/
theorem rtt_wrong_lost : replyTimes (start fourTimes 3 (repliedTo 3)) = [1, 1, 1] ∧
    (pingStatus fourTimes 1 3 (repliedTo 3)).avgrtt = 3 / 4 ∧
    ∀ h, ¬ RttRight (replyTimes (start fourTimes 3 (repliedTo 3))) h
      (pingStatus fourTimes 1 3 (repliedTo 3)) := by
  have hmean : (pingStatus fourTimes 1 3 (repliedTo 3)).avgrtt = 3 / 4 := by decide +kernel
  have htimes : replyTimes (start fourTimes 3 (repliedTo 3)) = [1, 1, 1] := by decide +kernel
  refine ⟨htimes, hmean, fun h hright => ?_⟩
  have := hright.mean
  rw [hmean, htimes] at this
  norm_num at this

end QyUtil.Ping
