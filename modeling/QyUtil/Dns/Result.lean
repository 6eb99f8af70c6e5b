import QyUtil.Dns.Resolve

/-! # The result of a lookup

Whatever the network and the heap do, a lookup that comes back has stored as many
addresses as it says, in text, and returns zero exactly when there is one.
-/

namespace QyUtil.Dns

open Loops Outcome Bytes Net

variable {buf : RecvBuf} {heap : Heap} {net : Network} {info info' : SocketIpInfo}
  {rs : List ResRecord} {host : Bytes} {dnsserver : Option Bytes} {timeout : ℤ} {r : Lookup}
  {a : Answers} {i n q : ℕ}

/-- The result says how many addresses it holds, and holds them as text. -/
def Holds (info : SocketIpInfo) (as : List Address) : Prop :=
  info.size = as.length ∧ info.ip.take info.size = as.map Address.dotted

theorem copyAnswers_pushes (h : copyAnswers buf i rs info = done info') :
    ∃ as : List Address, info' = pushAll info as ∧ as.length ≤ rs.length := by
  induction rs generalizing i info with
  | nil => exact ⟨[], (done.inj h).symm, le_refl 0⟩
  | cons r rs ih =>
    rw [copyAnswers] at h
    split at h
    · cases h
    · obtain ⟨type, -, h⟩ := bind_eq_done.mp h
      split_ifs at h
      · obtain ⟨a, -, h⟩ := bind_eq_done.mp h
        obtain ⟨as, hpush, hlen⟩ := ih h
        exact ⟨a :: as, hpush, Nat.succ_le_succ hlen⟩
      · obtain ⟨as, hpush, hlen⟩ := ih h
        exact ⟨as, hpush, hlen.trans (Nat.le_succ _)⟩

theorem readResponse_holds (h : readResponse n heap buf q info = done (info', a)) :
    ∃ as, Holds info' as := by
  obtain ⟨answers, -, h⟩ := bind_eq_done.mp h
  obtain ⟨k, hk, h⟩ := bind_eq_done.mp h
  obtain ⟨info₁, hcopy, h⟩ := bind_eq_done.mp h
  obtain ⟨rfl, -⟩ := Prod.mk.inj (done.inj h)
  obtain ⟨as, rfl, hlen⟩ := copyAnswers_pushes hcopy
  have hmax : k ≤ socketMaxIpCount := by
    obtain ⟨m, -, hm⟩ := bind_eq_done.mp hk
    obtain rfl := done.inj hm
    exact min_le_left _ _
  have hfirst : (answers.first k).length ≤ k := List.length_take_le _ _
  obtain ⟨hsize, hip⟩ := pushAll_take { info with size := 0 } as (by
    simp only
    omega)
  simp only [Nat.zero_add, List.take_zero, List.nil_append] at hsize hip
  exact ⟨as, hsize, by rw [hsize, hip]⟩

/-- What a lookup leaves, when its result held nothing before. -/
def Consistent (r : Lookup) : Prop :=
  ∃ info as, r.info = some info ∧ Holds info as ∧ (r.ret = 0 ↔ as ≠ [])

theorem holds_nil (h : info.size = 0) : Holds info [] := by simp [Holds, h]

theorem consistent_failed (h : info.size = 0) (hret : r.ret = -1) (hinfo : r.info = some info) :
    Consistent r :=
  ⟨info, [], hinfo, holds_nil h, by simp [hret]⟩

/-- On every way out, the return value and the number of addresses agree. -/
theorem lookup_consistent (h0 : info.size = 0)
    (h : socketGethostbyname n net (some host) (some info) timeout dnsserver = done r) :
    Consistent r := by
  rcases lookup_cases h with ⟨hret, hinfo, -⟩ | ⟨_, _, info', a, -, hread, hinfo, hret, -⟩
  · exact consistent_failed h0 hret hinfo
  · obtain ⟨as, hsize, hip⟩ := readResponse_holds hread
    refine ⟨info', as, hinfo, ⟨hsize, hip⟩, ?_⟩
    rw [hret, ← List.length_pos_iff, ← hsize]
    split_ifs with hnil
    · simp [hnil]
    · simpa using Nat.pos_of_ne_zero hnil

end QyUtil.Dns
