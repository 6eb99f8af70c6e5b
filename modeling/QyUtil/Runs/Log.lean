import Mathlib

/-! # Logs

A log is a list of events, each of which belongs to a key: a worker, or a round of
a protocol. `own` is the part of a log that belongs to one key. A log that is
written round by round splits into its rounds again.
-/

namespace Runs

universe u v

variable {κ : Type u} {β : Type v} [DecidableEq κ] {k k' : κ} {l l' : List (κ × β)}

def own (k : κ) (l : List (κ × β)) : List β := (l.filter fun e => e.1 = k).map Prod.snd

@[simp] theorem own_append : own k (l ++ l') = own k l ++ own k l' := by simp [own]

@[simp] theorem own_map (m : List β) : own k (m.map (k, ·)) = m := by
  simp [own, List.filter_map, Function.comp_def]

theorem own_map_of_ne (h : k' ≠ k) (m : List β) : own k (m.map (k', ·)) = [] := by
  simp [own, List.filter_map, Function.comp_def, h]

@[simp] theorem mem_own {b : β} : b ∈ own k l ↔ (k, b) ∈ l := by
  simp [own]

def roundLog (rounds : κ → List β) (ks : List κ) : List (κ × β) :=
  ks.flatMap fun k => (rounds k).map (k, ·)

variable {rounds : κ → List β} {ks : List κ}

omit [DecidableEq κ] in
theorem mem_roundLog {e : κ × β} : e ∈ roundLog rounds ks ↔ e.1 ∈ ks ∧ e.2 ∈ rounds e.1 := by
  obtain ⟨k, b⟩ := e
  simp only [roundLog, List.mem_flatMap, List.mem_map, Prod.mk.injEq]
  constructor
  · rintro ⟨_, hk, _, hb, rfl, rfl⟩
    exact ⟨hk, hb⟩
  · rintro ⟨hk, hb⟩
    exact ⟨k, hk, b, hb, rfl, rfl⟩

theorem own_roundLog_of_not_mem (h : k ∉ ks) : own k (roundLog rounds ks) = [] := by
  apply List.eq_nil_iff_forall_not_mem.mpr
  intro b hb
  rw [mem_own, mem_roundLog] at hb
  exact h hb.1

theorem own_roundLog (hn : ks.Nodup) (h : k ∈ ks) : own k (roundLog rounds ks) = rounds k := by
  obtain ⟨before, after, rfl⟩ := List.append_of_mem h
  rw [List.nodup_append] at hn
  obtain ⟨-, ha, hd⟩ := hn
  have hb : k ∉ before := fun hm => hd k hm k List.mem_cons_self rfl
  have hlog : roundLog rounds (before ++ k :: after) = roundLog rounds before ++
      ((rounds k).map (k, ·) ++ roundLog rounds after) := by
    simp [roundLog]
  rw [hlog, own_append, own_append, own_map, own_roundLog_of_not_mem hb,
    own_roundLog_of_not_mem (List.nodup_cons.mp ha).1, List.nil_append, List.append_nil]

end Runs
