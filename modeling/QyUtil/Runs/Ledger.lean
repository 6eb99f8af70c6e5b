import Mathlib

/-! # Ledgers

An event of a log takes resources and gives others back. A log is balanced when it
only gives back what is held at that moment, and holds nothing in the end: what it
takes it gives back exactly once.
-/

namespace Runs

universe u v

/-- What the events take, and what they give back. -/
structure Ledger (E : Type u) (R : Type v) where
  takes : E → Multiset R
  gives : E → Multiset R

namespace Ledger

variable {E : Type u} {R : Type v} {L : Ledger E R} {e : E} {log log' : List E}
  {held held' left : Multiset R}

/-- With `held` in hand, the log gives back only what is held, and leaves `left`. -/
inductive Leaves (L : Ledger E R) : Multiset R → List E → Multiset R → Prop

  | nil {held : Multiset R} : Leaves L held [] held

  | cons {e : E} {log : List E} {held left : Multiset R} :
      Leaves L (L.takes e + held) log left → Leaves L (L.gives e + held) (e :: log) left

/-- Everything taken is given back, and nothing else. -/
def Balanced (L : Ledger E R) (log : List E) : Prop := L.Leaves 0 log 0

theorem Leaves.append (h : L.Leaves held log held') (h' : L.Leaves held' log' left) :
    L.Leaves held (log ++ log') left := by
  induction h with
  | nil => exact h'
  | cons _ ih => exact .cons (ih h')

theorem Leaves.frame (h : L.Leaves held log left) (rest : Multiset R) :
    L.Leaves (held + rest) log (left + rest) := by
  induction h with
  | nil => exact .nil
  | cons _ ih =>
    rw [add_assoc]
    exact .cons (add_assoc (L.takes _) _ _ ▸ ih)

theorem leaves_event (L : Ledger E R) (e : E) (held : Multiset R) :
    L.Leaves (L.gives e + held) [e] (L.takes e + held) := .cons .nil

theorem leaves_neutral (ht : L.takes e = 0) (hg : L.gives e = 0) (held : Multiset R) :
    L.Leaves held [e] held := by
  have h := L.leaves_event e held
  rwa [ht, hg, zero_add] at h

theorem leaves_take (hg : L.gives e = 0) (held : Multiset R) :
    L.Leaves held [e] (L.takes e + held) := by
  have h := L.leaves_event e held
  rwa [hg, zero_add] at h

theorem leaves_give (ht : L.takes e = 0) (held : Multiset R) :
    L.Leaves (L.gives e + held) [e] held := by
  have h := L.leaves_event e held
  rwa [ht, zero_add] at h

theorem leaves_takes (hg : ∀ e ∈ log, L.gives e = 0) (held : Multiset R) :
    L.Leaves held log ((log.map L.takes).sum + held) := by
  induction log generalizing held with
  | nil => simpa using Leaves.nil
  | cons e log ih =>
    obtain ⟨he, hrest⟩ := List.forall_mem_cons.mp hg
    have hall := (leaves_take he held).append (ih hrest _)
    rwa [← add_assoc, add_comm _ (L.takes e), ← List.sum_cons, ← List.map_cons] at hall

theorem Leaves.total (h : L.Leaves held log left) :
    (log.map L.gives).sum + left = (log.map L.takes).sum + held := by
  induction h with
  | nil => rfl
  | cons _ ih =>
    simp only [List.map_cons, List.sum_cons, add_assoc]
    rw [ih]
    ac_rfl

/-- Logs from nothing, one after the other, leave what each of them leaves. -/
theorem leaves_flatMap {ι : Type*} {logs : ι → List E} {lefts : ι → Multiset R} {is : List ι}
    (h : ∀ i ∈ is, L.Leaves 0 (logs i) (lefts i)) :
    L.Leaves 0 (is.flatMap logs) (is.map lefts).sum := by
  induction is with
  | nil => exact .nil
  | cons i is ih =>
    obtain ⟨hi, hrest⟩ := List.forall_mem_cons.mp h
    have hothers := (ih hrest).frame (lefts i)
    rw [zero_add, add_comm] at hothers
    rw [List.flatMap_cons, List.map_cons, List.sum_cons]
    exact hi.append hothers

theorem takes_eq_zero (h : L.Balanced log) (hg : ∀ e ∈ log, L.gives e = 0) :
    ∀ e ∈ log, L.takes e = 0 := by
  have hgives : (log.map L.gives).sum = 0 :=
    List.sum_eq_zero fun x hx => by
      obtain ⟨e, he, rfl⟩ := List.mem_map.mp hx
      exact hg e he
  have htakes : (log.map L.takes).sum = 0 := by simpa [hgives] using h.total.symm
  intro e he
  exact List.sum_eq_zero_iff.mp htakes _ (List.mem_map_of_mem he)

end Ledger

end Runs
