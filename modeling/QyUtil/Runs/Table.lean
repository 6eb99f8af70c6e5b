import QyUtil.Runs.Ledger

/-! # Tables of handles

A table hands out handles that are free, as long as there is room, and takes them back. It may
refuse at any time, and giving back what is no handle changes nothing. What a log of calls leaves
in the ledger of its handles, it leaves in the table.
-/

namespace Runs

universe u v

/-- A call on a table, with its answer. `none` is a refusal, and what is no handle. -/
inductive HandleCall (R : Type u) where
  | take (answer : Option R)
  | give (handle : Option R)
  deriving DecidableEq, Repr

namespace HandleCall

variable {R : Type u} {E : Type v} {log log' : List (HandleCall R)} {limit : ℕ} {c : HandleCall R}
  {held own left rest : Multiset R} {table table' : Finset R} {answer : Option R}

def ledger : Ledger (HandleCall R) R where
  takes
    | .take answer => answer.elim 0 singleton
    | .give _ => 0
  gives
    | .take _ => 0
    | .give handle => handle.elim 0 singleton

theorem leaves_take (answer : Option R) :
    ledger.Leaves 0 [.take answer] (answer.elim 0 singleton) := by
  have h := Ledger.leaves_take (L := ledger) (e := .take answer) rfl 0
  rwa [add_zero] at h

theorem leaves_give (handle : Option R) :
    ledger.Leaves (handle.elim 0 singleton) [.give handle] 0 := by
  have h := Ledger.leaves_give (L := ledger) (e := .give handle) rfl 0
  rwa [add_zero] at h

theorem balanced_take_give (answer : Option R) :
    ledger.Balanced [.take answer, .give answer] :=
  (leaves_take answer).append (leaves_give answer)

variable [DecidableEq R]

def step (limit : ℕ) (table : Finset R) : HandleCall R → Option (Finset R)
  | .take (some r) => if r ∉ table ∧ table.card < limit then some (insert r table) else none
  | .take none => some table
  | .give (some r) => some (table.erase r)
  | .give none => some table

def replay (limit : ℕ) (table : Finset R) (log : List (HandleCall R)) : Option (Finset R) :=
  log.foldlM (step limit) table

@[simp] theorem replay_nil : replay limit table [] = some table := rfl

theorem replay_cons :
    replay limit table (c :: log) = (step limit table c).bind fun t => replay limit t log :=
  List.foldlM_cons ..

theorem replay_append : replay limit table (log ++ log') =
    (replay limit table log).bind fun t => replay limit t log' :=
  List.foldlM_append ..

theorem step_cases (h : step limit table c = some table') :
    (∃ r, c = .take (some r) ∧ r ∉ table ∧ table.card < limit ∧ table' = insert r table) ∨
    (∃ r, c = .give (some r) ∧ table' = table.erase r) ∨
    (c = .take none ∨ c = .give none) ∧ table' = table := by
  cases c with
  | take answer =>
    cases answer with
    | none => exact .inr (.inr ⟨.inl rfl, (Option.some.inj h).symm⟩)
    | some r =>
      obtain ⟨⟨hfree, hlt⟩, h⟩ := Option.ite_none_right_eq_some.mp h
      exact .inl ⟨r, rfl, hfree, hlt, (Option.some.inj h).symm⟩
  | give handle =>
    cases handle with
    | none => exact .inr (.inr ⟨.inr rfl, (Option.some.inj h).symm⟩)
    | some r => exact .inr (.inl ⟨r, rfl, (Option.some.inj h).symm⟩)

theorem step_val (h : step limit table c = some table')
    (hheld : table.val = rest + (ledger.gives c + held)) :
    table'.val = rest + (ledger.takes c + held) := by
  rcases step_cases h with ⟨r, rfl, hfree, -, rfl⟩ | ⟨r, rfl, rfl⟩ | ⟨rfl | rfl, rfl⟩
  · rw [Finset.insert_val_of_notMem hfree, hheld]
    simp [ledger]
  · rw [Finset.erase_val, hheld]
    simp [ledger]
  · exact hheld
  · exact hheld

theorem replay_val (hl : ledger.Leaves own log left) (h : replay limit table log = some table')
    (hheld : table.val = rest + own) : table'.val = rest + left := by
  induction hl generalizing table with
  | nil =>
    cases h
    exact hheld
  | cons _ ih =>
    rw [replay_cons] at h
    obtain ⟨t, ht, h⟩ := Option.bind_eq_some_iff.mp h
    exact ih h (step_val ht hheld)

theorem step_card_le (h : step limit table c = some table') (hcard : table.card ≤ limit) :
    table'.card ≤ limit := by
  rcases step_cases h with ⟨r, rfl, hfree, hlt, rfl⟩ | ⟨r, rfl, rfl⟩ | ⟨-, rfl⟩
  · rw [Finset.card_insert_of_notMem hfree]
    exact hlt
  · exact (Finset.card_le_card (table.erase_subset r)).trans hcard
  · exact hcard

theorem replay_card_le (h : replay limit table log = some table') (hcard : table.card ≤ limit) :
    table'.card ≤ limit := by
  induction log generalizing table with
  | nil =>
    cases h
    exact hcard
  | cons c log ih =>
    rw [replay_cons] at h
    obtain ⟨t, ht, h⟩ := Option.bind_eq_some_iff.mp h
    exact ih h (step_card_le ht hcard)

theorem replay_full (h : replay limit table (.take answer :: log) = some table')
    (hfull : limit ≤ table.card) : answer = none := by
  rw [replay_cons] at h
  obtain ⟨t, ht, -⟩ := Option.bind_eq_some_iff.mp h
  rcases step_cases ht with ⟨r, -, -, hlt, -⟩ | ⟨r, hc, -⟩ | ⟨hc | hc, -⟩
  · exact absurd hlt (not_lt.mpr hfull)
  · cases hc
  · exact take.inj hc
  · cases hc

theorem replay_flatMap {calls : E → List (HandleCall R)} {keeps : E → Multiset R} {es : List E}
    (hkeeps : ∀ e ∈ es, ledger.Leaves 0 (calls e) (keeps e))
    (h : replay limit table (es.flatMap calls) = some table') :
    table'.val = table.val + (es.map keeps).sum :=
  replay_val (Ledger.leaves_flatMap hkeeps) h (add_zero _).symm

/-- When those who came first have filled the table, the next one is refused. -/
theorem replay_refused {calls : E → List (HandleCall R)} {keeps : E → Multiset R}
    {before after : List E} {e : E}
    (hkeeps : ∀ e' ∈ before, ledger.Leaves 0 (calls e') (keeps e'))
    (h : replay limit table ((before ++ e :: after).flatMap calls) = some table')
    (hfull : limit ≤ table.card + ((before.map keeps).sum).card)
    (hcalls : calls e = .take answer :: log) : answer = none := by
  rw [List.flatMap_append, List.flatMap_cons, hcalls, replay_append] at h
  obtain ⟨t, ht, h⟩ := Option.bind_eq_some_iff.mp h
  have hcard := congrArg Multiset.card (replay_flatMap hkeeps ht)
  rw [Multiset.card_add] at hcard
  exact replay_full h (hfull.trans hcard.ge)

end HandleCall

/-- The integer of a descriptor, which is negative when there is none. -/
def descriptor (fd : ℤ) : Option ℕ := if 0 ≤ fd then some fd.toNat else none

theorem descriptor_eq_none {fd : ℤ} : descriptor fd = none ↔ fd < 0 := by
  simp [descriptor]

end Runs
