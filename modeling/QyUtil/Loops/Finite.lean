import QyUtil.Loops.Basic

/-! # Loops over finitely many states

A loop body is deterministic, so a run that comes back to one of its states
repeats for ever. When only finitely many states are reached, this is the only
way of not stopping.
-/

namespace Loops

universe u v

variable {ε : Type u} {σ ρ : Type v} {body : σ → Outcome ε (Turn σ ρ)}

open Outcome Turn

def Cyclic (body : σ → Outcome ε (Turn σ ρ)) (s : σ) : Prop :=
  Relation.TransGen (Next body) s s

theorem Cyclic.exists_next {s : σ} (h : Cyclic body s) : ∃ s', Next body s s' := by
  obtain ⟨s', hs, _⟩ := Relation.TransGen.head'_iff.mp h
  exact ⟨s', hs⟩

theorem Cyclic.next {s s' : σ} (h : Cyclic body s) (hn : Next body s s') :
    Cyclic body s' := by
  obtain ⟨t, ht, hr⟩ := Relation.TransGen.head'_iff.mp h
  obtain rfl := ht.functional hn
  exact Relation.TransGen.tail' hr hn

theorem Cyclic.reach {s t : σ} (h : Cyclic body s) (hr : Reach body s t) :
    Cyclic body t :=
  hr.invariant h fun _ _ hc hn => hc.next hn

theorem Cyclic.diverges {s : σ} (h : Cyclic body s) :
    Diverges fun n => loop body n s :=
  loop_diverges fun _ ht => (h.reach ht).exists_next

theorem Reach.diverges {s t : σ} (hr : Reach body s t) (hc : Cyclic body t) :
    Diverges fun n => loop body n s := by
  induction hr using Relation.ReflTransGen.head_induction_on with
  | refl => exact hc.diverges
  | head hn _ ih =>
    intro n
    cases n with
    | zero => rfl
    | succ n =>
      simp only [loop_succ_again hn]
      exact ih n

noncomputable def visit (body : σ → Outcome ε (Turn σ ρ)) (s : σ) : ℕ → σ
  | 0 => s
  | n + 1 => open Classical in
    if h : ∃ t, Next body (visit body s n) t then h.choose else visit body s n

theorem visit_next {s : σ} (h : ∀ t, Reach body s t → ∃ t', Next body t t') (n : ℕ) :
    Reach body s (visit body s n) ∧ Next body (visit body s n) (visit body s (n + 1)) := by
  have key : ∀ n, Reach body s (visit body s n) →
      Next body (visit body s n) (visit body s (n + 1)) := by
    intro n hr
    have hn := h _ hr
    rw [visit, dif_pos hn]
    exact hn.choose_spec
  have reach : ∀ n, Reach body s (visit body s n) := by
    intro n
    induction n with
    | zero => exact .refl
    | succ n ih => exact ih.tail (key n ih)
  exact ⟨reach n, key n (reach n)⟩

theorem visit_trans {s : σ} (h : ∀ t, Reach body s t → ∃ t', Next body t t') {m n : ℕ}
    (hmn : m < n) : Relation.TransGen (Next body) (visit body s m) (visit body s n) := by
  induction n, hmn using Nat.le_induction with
  | base => exact .single (visit_next h m).2
  | succ n _ ih => exact ih.tail (visit_next h n).2

/-- Among finitely many states, a run without end comes back to one of them. -/
theorem exists_cyclic {s : σ} (hf : {t | Reach body s t}.Finite)
    (h : ∀ t, Reach body s t → ∃ t', Next body t t') :
    ∃ t, Reach body s t ∧ Cyclic body t := by
  obtain ⟨m, -, n, -, hne, he⟩ := Set.infinite_univ.exists_ne_map_eq_of_mapsTo
    (f := visit body s) (fun k _ => (visit_next h k).1) hf
  rcases Nat.lt_or_gt_of_ne hne with hlt | hlt
  · exact ⟨_, (visit_next h m).1, by simpa only [Cyclic, ← he] using visit_trans h hlt⟩
  · exact ⟨_, (visit_next h n).1, by simpa only [Cyclic, he] using visit_trans h hlt⟩

/-- With finitely many reached states and a body that always answers, a run
stops exactly when it reaches no cycle. -/
theorem stops_iff_no_cycle {s : σ} (hf : {t | Reach body s t}.Finite)
    (hb : ∀ t, body t ≠ running) :
    ((∃ r, Returns (fun n => loop body n s) r) ∨ ∃ e, Faults (fun n => loop body n s) e) ↔
      ¬ ∃ t, Reach body s t ∧ Cyclic body t := by
  constructor
  · rintro hs ⟨t, hr, hc⟩
    have hd := hr.diverges hc
    rcases hs with ⟨r, n, hn⟩ | ⟨e, n, hn⟩ <;> simp [hd n] at hn
  · intro hc
    by_contra hn
    rw [not_or] at hn
    refine hc (exists_cyclic hf fun t ht => ?_)
    cases hbt : body t with
    | running => exact (hb t hbt).elim
    | fault e => exact (hn.2 ⟨e, loop_faults_iff.mpr ⟨t, ht, hbt⟩⟩).elim
    | done q =>
      cases q with
      | again t' => exact ⟨t', hbt⟩
      | exit r => exact (hn.1 ⟨r, loop_returns_iff.mpr ⟨t, ht, hbt⟩⟩).elim

end Loops
