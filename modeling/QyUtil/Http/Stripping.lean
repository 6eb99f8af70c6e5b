import QyUtil.Http.Response

/-! # Stripping

`rstrip` looks for spaces from the right and cuts its string at the position where there
are none left, which is `npos`: it takes nothing off. A space in front makes its position
wrap around, and it starts again for ever. `strip` gives it only what `lstrip` has left,
which has no space, so the header parser always comes to its end.
-/

namespace QyUtil.Http

open Loops Outcome Turn Bytes Search

variable {str : Bytes} {pos : Option ℕ} {i : ℕ}

def looked (str : Bytes) (pos : Option ℕ) : ℕ :=
  match pos with
  | some p => min str.length (p + 1)
  | none => str.length

theorem rfind_eq_some (h : rfind str 32 pos = some i) : i < looked str pos ∧ str[i]? = some 32 := by
  have hmem := List.mem_of_find?_eq_some h
  rw [List.mem_reverse, List.mem_range] at hmem
  have hspace := List.find?_some h
  have hlt : i < str.length := hmem.trans_le (by cases pos <;> simp)
  rw [decide_eq_true_eq, List.getD_eq_getElem _ _ hlt] at hspace
  exact ⟨hmem, by rw [List.getElem?_eq_getElem hlt, hspace]⟩

theorem rfind_leading (h : str.head? = some 32) (pos : Option ℕ) :
    ∃ i, rfind str 32 pos = some i := by
  obtain ⟨rest, rfl⟩ := List.head?_eq_some_iff.mp h
  rw [← Option.isSome_iff_exists]
  unfold rfind
  rw [List.find?_isSome]
  refine ⟨0, ?_, by simp⟩
  rw [List.mem_reverse, List.mem_range]
  cases pos <;> simp

theorem rstrip_diverges (h : str.head? = some 32) : Diverges fun k => rstrip k str := by
  refine Diverges.bind (loop_diverges fun pos _ => ?_)
  obtain ⟨i, hi⟩ := rfind_leading h pos
  cases i with
  | zero => exact ⟨none, by simp only [Next, rstripTurn, hi]; rfl⟩
  | succ i => exact ⟨some i, by simp only [Next, rstripTurn, hi]; rfl⟩

theorem rstrip_keeps (h : str.head? ≠ some 32) : Returns (fun k => rstrip k str) str := by
  have hbody (pos : Option ℕ) : (∃ pos', Next (rstripTurn str) pos pos' ∧ True ∧
      looked str pos' < looked str pos) ∨ ∃ r, rstripTurn str pos = done (exit r) ∧ True := by
    cases hf : rfind str 32 pos with
    | none => exact .inr ⟨(), by simp only [rstripTurn, hf]; rfl, trivial⟩
    | some i =>
      obtain ⟨hlt, hspace⟩ := rfind_eq_some hf
      cases i with
      | zero => exact absurd (List.head?_eq_getElem? ▸ hspace) h
      | succ i =>
        refine .inl ⟨some i, by simp only [Next, rstripTurn, hf]; rfl, trivial, ?_⟩
        exact (min_le_right _ _).trans_lt hlt
  obtain ⟨_, hr, -⟩ := loop_returns_of_measure (I := fun _ => True) (Q := fun _ => True)
    (looked str) (fun pos _ => hbody pos) (s := none) trivial
  exact hr.bind (loop_progressive _ _) (progressive_const _)
    ⟨0, substr_done (Nat.zero_le _)⟩

/-- `rstrip` gives its string without the spaces at the end exactly when there are none to
take off, and none in front. -/
theorem rstrip_exact_iff (str : Bytes) :
    Returns (fun k => rstrip k str) (str.rdropWhile (· = 32)) ↔
      str.head? ≠ some 32 ∧ str.getLast? ≠ some 32 := by
  constructor
  · intro h
    have hhead : str.head? ≠ some 32 := fun hs => h.not_diverges (rstrip_diverges hs)
    have hself := h.unique (rstrip_progressive str) (rstrip_keeps hhead)
    refine ⟨hhead, fun hlast => ?_⟩
    obtain ⟨pre, rfl⟩ := List.getLast?_eq_some_iff.mp hlast
    rw [List.rdropWhile_eq_self_iff] at hself
    exact hself (by simp) (by simp)
  · rintro ⟨hhead, hlast⟩
    have hself : str.rdropWhile (· = 32) = str := by
      rw [List.rdropWhile_eq_self_iff]
      intro hne hspace
      apply hlast
      rw [List.getLast?_eq_some_getLast hne, of_decide_eq_true hspace]
    rw [hself]
    exact rstrip_keeps hhead

/-- Of `a ` and of ` a` neither is stripped. -/
theorem rstrip_not_exact :
    ¬ Returns (fun k => rstrip k (ascii "a ")) ((ascii "a ").rdropWhile (· = 32)) ∧
    ¬ Returns (fun k => rstrip k (ascii " a")) ((ascii " a").rdropWhile (· = 32)) := by
  constructor
  · intro h
    have hkept := h.unique (rstrip_progressive _) (rstrip_keeps (by decide))
    exact absurd hkept (by decide)
  · exact fun h => h.not_diverges (rstrip_diverges (by decide))

/-- The header parser comes to its end on every header, and no `substr` is out of range.
What `lstrip` leaves has no space, and on this `rstrip` ends, although it goes on for ever
on a string that begins with one. -/
theorem parseHeader_ends (r : Response) :
    (∃ r', Returns (fun k => parseHeader k r) r') ∧
    (∀ e, ¬ Faults (fun k => parseHeader k r) e) ∧
    (∀ s t, Returns (fun k => lstrip k s) t →
      (32 : UInt8) ∉ t ∧ Returns (fun k => rstrip k t) t) ∧
    ∀ t, Diverges fun k => rstrip k (32 :: t) := by
  obtain ⟨fields, hfields⟩ := parseFields_returns r.mHeader r.respHeader
  obtain ⟨n, hn⟩ := getContentLength_done r.mHeader r.contentLength
  have hret : Returns (fun k => parseHeader k r)
      { r with respHeader := fields, contentLength := n } :=
    hfields.bind (parseFields_progressive _ _) (progressive_const _)
      ⟨0, by simp only [hn, done_bind, pure_eq]⟩
  refine ⟨⟨_, hret⟩, fun e => hret.not_faults (parseHeader_progressive r), ?_, ?_⟩
  · intro s t ht
    obtain rfl := ht.unique (lstrip_progressive s) (lstrip_returns s)
    exact ⟨notMem_rtakeWhile s, rstrip_returns (notMem_rtakeWhile s)⟩
  · exact fun t => rstrip_diverges rfl

end QyUtil.Http
