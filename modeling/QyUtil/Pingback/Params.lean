import QyUtil.Bytes.Basic
import QyUtil.Loops.Outcome

/-! # The public parameters

`init_public_params` copies the given pairs over those that are stored, and does not make
room for more. The stored list starts empty and is never longer. `init_qyutil` makes a pair
of the field `p` and does not put it into the list that it passes on.
-/

namespace QyUtil.Pingback

open Loops Outcome Bytes

inductive Fault where
  /-- an element is assigned at `end()` of the stored list -/
  | assignAtEnd
  deriving DecidableEq, Repr

abbrev SsPair := Bytes × Bytes

structure State where
  publicParams : List SsPair
  deriving DecidableEq, Repr

def State.new : State := ⟨[]⟩

/-- `std::copy`, which assigns to elements that are there. -/
def copyOver : List SsPair → List SsPair → Outcome Fault (List SsPair)
  | [], stored => pure stored
  | _ :: _, [] => fault .assignAtEnd
  | p :: params, _ :: stored => do
    let stored ← copyOver params stored
    pure (p :: stored)

def initPublicParams (s : State) (params : List SsPair) : Outcome Fault State := do
  let stored ← copyOver params s.publicParams
  pure ⟨stored⟩

/-- The member of `PingbackParam` that is read; `none` is the null pointer. -/
structure PingbackParam where
  p : Option Bytes
  deriving DecidableEq, Repr

/-- The macro `GET_VALUE`, whose pair is a temporary. -/
def getValue (name : Bytes) (v : Option Bytes) (pbparams : List SsPair) : List SsPair :=
  match v with
  | some value =>
    let _pair : SsPair := (name, value)
    pbparams
  | none => pbparams

def pbparams (params : PingbackParam) : List SsPair := getValue (ascii "p") params.p []

def initQyutil (s : State) (params : PingbackParam) : Outcome Fault State :=
  initPublicParams s (pbparams params)

/-- After `init_public_params` the given pairs are stored, in their order. -/
def Transfers (s : State) (params : List SsPair) : Prop :=
  ∃ s', initPublicParams s params = done s' ∧ params.Sublist s'.publicParams

/-- The list that is passed on has the field `p`. -/
def Collects (params : PingbackParam) : Prop :=
  ∀ value ∈ params.p, (ascii "p", value) ∈ pbparams params

variable {s s' : State} {params stored : List SsPair}

theorem copyOver_eq (params stored : List SsPair) : copyOver params stored =
    if params.length ≤ stored.length then done (params ++ stored.drop params.length)
    else fault .assignAtEnd := by
  induction params generalizing stored with
  | nil => simp [copyOver]
  | cons p params ih =>
    cases stored with
    | nil => simp [copyOver]
    | cons q stored =>
      simp only [copyOver, ih, List.length_cons, Nat.add_le_add_iff_right]
      split_ifs <;> rfl

theorem length_initPublicParams (h : initPublicParams s params = done s') :
    s'.publicParams.length = s.publicParams.length := by
  simp only [initPublicParams, copyOver_eq] at h
  split_ifs at h with hle
  · obtain rfl := done.inj h
    simp only [List.length_append, List.length_drop]
    omega
  · cases h

theorem transfers_iff (s : State) (params : List SsPair) :
    Transfers s params ↔ params.length ≤ s.publicParams.length := by
  simp only [Transfers, initPublicParams, copyOver_eq]
  split_ifs with hle
  · exact iff_of_true ⟨_, rfl, List.sublist_append_left _ _⟩ hle
  · exact iff_of_false (fun ⟨s', h, _⟩ => nomatch h) hle

theorem pbparams_eq_nil (params : PingbackParam) : pbparams params = [] := by
  cases h : params.p <;> simp [pbparams, getValue, h]

theorem collects_iff (params : PingbackParam) : Collects params ↔ params.p = none := by
  simp [Collects, pbparams_eq_nil, Option.eq_none_iff_forall_not_mem]

/-- The given pairs are stored exactly when no more of them are given than there are stored
ones, and the field `p` is passed on exactly when it is null. -/
theorem params_kept_iff (s : State) (params : List SsPair) (fields : PingbackParam) :
    (Transfers s params ↔ params.length ≤ s.publicParams.length) ∧
      (Collects fields ↔ fields.p = none) :=
  ⟨transfers_iff s params, collects_iff fields⟩

/-- No pair and no field gets into a new `Pingback`. -/
theorem params_not_kept : ¬ Transfers .new [(ascii "p", ascii "1")] ∧
    ¬ Collects ⟨some (ascii "1")⟩ :=
  ⟨fun h => absurd ((transfers_iff _ _).mp h) (by decide),
    fun h => absurd ((collects_iff _).mp h) (by decide)⟩

/-- The calls of `init_qyutil` and `init_public_params` made so far have all come back. -/
inductive Run : State → Prop

  | fresh : Run .new

  | fields {s s' : State} {params : PingbackParam} : Run s →
      initQyutil s params = done s' → Run s'

  | pairs {s s' : State} {params : List SsPair} : Run s →
      initPublicParams s params = done s' → Run s'

/-- In every run the stored list stays empty, and only an empty list can be transferred. -/
theorem Run.publicParams_eq_nil (h : Run s) :
    s.publicParams = [] ∧ ∀ params, Transfers s params ↔ params = [] := by
  have hnil : s.publicParams = [] := by
    induction h with
    | fresh => rfl
    | fields _ hinit ih =>
      rw [← List.length_eq_zero_iff, length_initPublicParams hinit, ih, List.length_nil]
    | pairs _ hinit ih =>
      rw [← List.length_eq_zero_iff, length_initPublicParams hinit, ih, List.length_nil]
  refine ⟨hnil, fun params => ?_⟩
  rw [transfers_iff, hnil, List.length_nil, Nat.le_zero, List.length_eq_zero_iff]

end QyUtil.Pingback
