import Mathlib.Tactic

/-!
# Runs of a step function

A run takes one step per input and stops at the first error.  `EachStep` states
a condition on every step of a run, read in the state the step is taken from.
-/

namespace MoacVnode.Lib

universe u v w

open List

variable {σ : Type u} {ι : Type v} {ε : Type w} {res : Except ε σ} {state next last mid : σ}
  {input : ι} {inputs prior later : List ι}

instance decidableEqError [DecidableEq ε] (error : ε) :
    (res : Except ε σ) → Decidable (res = .error error)
  | .error other => decidable_of_iff (other = error) (by simp)
  | .ok _ => .isFalse (by simp)

instance decidableExistsOk (post : σ → Prop) [DecidablePred post] :
    (res : Except ε σ) → Decidable (∃ state, res = .ok state ∧ post state)
  | .error _ => .isFalse (by simp)
  | .ok state => decidable_of_iff (post state) (by simp)

theorem ok_of_isOk (other : σ) (ok : res.isOk = true) : res = .ok (res.toOption.getD other) := by
  cases res with
  | error => cases ok
  | ok state => rfl

theorem exists_ok_of {post : σ → Prop} (facts : σ → Prop)
    (computed : ∃ state, res = .ok state ∧ facts state)
    (implied : ∀ state, res = .ok state → facts state → post state) :
    ∃ state, res = .ok state ∧ post state := by
  obtain ⟨state, isState, holds⟩ := computed
  exact ⟨state, isState, implied state isState holds⟩

theorem ite_error_eq_ok {check : Prop} [Decidable check] {error : ε} {val : σ} :
    (if check then .error error else res) = .ok val ↔ ¬ check ∧ res = .ok val := by
  by_cases failed : check
  · simp [failed]
  · simp [failed]

theorem bind_some_iff {α β : Type u} {first : Option α} {rest : α → Option β} {val : β} :
    first >>= rest = some val ↔ ∃ a, first = some a ∧ rest a = some val :=
  Option.bind_eq_some_iff

def run (step : σ → ι → Except ε σ) : σ → List ι → Except ε σ
  | state, [] => .ok state
  | state, input :: inputs =>
    match step state input with
    | .error error => .error error
    | .ok next => run step next inputs

/-- Every step of the run meets a condition in the state it is taken from. -/
def EachStep (step : σ → ι → Except ε σ) (meets : σ → ι → Prop) : σ → List ι → Prop
  | _, [] => True
  | state, input :: inputs =>
    meets state input ∧
      match step state input with
      | .error _ => True
      | .ok next => EachStep step meets next inputs

variable {step : σ → ι → Except ε σ} {meets : σ → ι → Prop}

instance EachStep.decidable [∀ state input, Decidable (meets state input)] :
    (state : σ) → (inputs : List ι) → Decidable (EachStep step meets state inputs)
  | _, [] => inferInstanceAs (Decidable True)
  | state, input :: inputs =>
    @instDecidableAnd _ _ _ <|
      match step state input with
      | .error _ => inferInstanceAs (Decidable True)
      | .ok next => EachStep.decidable next inputs

@[simp]
theorem run_nil (state : σ) : run step state [] = .ok state := rfl

theorem run_cons_of_ok (inputs : List ι) (taken : step state input = .ok next) :
    run step state (input :: inputs) = run step next inputs := by
  simp only [run, taken]

theorem eachStep_cons_of_ok (taken : step state input = .ok next) :
    EachStep step meets state (input :: inputs) ↔
      meets state input ∧ EachStep step meets next inputs := by
  simp only [EachStep, taken]

theorem run_cons_eq_ok :
    run step state (input :: inputs) = .ok last ↔
      ∃ next, step state input = .ok next ∧ run step next inputs = .ok last := by
  cases taken : step state input with
  | error error | ok next => simp [run, taken]

theorem run_append_of_ok (later : List ι) (ran : run step state prior = .ok mid) :
    run step state (prior ++ later) = run step mid later := by
  induction prior generalizing state with
  | nil =>
    cases ran
    rfl
  | cons input inputs ih =>
    obtain ⟨next, taken, rest⟩ := run_cons_eq_ok.mp ran
    rw [cons_append, run_cons_of_ok _ taken]
    exact ih rest

theorem run_append_eq_ok :
    run step state (prior ++ later) = .ok last ↔
      ∃ mid, run step state prior = .ok mid ∧ run step mid later = .ok last := by
  induction prior generalizing state with
  | nil => simp
  | cons input inputs ih =>
    cases taken : step state input with
    | error error => simp [run, taken]
    | ok next => simpa only [cons_append, run_cons_of_ok _ taken] using ih

theorem eachStep_append (conds : EachStep step meets state (prior ++ later))
    (ran : run step state prior = .ok mid) :
    EachStep step meets state prior ∧ EachStep step meets mid later := by
  induction prior generalizing state with
  | nil =>
    cases ran
    exact ⟨trivial, conds⟩
  | cons input inputs ih =>
    obtain ⟨next, taken, rest⟩ := run_cons_eq_ok.mp ran
    obtain ⟨met, conditionsNext⟩ := (eachStep_cons_of_ok taken).mp conds
    obtain ⟨first, second⟩ := ih conditionsNext rest
    exact ⟨(eachStep_cons_of_ok taken).mpr ⟨met, first⟩, second⟩

section

variable (inv : σ → Prop)

include inv

theorem run_invariant
    (keeps : ∀ {state input next}, inv state → meets state input → step state input = .ok
      next → inv next) (start : inv state)
    (conds : EachStep step meets state inputs) (ran : run step state inputs = .ok last) :
    inv last := by
  induction inputs generalizing state with
  | nil =>
    cases ran
    exact start
  | cons input inputs ih =>
    obtain ⟨next, taken, rest⟩ := run_cons_eq_ok.mp ran
    obtain ⟨met, later⟩ := (eachStep_cons_of_ok taken).mp conds
    exact ih (keeps start met taken) later rest

theorem run_keeps_of_mem
    (keeps : ∀ {state input next}, input ∈ inputs → inv state → step state input = .ok next →
      inv next) (start : inv state) (ran : run step state inputs = .ok last) :
    inv last := by
  induction inputs generalizing state with
  | nil =>
    cases ran
    exact start
  | cons input inputs ih =>
    obtain ⟨next, taken, rest⟩ := run_cons_eq_ok.mp ran
    exact ih (fun mem => keeps (mem_cons_of_mem input mem)) (keeps mem_cons_self start taken) rest

theorem run_keeps (keeps : ∀ {state input next}, inv state → step state input = .ok next → inv next)
    (start : inv state) (ran : run step state inputs = .ok last) : inv last :=
  run_keeps_of_mem inv (fun _ => keeps) start ran

theorem run_total
    (returns : ∀ {state input}, inv state → meets state input → ∃ next, step state input =
      .ok next ∧ inv next) (start : inv state)
    (conds : EachStep step meets state inputs) :
    ∃ last, run step state inputs = .ok last ∧ inv last := by
  induction inputs generalizing state with
  | nil => exact ⟨state, rfl, start⟩
  | cons input inputs ih =>
    obtain ⟨next, taken, kept⟩ := returns start conds.1
    rw [run_cons_of_ok _ taken]
    exact ih kept ((eachStep_cons_of_ok taken).mp conds).2

end

theorem run_simulation {τ : Type u} (step : σ → ι → Except ε σ) (other : τ → ι → Except ε τ)
    (related : σ → τ → Prop)
    (keeps : ∀ {left right input}, related left right → meets left input → ∃ left' right', step
      left input = .ok left' ∧ other right input = .ok right' ∧ related left' right') {left : σ}
    {right : τ} (start : related left right) (conds : EachStep step meets left inputs) :
    ∃ left' right', run step left inputs = .ok left' ∧
      run other right inputs = .ok right' ∧ related left' right' := by
  induction inputs generalizing left right with
  | nil => exact ⟨left, right, rfl, rfl, start⟩
  | cons input inputs ih =>
    obtain ⟨leftNext, rightNext, leftTaken, rightTaken, next⟩ := keeps start conds.1
    rw [run_cons_of_ok _ leftTaken, run_cons_of_ok _ rightTaken]
    exact ih next ((eachStep_cons_of_ok leftTaken).mp conds).2

theorem eachStep_of_forall (always : ∀ state input, meets state input) (state : σ)
    (inputs : List ι) : EachStep step meets state inputs := by
  induction inputs generalizing state with
  | nil => trivial
  | cons input inputs ih =>
    refine ⟨always state input, ?_⟩
    split
    · trivial
    · exact ih _

theorem run_pointwise {κ : Type v} {ν : Type w} [DecidableEq κ] {step : σ → κ → Except ε σ}
    (view : σ → κ → ν) (before after : ν → Prop)
    (changes : ∀ {state key next}, before (view state key) → step state key = .ok next → ∃ val,
      view next = Function.update (view state) key val ∧ after val) {keys : List κ}
    (distinct : keys.Nodup) (start : ∀ key ∈ keys, before (view state key))
    (ran : run step state keys = .ok last) (key : κ) :
    (key ∈ keys → after (view last key)) ∧ (key ∉ keys → view last key = view state key) := by
  induction keys generalizing state with
  | nil =>
    cases ran
    exact ⟨fun mem => (nomatch mem), fun _ => rfl⟩
  | cons first keys ih =>
    obtain ⟨notAgain, restDistinct⟩ := nodup_cons.mp distinct
    obtain ⟨next, taken, rest⟩ := run_cons_eq_ok.mp ran
    obtain ⟨val, changed, met⟩ := changes (start first mem_cons_self) taken
    have unchanged {other : κ} (ne : other ≠ first) : view next other = view state other := by
      rw [changed, Function.update_of_ne ne]
    have restStart (other : κ) (mem : other ∈ keys) : before (view next other) := by
      rw [unchanged fun same => notAgain (same ▸ mem)]
      exact start other (mem_cons_of_mem first mem)
    obtain ⟨inRest, notInRest⟩ := ih restDistinct restStart rest
    constructor
    · intro mem
      rcases mem_cons.mp mem with rfl | mem
      · rw [notInRest notAgain, changed, Function.update_self]
        exact met
      · exact inRest mem
    · intro notMember
      rw [notInRest fun mem => notMember (mem_cons_of_mem first mem),
        unchanged fun same => notMember (same ▸ mem_cons_self)]

/-- Every step of a fold meets a condition in the state it is taken from. -/
def EachFold (fold : σ → ι → σ) (meets : σ → ι → Prop) : σ → List ι → Prop
  | _, [] => True
  | state, input :: inputs => meets state input ∧ EachFold fold meets (fold state input) inputs

variable {fold : σ → ι → σ}

instance EachFold.decidable [∀ state input, Decidable (meets state input)] :
    (state : σ) → (inputs : List ι) → Decidable (EachFold fold meets state inputs)
  | _, [] => inferInstanceAs (Decidable True)
  | state, input :: inputs => @instDecidableAnd _ _ _ (EachFold.decidable (fold state input) inputs)

theorem eachFold_of_forall (always : ∀ state input, meets state input) (state : σ)
    (inputs : List ι) : EachFold fold meets state inputs := by
  induction inputs generalizing state with
  | nil => trivial
  | cons input inputs ih => exact ⟨always state input, ih _⟩

theorem eachFold_append :
    EachFold fold meets state (prior ++ later) ↔
      EachFold fold meets state prior ∧ EachFold fold meets (prior.foldl fold state) later := by
  induction prior generalizing state with
  | nil => exact (true_and _).to_iff.symm
  | cons input inputs ih => exact (and_congr_right fun _ => ih).trans and_assoc.symm

theorem foldl_invariant (inv : σ → Prop)
    (keeps : ∀ {state input}, inv state → meets state input → inv (fold state input))
    (start : inv state) (conds : EachFold fold meets state inputs) :
    inv (inputs.foldl fold state) := by
  induction inputs generalizing state with
  | nil => exact start
  | cons input inputs ih => exact ih (keeps start conds.1) conds.2

end MoacVnode.Lib
