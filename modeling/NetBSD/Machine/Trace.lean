import Mathlib.Data.List.Basic
import Mathlib.Data.List.Infix
import Mathlib.Data.List.Forall2

/-!
Owns machines that consume one input per step and may get stuck. A property of
every state along a trace is proved from one step at a time; when each step
keeps it exactly under a condition on the state before and the input, the
whole trace keeps it exactly when every step meets the condition.
-/

namespace NetBSD.Machine

open List Option

universe u v

section Trace

variable {σ : Type u} {ι : Type v} (step : σ → ι → Option σ)

def consume : List ι → σ → Option σ
  | [], state => some state
  | input :: rest, state => (step state input).bind (consume rest)

variable {step} in
theorem consume_append (pre back : List ι) (st : σ) :
    consume step (pre ++ back) st = (consume step pre st).bind (consume step back) := by
  induction pre generalizing st with
  | nil => rfl
  | cons head tl ih =>
    rw [cons_append, consume, consume, bind_assoc]
    exact congrArg _ (funext ih)

def AllFine (fine : σ → ι → Prop) : List ι → σ → Prop
  | [], _ => True
  | input :: rest, state =>
    fine state input ∧ ∀ after, step state input = some after → AllFine fine rest after

instance AllFine.decidable {fine : σ → ι → Prop} [∀ state input, Decidable (fine state input)] :
    (inputs : List ι) → (state : σ) → Decidable (AllFine step fine inputs state)
  | [], _ => isTrue trivial
  | input :: rest, state =>
    have : ∀ after, Decidable (AllFine step fine rest after) := AllFine.decidable rest
    inferInstanceAs (Decidable (fine state input ∧ ∀ after ∈ step state input,
      AllFine step fine rest after))

variable {step} in
theorem AllFine.cons {fine : σ → ι → Prop} {inputs : List ι} {input : ι} {st s' : σ}
    (isFine : fine st input) (moved : step st input = some s')
    (tl : AllFine step fine inputs s') : AllFine step fine (input :: inputs) st := by
  refine ⟨isFine, fun oth same => ?_⟩
  obtain rfl := some.inj (moved.symm.trans same)
  exact tl

variable {step} in
theorem AllFine.along {fine : σ → ι → Prop} {inputs front : List ι} {input : ι}
    {st got : σ} (allFine : AllFine step fine inputs st)
    (pre : front ++ [input] <+: inputs) (eaten : consume step front st = some got) :
    fine got input := by
  induction front generalizing inputs st with
  | nil =>
    obtain ⟨tl, rfl⟩ := pre
    obtain rfl := some.inj eaten
    exact allFine.1
  | cons head front ih =>
    obtain ⟨tl, rfl⟩ := pre
    obtain ⟨s', moved, eaten⟩ := bind_eq_some_iff.mp eaten
    exact ih (allFine.2 s' moved) (prefix_append _ tl) eaten

section

variable (invariant : σ → Prop) (fine : σ → ι → Prop)

include invariant fine

/-- The invariant holds wherever a trace leads whose steps all meet their condition; a step may get
stuck. -/
theorem consume_safe (preserves : ∀ st input s', invariant st → fine st input →
      step st input = some s' → invariant s')
    (inputs : List ι) {st got : σ} (holds : invariant st)
    (allFine : ∀ front input, front ++ [input] <+: inputs →
      ∀ got, consume step front st = some got → fine got input)
    (eaten : consume step inputs st = some got) : invariant got := by
  induction inputs generalizing st with
  | nil =>
    obtain rfl := some.inj eaten
    exact holds
  | cons head tl ih =>
    obtain ⟨s', moved, restConsumed⟩ := bind_eq_some_iff.mp eaten
    have kept := preserves st head s' holds (allFine [] head (by simp) st rfl) moved
    refine ih kept ?_ restConsumed
    intro front input pre mid isBetween
    apply allFine (head :: front) input (by simpa using pre)
    simpa [consume, moved] using isBetween

/-- Along a trace whose steps all meet their condition the invariant holds and no step gets
stuck. -/
theorem consume_invariant (preserves : ∀ st input, invariant st → fine st input →
      ∃ s', step st input = some s' ∧ invariant s')
    (inputs : List ι) {st : σ} (holds : invariant st)
    (allFine : ∀ front input, front ++ [input] <+: inputs →
      ∀ got, consume step front st = some got → fine got input) :
    ∃ got, consume step inputs st = some got ∧ invariant got := by
  induction inputs generalizing st with
  | nil => exact ⟨st, rfl, holds⟩
  | cons head tl ih =>
    obtain ⟨s', moved, kept⟩ :=
      preserves st head holds (allFine [] head (by simp) st rfl)
    have tail := ih kept (by
      intro front input pre got eaten
      apply allFine (head :: front) input (by simpa using pre)
      simpa [consume, moved] using eaten)
    simpa [consume, moved] using tail

/-- Along a trace the invariant holds in every state exactly when every step
meets its condition. -/
theorem consume_invariant_iff (stepIff : ∀ st input, invariant st →
      ((∃ s', step st input = some s' ∧ invariant s') ↔ fine st input))
    (inputs : List ι) {st : σ} (holds : invariant st) :
    (∀ front, front <+: inputs →
      ∃ got, consume step front st = some got ∧ invariant got) ↔
    ∀ front input, front ++ [input] <+: inputs →
      ∀ got, consume step front st = some got → fine got input := by
  induction inputs generalizing st with
  | nil =>
    constructor
    · intro _ front input pre
      simp at pre
    · intro _ front pre
      obtain rfl := prefix_nil.mp pre
      exact ⟨st, rfl, holds⟩
  | cons head tl ih =>
    constructor
    · intro path
      obtain ⟨s', moved, kept⟩ : ∃ s', step st head = some s' ∧ invariant s' := by
        obtain ⟨s', eaten, kept⟩ := path [head] (by simp)
        exact ⟨s', by simpa [consume] using eaten, kept⟩
      have tail := (ih kept).mp (fun front pre => by
        simpa [consume, moved] using path (head :: front) (by simpa using pre))
      intro front input pre got eaten
      cases front with
      | nil =>
        obtain rfl : input = head := by simpa using pre
        obtain rfl : st = got := by simpa [consume] using eaten
        exact (stepIff st input holds).mp ⟨s', moved, kept⟩
      | cons fst front =>
        simp only [cons_append, cons_prefix_cons] at pre
        obtain ⟨rfl, pre⟩ := pre
        exact tail front input pre got (by simpa [consume, moved] using eaten)
    · intro fine front pre
      cases front with
      | nil => exact ⟨st, rfl, holds⟩
      | cons fst front =>
        simp only [cons_prefix_cons] at pre
        obtain ⟨rfl, pre⟩ := pre
        obtain ⟨s', moved, kept⟩ :=
          (stepIff st fst holds).mpr (fine [] fst (by simp) st rfl)
        have tail := (ih kept).mpr (by
          intro front input pre got eaten
          apply fine (fst :: front) input (by simpa using pre)
          simpa [consume, moved] using eaten)
        simpa [consume, moved] using tail front pre

end

end Trace

/-!
### Machines that answer

Machines that answer every input, and what it means that one that may get
stuck does as a specification says: related states stay related, no step gets
stuck, and the answers agree one by one.
-/

section Produce

variable {σ τ ο ς : Type u} {ι : Type v}

def produce (step : σ → ι → Option (σ × ο)) : List ι → σ → Option (σ × List ο)
  | [], state => some (state, [])
  | input :: rest, state =>
    (step state input).bind fun (after, answer) =>
      (produce step rest after).map fun (reached, answers) => (reached, answer :: answers)

def answers (spec : τ → ι → τ × ς) : List ι → τ → τ × List ς
  | [], state => (state, [])
  | input :: rest, state =>
    let (after, answer) := spec state input
    let (reached, later) := answers spec rest after
    (reached, answer :: later)

/-- A run whose steps all meet a condition does as the specification says, where such a step does.
-/
theorem produce_simulates_of {step : σ → ι → Option (σ × ο)} {spec : τ → ι → τ × ς}
    (related : σ → τ → Prop) (agree : ο → ς → Prop) (fine : σ → ι → Prop)
    (simulates : ∀ st ideal input, related st ideal → fine st input →
      ∃ s' ans, step st input = some (s', ans) ∧
        related s' (spec ideal input).1 ∧ agree ans (spec ideal input).2)
    (inputs : List ι) {st : σ} {ideal : τ} (beg : related st ideal)
    (allFine : ∀ front input, front ++ [input] <+: inputs →
      ∀ got given, produce step front st = some (got, given) → fine got input) :
    ∃ got given, produce step inputs st = some (got, given) ∧
      related got (answers spec inputs ideal).1 ∧
      List.Forall₂ agree given (answers spec inputs ideal).2 := by
  induction inputs generalizing st ideal with
  | nil => exact ⟨st, [], rfl, beg, .nil⟩
  | cons input tl ih =>
    obtain ⟨s', ans, moved, stays, fst⟩ :=
      simulates st ideal input beg (allFine [] input (by simp) st [] rfl)
    obtain ⟨got, given, produced, ends, later⟩ := ih stays (by
      intro front last pre got given produced
      apply allFine (input :: front) last (by simpa using pre) got (ans :: given)
      simp [produce, moved, produced])
    refine ⟨got, ans :: given, ?_, ends, .cons fst later⟩
    simp [produce, moved, produced]

theorem produce_simulates {step : σ → ι → Option (σ × ο)} {spec : τ → ι → τ × ς}
    (related : σ → τ → Prop) (agree : ο → ς → Prop)
    (simulates : ∀ st ideal input, related st ideal →
      ∃ s' ans, step st input = some (s', ans) ∧
        related s' (spec ideal input).1 ∧ agree ans (spec ideal input).2)
    (inputs : List ι) {st : σ} {ideal : τ} (beg : related st ideal) :
    ∃ got given, produce step inputs st = some (got, given) ∧
      related got (answers spec inputs ideal).1 ∧
      List.Forall₂ agree given (answers spec inputs ideal).2 :=
  produce_simulates_of related agree (fun _ _ => True)
    (fun st ideal input holds _ => simulates st ideal input holds) inputs beg
    fun _ _ _ _ _ _ => trivial

end Produce

end NetBSD.Machine
