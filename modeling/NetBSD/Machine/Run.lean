import Mathlib.Algebra.BigOperators.Group.List.Basic
import Mathlib.Algebra.Order.Ring.Int
import Mathlib.Algebra.Order.Ring.Nat

/-!
Owns deterministic machines: a step function that either moves to a next state
or stops with a result, its fuel-indexed run, and the list of states a run
visits. The rules at the end are the only way the later modules reason about
loops: an invariant over the history of a run, and a measure that bounds the
number of steps. Nothing here names a program.
-/

namespace NetBSD.Machine

universe u v

inductive Step (σ : Type u) (ρ : Type v) where
  | next (state : σ)
  | done (result : ρ)
deriving DecidableEq, Repr

variable {fuel : Nat}

section Run

variable {σ : Type u} {ρ : Type v} (step : σ → Step σ ρ)

def run : Nat → σ → Option ρ
  | 0, _ => none
  | fuel + 1, state =>
    match step state with
    | .next after => run fuel after
    | .done result => some result

def visited : Nat → σ → List σ
  | 0, _ => []
  | fuel + 1, state =>
    state :: match step state with
      | .next after => visited fuel after
      | .done _ => []

variable {step}

variable {st : σ}

theorem run_next {s' : σ} (moves : step st = .next s') :
    run step (fuel + 1) st = run step fuel s' := by
  simp [run, moves]

theorem run_done {res : ρ} (stops : step st = .done res) :
    run step (fuel + 1) st = some res := by
  simp [run, stops]

theorem run_mono {more : Nat} {res : ρ} (fin : run step fuel st = some res)
    (suff : fuel ≤ more) : run step more st = some res := by
  induction fuel generalizing st more with
  | zero => simp [run] at fin
  | succ fuel ih =>
    obtain ⟨more, rfl⟩ : ∃ tl, more = tl + 1 := ⟨more - 1, by omega⟩
    cases taken : step st with
    | next s' =>
      rw [run_next taken] at fin ⊢
      exact ih fin (by omega)
    | done v =>
      rw [run_done taken] at fin ⊢
      exact fin

/-- A measure that every step from an invariant state decreases bounds the
run: the fuel `measure state + 1` always suffices. -/
theorem run_of_measure (invariant : σ → Prop) (meas : σ → Nat) (post : ρ → Prop)
    (preserves : ∀ st s', invariant st → step st = .next s' →
      invariant s' ∧ meas s' < meas st)
    (stops : ∀ st res, invariant st → step st = .done res → post res) (holds : invariant st)
    (suff : meas st < fuel) :
    ∃ res, run step fuel st = some res ∧ post res := by
  induction fuel generalizing st with
  | zero => omega
  | succ fuel ih =>
    cases taken : step st with
    | next s' =>
      obtain ⟨afterHolds, lt⟩ := preserves st s' holds taken
      rw [run_next taken]
      exact ih afterHolds (by omega)
    | done res =>
      exact ⟨res, run_done taken, stops st res holds taken⟩

/-- History rule. `invariant history state` speaks about the states visited so
far, most recent first; a step pushes the state it leaves. -/
theorem visited_history (invariant : List σ → σ → Prop)
    (preserves : ∀ history st s', invariant history st →
      step st = .next s' → invariant (st :: history) s') {history : List σ} (holds : invariant history st)
    {old later : List σ} {current : σ}
    (split : visited step fuel st = old ++ current :: later) :
    invariant (old.reverse ++ history) current := by
  induction fuel generalizing st history old with
  | zero => simp [visited] at split
  | succ fuel ih =>
    cases old with
    | nil =>
      simp only [visited, List.nil_append, List.cons.injEq] at split
      simpa [← split.1] using holds
    | cons fst tl =>
      simp only [visited, List.cons_append, List.cons.injEq] at split
      obtain ⟨rfl, tail⟩ := split
      cases taken : step st with
      | next s' =>
        rw [taken] at tail
        have shd := ih (preserves history st s' holds taken) tail
        simpa using shd
      | done res => simp [taken] at tail

end Run

/-- Lock-step rule: two machines whose related states stop together with
related results, or move together to related states, return related results
with the same fuel. -/
theorem run_lockstep {σ τ : Type u} {ρ ς : Type v} {left : σ → Step σ ρ} {right : τ → Step τ ς}
    (related : σ → τ → Prop) (post : ρ → ς → Prop)
    (together : ∀ s t, related s t →
      (∃ s' t', left s = .next s' ∧ right t = .next t' ∧ related s' t') ∨
      (∃ r r', left s = .done r ∧ right t = .done r' ∧ post r r'))
    {s : σ} {t : τ} {res : ρ} (holds : related s t)
    (fin : run left fuel s = some res) :
    ∃ result', run right fuel t = some result' ∧ post res result' := by
  induction fuel generalizing s t with
  | zero => simp [run] at fin
  | succ fuel ih =>
    rcases together s t holds with ⟨s', t', leftMoves, rightMoves, holds'⟩ |
      ⟨r, r', leftStops, rightStops, same⟩
    · rw [run_next leftMoves] at fin
      rw [run_next rightMoves]
      exact ih holds' fin
    · rw [run_done leftStops] at fin
      rw [run_done rightStops]
      obtain rfl := Option.some.inj fin
      exact ⟨r', rfl, same⟩

end NetBSD.Machine
