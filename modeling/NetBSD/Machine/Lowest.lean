import Mathlib.Logic.Function.Basic
import Mathlib.Tactic.Common

/-!
Owns the lowest index below a bound that has a property, as a record of it is
kept while the property changes at one index or the bound moves.
-/

namespace NetBSD.Machine

def IsLowest (P : Nat → Prop) (bound : Nat) : Option Nat → Prop
  | none => ∀ i < bound, ¬ P i
  | some low => low < bound ∧ P low ∧ ∀ i < low, ¬ P i

/-- The record when an index gains the property. -/
def lowered (index : Nat) : Option Nat → Option Nat
  | none => some index
  | some low => if index < low then some index else some low

section Lowest

variable {P Q : Nat → Prop} {bound index : Nat} {rcd : Option Nat}

theorem IsLowest.congr (lowest : IsLowest P bound rcd) (same : ∀ i < bound, (Q i ↔ P i)) :
    IsLowest Q bound rcd := by
  cases rcd with
  | none => exact fun i below holds => lowest i below ((same i below).mp holds)
  | some low =>
    obtain ⟨below, holds, fst⟩ := lowest
    exact ⟨below, (same low below).mpr holds, fun i old isQ =>
      fst i old ((same i (Nat.lt_trans old below)).mp isQ)⟩

theorem IsLowest.next [DecidablePred Q] (lowest : IsLowest P bound (some index))
    (lost : ¬ Q index) (same : ∀ i, i ≠ index → (Q i ↔ P i)) :
    IsLowest Q bound
      ((List.range' (index + 1) (bound - (index + 1))).find? fun i => decide (Q i)) := by
  obtain ⟨below, _, fst⟩ := lowest
  have prev : ∀ i ≤ index, ¬ Q i := by
    intro i upTo isQ
    by_cases here : i = index
    · exact lost (here ▸ isQ)
    · exact fst i (by omega) ((same i here).mp isQ)
  cases searched : (List.range' (index + 1) (bound - (index + 1))).find? fun i => decide (Q i) with
  | none =>
    intro i lt isQ
    rw [List.find?_eq_none] at searched
    by_cases later : index < i
    · exact searched i (List.mem_range'_1.mpr (by omega)) (decide_eq_true isQ)
    · exact prev i (by omega) isQ
  | some low =>
    rw [List.find?_range'_eq_some] at searched
    obtain ⟨isQ, lt, no⟩ := searched
    have range := List.mem_range'_1.mp lt
    refine ⟨by omega, of_decide_eq_true isQ, fun i old holds => ?_⟩
    by_cases later : index < i
    · have past := no i (by omega) old
      rw [decide_eq_true holds] at past
      cases past
    · exact prev i (by omega) holds

section

variable (lowest : IsLowest P bound rcd)

include lowest

theorem IsLowest.lose (oth : rcd ≠ some index)
    (lost : ¬ Q index) (same : ∀ i, i ≠ index → (Q i ↔ P i)) : IsLowest Q bound rcd := by
  cases rcd with
  | none =>
    intro i below isQ
    by_cases here : i = index
    · exact lost (here ▸ isQ)
    · exact lowest i below ((same i here).mp isQ)
  | some low =>
    obtain ⟨below, holds, fst⟩ := lowest
    refine ⟨below, (same low fun here => oth (congrArg some here)).mpr holds, ?_⟩
    intro i old isQ
    by_cases here : i = index
    · exact lost (here ▸ isQ)
    · exact fst i old ((same i here).mp isQ)

theorem IsLowest.gain (lt : index < bound)
    (gained : Q index) (same : ∀ i, i ≠ index → (Q i ↔ P i)) :
    IsLowest Q bound (lowered index rcd) := by
  cases rcd with
  | none =>
    refine ⟨lt, gained, fun i old isQ => ?_⟩
    exact lowest i (by omega) ((same i (by omega)).mp isQ)
  | some low =>
    obtain ⟨below, holds, fst⟩ := lowest
    unfold lowered
    by_cases lower : index < low
    · simp only [if_pos lower]
      refine ⟨lt, gained, fun i old isQ => ?_⟩
      exact fst i (by omega) ((same i (by omega)).mp isQ)
    · simp only [if_neg lower]
      refine ⟨below, ?_, fun i old isQ => fst i old ((same i (by omega)).mp isQ)⟩
      by_cases here : low = index
      · rwa [here]
      · exact (same low here).mpr holds

theorem IsLowest.extend :
    (¬ P bound → IsLowest P (bound + 1) rcd) ∧
      (P bound → IsLowest P (bound + 1) (if rcd = none then some bound else rcd)) := by
  cases rcd with
  | none =>
    constructor
    · intro notP i below holds
      by_cases last : i = bound
      · exact notP (last ▸ holds)
      · exact lowest i (by omega) holds
    · exact fun isP => ⟨Nat.lt_succ_self bound, isP, lowest⟩
  | some low =>
    obtain ⟨below, holds, fst⟩ := lowest
    exact ⟨fun _ => ⟨Nat.lt_succ_of_lt below, holds, fst⟩,
      fun _ => ⟨Nat.lt_succ_of_lt below, holds, fst⟩⟩

/-- The bound moves down, over indices without the property or to the record and below. -/
theorem IsLowest.shrink {lower : Nat} (down : lower ≤ bound) :
    ((∀ low, rcd = some low → low < lower) → IsLowest P lower rcd) ∧
      ((∀ low, rcd = some low → lower ≤ low) → IsLowest P lower none) := by
  cases rcd with
  | none => exact ⟨fun _ i below => lowest i (by omega), fun _ i below => lowest i (by omega)⟩
  | some low =>
    obtain ⟨below, holds, fst⟩ := lowest
    refine ⟨fun lt => ⟨lt low rfl, holds, fst⟩, fun beyond i lt => ?_⟩
    have cut := beyond low rfl
    exact fst i (by omega)

end

end Lowest

end NetBSD.Machine
