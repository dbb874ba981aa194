import Mathlib.Data.List.Basic
import Mathlib.Tactic.Common

/-!
Owns the choice among slots that are offered one after the other: each has a place and
an amount that is left over. The best fit keeps the slot with the least left over so far,
the first of several, and takes a slot at once when nothing is left over.
-/

namespace NetBSD.Machine

open List Option

/-- A place, and what is left over when it is taken. -/
structure Offer (α : Type*) where
  place : α
  left : Nat

section BestFit

variable {α : Type*} {best slot other : Offer α} {slots : List (Offer α)} {place : α}

def Offer.keep (best : Option (Offer α)) (slot : Offer α) : Offer α :=
  match best with
  | none => slot
  | some best => if slot.left < best.left then slot else best

def bestFit : Option (Offer α) → List (Offer α) → Option α
  | best, [] => best.map Offer.place
  | best, slot :: rest =>
    if slot.left = 0 then some slot.place else bestFit (some (slot.keep best)) rest

theorem bestFit_some : ∃ plc, bestFit (some best) slots = some plc := by
  induction slots generalizing best with
  | nil => exact ⟨best.place, rfl⟩
  | cons slot tl ih =>
    unfold bestFit
    split
    · exact ⟨slot.place, rfl⟩
    · exact ih

theorem bestFit_eq_none_iff : bestFit none slots = none ↔ slots = [] := by
  cases slots with
  | nil => exact iff_of_true rfl rfl
  | cons slot tl =>
    refine iff_of_false ?_ (cons_ne_nil slot tl)
    unfold bestFit
    split
    · exact some_ne_none _
    · obtain ⟨plc, at'⟩ := @bestFit_some _ (slot.keep none) tl
      rw [at']
      exact some_ne_none _

/-- The slot chosen leaves the least. -/
theorem bestFit_least (fnd : bestFit (some best) slots = some place) :
    ∃ slot ∈ best :: slots, slot.place = place ∧ ∀ other ∈ best :: slots, slot.left ≤ other.left := by
  induction slots generalizing best with
  | nil =>
    refine ⟨best, mem_cons_self, some.inj fnd, fun other isIn => ?_⟩
    exact Nat.le_of_eq (congrArg Offer.left (mem_singleton.mp isIn).symm)
  | cons slot tl ih =>
    unfold bestFit at fnd
    split at fnd
    · rename_i exact_
      refine ⟨slot, mem_cons_of_mem best mem_cons_self, some.inj fnd, ?_⟩
      intro other _
      rw [exact_]
      exact Nat.zero_le _
    obtain ⟨taken, isIn, at', least⟩ := ih fnd
    -- the one kept is one of both, and no worse than either
    have kept : slot.keep (some best) ∈ [best, slot] ∧ (slot.keep (some best)).left ≤ best.left ∧
          (slot.keep (some best)).left ≤ slot.left := by
      unfold Offer.keep
      dsimp only
      split
      · exact ⟨mem_cons_of_mem _ mem_cons_self, by omega, Nat.le_refl _⟩
      · exact ⟨mem_cons_self, Nat.le_refl _, by omega⟩
    have fst := least _ mem_cons_self
    refine ⟨taken, ?_, at', fun other oth => ?_⟩
    · cases mem_cons.mp isIn with
      | inl isKept =>
        rw [isKept]
        exact mem_append_left tl kept.1
      | inr mem => exact mem_append_right [best, slot] mem
    cases mem_cons.mp oth with
    | inl isBest =>
      rw [isBest]
      exact Nat.le_trans fst kept.2.1
    | inr later =>
      cases mem_cons.mp later with
      | inl isSlot =>
        rw [isSlot]
        exact Nat.le_trans fst kept.2.2
      | inr mem => exact least other (mem_cons_of_mem _ mem)

theorem bestFit_spec (fnd : bestFit none slots = some place) :
    ∃ slot ∈ slots, slot.place = place ∧ ∀ other ∈ slots, slot.left ≤ other.left := by
  cases slots with
  | nil => cases fnd
  | cons slot tl =>
    unfold bestFit at fnd
    split at fnd
    · rename_i exact_
      refine ⟨slot, mem_cons_self, some.inj fnd, fun other _ => ?_⟩
      rw [exact_]
      exact Nat.zero_le _
    · exact bestFit_least fnd

end BestFit

end NetBSD.Machine
