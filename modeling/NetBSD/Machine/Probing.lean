import Mathlib.Logic.Function.Basic
import Mathlib.Order.Nat
import Mathlib.Tactic.Common

/-!
Owns tables with linear probing: slots that are empty, deleted or in use, the
walk from a slot around the table, and the slots that a walk reaches before it
sees an empty one. A table is a function on the slots below its size.
-/

namespace NetBSD.Machine

open Function Nat

universe u

/-- A slot of a table; a deleted one may be part of a walk. -/
inductive Slot (α : Type u) where
  | empty
  | del
  | used (value : α)
deriving DecidableEq, Repr

def Slot.count {α : Type u} : Slot α → Nat
  | .empty => 0
  | _ => 1

def wrapIncr (i limit : Nat) : Nat := if i + 1 = limit then 0 else i + 1

def wrapDecr (i limit : Nat) : Nat := if i = 0 then limit - 1 else i - 1

/-- The slot `d` steps ahead of slot `i`. -/
def ahead (size i d : Nat) : Nat := (i + d) % size

section Walk

variable {size i s d : Nat}

theorem ahead_lt (pos : 0 < size) : ahead size i d < size := mod_lt _ pos

section

variable (below : i < size)

include below

theorem ahead_zero : ahead size i 0 = i := mod_eq_of_lt below

theorem wrapIncr_eq : wrapIncr i size = (i + 1) % size := by
  unfold wrapIncr
  by_cases last : i + 1 = size
  · rw [if_pos last, last, mod_self]
  · rw [if_neg last, mod_eq_of_lt (by omega)]

theorem wrapIncr_lt : wrapIncr i size < size := by
  unfold wrapIncr
  split <;> omega

theorem wrapDecr_lt : wrapDecr i size < size := by
  unfold wrapDecr
  split <;> omega

theorem wrapIncr_wrapDecr : wrapIncr (wrapDecr i size) size = i := by
  unfold wrapIncr wrapDecr
  split <;> split <;> omega

theorem ahead_wrapIncr :
    ahead size (wrapIncr i size) d = ahead size i (d + 1) := by
  rw [wrapIncr_eq below, ahead, ahead, mod_add_mod, Nat.add_assoc, Nat.add_comm 1 d]

end

theorem wrapIncr_ahead (pos : 0 < size) :
    wrapIncr (ahead size i d) size = ahead size i (d + 1) := by
  rw [wrapIncr_eq (ahead_lt pos), ahead, ahead, mod_add_mod, Nat.add_assoc]

theorem exists_ahead (iBelow : i < size) (sBelow : s < size) : ∃ d < size, ahead size i d = s := by
  by_cases order : i ≤ s
  · refine ⟨s - i, by omega, ?_⟩
    rw [ahead, Nat.add_sub_cancel' order, mod_eq_of_lt sBelow]
  · refine ⟨s + size - i, by omega, ?_⟩
    rw [ahead, Nat.add_sub_cancel' (by omega), add_mod_right, mod_eq_of_lt sBelow]

/-- The first slot of a walk that satisfies `stop`. -/
def scan (size : Nat) (stop : Nat → Bool) : (fuel i : Nat) → Option Nat
  | 0, _ => none
  | fuel + 1, i => if stop i then some i else scan size stop fuel (wrapIncr i size)

variable {stop : Nat → Bool} {fuel : Nat}

theorem scan_eq (below : i < size) (clear : ∀ e < d, stop (ahead size i e) = false)
    (stops : stop (ahead size i d) = true) (suff : d < fuel) :
    scan size stop fuel i = some (ahead size i d) := by
  induction d generalizing i fuel with
  | zero =>
    obtain ⟨fuel, rfl⟩ : ∃ tl, fuel = tl + 1 := ⟨fuel - 1, by omega⟩
    rw [ahead_zero below] at stops ⊢
    rw [scan, if_pos stops]
  | succ d ih =>
    obtain ⟨fuel, rfl⟩ : ∃ tl, fuel = tl + 1 := ⟨fuel - 1, by omega⟩
    have here := clear 0 (zero_lt_succ d)
    rw [ahead_zero below] at here
    rw [scan, here, ← ahead_wrapIncr below]
    apply ih (wrapIncr_lt below)
    · intro e prev
      rw [ahead_wrapIncr below]
      exact clear (e + 1) (succ_lt_succ prev)
    · rwa [ahead_wrapIncr below]
    · omega

theorem exists_first {P : Nat → Prop} (below : i < size) (sBelow : s < size) (holds : P s) :
    ∃ d < size, P (ahead size i d) ∧ ∀ e < d, ¬ P (ahead size i e) := by
  classical
  obtain ⟨d, lt, isAt⟩ := exists_ahead below sBelow
  have pos : ∃ d, P (ahead size i d) := ⟨d, isAt ▸ holds⟩
  exact ⟨Nat.find pos, Nat.lt_of_le_of_lt (Nat.find_min' pos (isAt ▸ holds)) lt,
    Nat.find_spec pos, fun e prev => Nat.find_min pos prev⟩

end Walk

section Table

variable {α : Type u} {table : Nat → Slot α} {size home i s fuel : Nat} {slot : Slot α}

/-- A walk from `home` comes to slot `s` before it sees an empty one. -/
def Reach (size : Nat) (table : Nat → Slot α) (home s : Nat) : Prop :=
  ∃ d < size, s = ahead size home d ∧ ∀ e < d, table (ahead size home e) ≠ .empty

theorem Reach.update (reach : Reach size table home s) (full : slot ≠ .empty) :
    Reach size (Function.update table i slot) home s := by
  obtain ⟨d, lt, isAt, walk⟩ := reach
  refine ⟨d, lt, isAt, fun e prev => ?_⟩
  by_cases same : ahead size home e = i
  · rwa [same, update_self]
  · rw [update_of_ne same]
    exact walk e prev

theorem Reach.clear (reach : Reach size table home s) (full : table s ≠ .empty)
    (prev : table (wrapIncr i size) = .empty) :
    Reach size (Function.update table i .empty) home s := by
  obtain ⟨d, lt, isAt, walk⟩ := reach
  refine ⟨d, lt, isAt, fun e old => ?_⟩
  have oth : ahead size home e ≠ i := by
    intro same
    rw [← same, wrapIncr_ahead (zero_lt_of_lt lt)] at prev
    by_cases last : e + 1 = d
    · rw [last, ← isAt] at prev
      exact full prev
    · exact walk (e + 1) (by omega) prev
  rw [update_of_ne oth]
  exact walk e old

theorem Reach.scan_eq {stop : Nat → Bool} (reach : Reach size table home s) (below : home < size)
    (stops : stop s = true) (only : ∀ i < size, i ≠ s → table i ≠ .empty → stop i = false) :
    scan size stop size home = some s := by
  obtain ⟨d, lt, isAt, walk⟩ := reach
  have pos : 0 < size := zero_lt_of_lt lt
  have any : ∃ d, stop (ahead size home d) = true := ⟨d, isAt ▸ stops⟩
  have le : Nat.find any ≤ d := Nat.find_min' any (isAt ▸ stops)
  have fst : ahead size home (Nat.find any) = s := by
    by_contra oth
    have old : Nat.find any < d := by
      by_contra last
      have same : Nat.find any = d := by omega
      exact oth (same ▸ isAt.symm)
    have past := only _ (ahead_lt pos) oth (walk _ old)
    rw [Nat.find_spec any] at past
    cases past
  rw [← fst]
  apply NetBSD.Machine.scan_eq below
  · intro e old
    exact Bool.eq_false_iff.mpr (Nat.find_min any old)
  · exact Nat.find_spec any
  · omega

/-! ### The slots in use -/

/-- How many of the first slots are not empty. -/
def filled (table : Nat → Slot α) : Nat → Nat
  | 0 => 0
  | size + 1 => filled table size + (table size).count

theorem filled_update_of_le (above : size ≤ i) :
    filled (Function.update table i slot) size = filled table size := by
  induction size with
  | zero => rfl
  | succ size ih =>
    rw [filled, filled, ih (by omega), update_of_ne (by omega)]

theorem filled_update (below : i < size) :
    filled (Function.update table i slot) size + (table i).count =
      filled table size + slot.count := by
  induction size with
  | zero => omega
  | succ size ih =>
    rw [filled, filled]
    by_cases last : i = size
    · subst last
      rw [filled_update_of_le (le_refl i), update_self]
      omega
    · rw [update_of_ne (Ne.symm last)]
      omega

theorem exists_empty (notFull : filled table size < size) : ∃ s < size, table s = .empty := by
  induction size with
  | zero => omega
  | succ size ih =>
    cases last : table size with
    | empty => exact ⟨size, lt_succ_self size, last⟩
    | del | used _ =>
      rw [filled, last] at notFull
      change filled table size + 1 < size + 1 at notFull
      obtain ⟨s, below, emp⟩ := ih (by omega)
      exact ⟨s, by omega, emp⟩

end Table

end NetBSD.Machine
