import Mathlib.Data.List.Basic
import Mathlib.Data.List.Range

/-!
Owns the list that a ring of cells holds: so many cells from a first one on, with the first cell of
the ring behind the last one.
-/

namespace NetBSD.Machine

open List Nat

universe u

/-- Two places less than a whole round apart are one place only where they are one number. -/
theorem eq_of_mod_eq {size beg i j : Nat} (iAbove : beg ≤ i) (iBelow : i < beg + size)
    (jAbove : beg ≤ j) (jBelow : j < beg + size) (same : i % size = j % size) : i = j := by
  have forward := sub_mod_eq_zero_of_mod_eq same
  have backward := sub_mod_eq_zero_of_mod_eq same.symm
  rw [mod_eq_of_lt (by omega)] at forward backward
  omega

variable {α : Type u}

def ring (cells : Nat → α) (size first count : Nat) : List α :=
  (List.range count).map fun i => cells ((first + i) % size)

def span (cells : Nat → α) (first count : Nat) : List α :=
  (List.range count).map fun i => cells (first + i)

/-- A list written over cells that lie side by side. -/
def fill (cells : Nat → α) (first : Nat) (values : List α) : Nat → α := fun i =>
  if first ≤ i then values[i - first]?.getD (cells i) else cells i

section Ring

variable {cells other : Nat → α} {size first pre back cnt : Nat}

@[simp] theorem length_ring : (ring cells size first cnt).length = cnt := by
  simp [ring]

@[simp] theorem length_span : (span cells first cnt).length = cnt := by
  simp [span]

theorem ring_congr (same : ∀ i < cnt, cells ((first + i) % size) = other ((first + i) % size)) :
    ring cells size first cnt = ring other size first cnt := by
  apply map_congr_left
  intro i isIn
  exact same i (mem_range.mp isIn)

theorem ring_mod : ring cells size (first % size) cnt = ring cells size first cnt := by
  apply map_congr_left
  intro i _
  rw [mod_add_mod]

theorem ring_append : ring cells size first (pre + back) =
    ring cells size first pre ++ ring cells size ((first + pre) % size) back := by
  rw [ring_mod]
  unfold ring
  rw [range_add, map_append, map_map]
  congr 2
  funext i
  show cells ((first + (pre + i)) % size) = cells ((first + pre + i) % size)
  rw [Nat.add_assoc]

theorem ring_succ : ring cells size first (cnt + 1) =
    ring cells size first cnt ++ [cells ((first + cnt) % size)] := by
  unfold ring
  rw [range_succ, map_append]
  rfl

theorem ring_cons : ring cells size first (cnt + 1) =
    cells (first % size) :: ring cells size ((first + 1) % size) cnt := by
  have split := @ring_append α cells size first 1 cnt
  rw [Nat.add_comm 1 cnt] at split
  rw [split]
  rfl

theorem ring_eq_span (bnd : first + cnt ≤ size) :
    ring cells size first cnt = span cells first cnt := by
  apply map_congr_left
  intro i isIn
  have below := mem_range.mp isIn
  rw [mod_eq_of_lt (by omega)]

variable {values : List α}

theorem fill_of_lt {i : Nat} (below : i < first) :
    fill cells first values i = cells i := if_neg (not_le.mpr below)

theorem fill_of_ge {i : Nat} (above : first + values.length ≤ i) :
    fill cells first values i = cells i := by
  unfold fill
  rw [if_pos (by omega), getElem?_eq_none (by omega)]
  rfl

theorem fill_of_mem {i : Nat} (below : i < values.length) :
    fill cells first values (first + i) = values[i] := by
  unfold fill
  rw [if_pos (Nat.le_add_right first i), Nat.add_sub_cancel_left, List.getElem?_eq_getElem below]
  rfl

theorem span_fill (values : List α) : span (fill cells first values) first values.length = values := by
  apply ext_getElem
  · exact length_span
  intro i inSpan below
  have isCell : (span (fill cells first values) first values.length)[i] =
      fill cells first values (first + i) := by
    simp [span]
  rw [isCell]
  exact fill_of_mem below

/-- Cells that are written right behind the held ones, up to the last cell, are held behind them. -/
theorem ring_write_back (firstBelow : first < size) (bnd : (first + pre) % size + back ≤ size)
    (rm : pre + back ≤ size)
    (out : ∀ i, i < (first + pre) % size ∨ (first + pre) % size + back ≤ i →
      other i = cells i) :
    ring other size first (pre + back) =
      ring cells size first pre ++ span other ((first + pre) % size) back := by
  rw [ring_append, ring_eq_span bnd]
  congr 1
  apply ring_congr
  intro i below
  apply out
  by_cases wraps : first + pre < size
  · rw [mod_eq_of_lt wraps, mod_eq_of_lt (by omega)]
    omega
  have aft : (first + pre) % size = (first + pre - size) % size :=
    mod_eq_sub_mod (by omega)
  by_cases fst : first + i < size
  · rw [mod_eq_of_lt fst]
    rw [aft] at bnd ⊢
    rw [mod_eq_of_lt (by omega)] at bnd ⊢
    omega
  · rw [aft, mod_eq_sub_mod (show size ≤ first + i by omega),
      mod_eq_of_lt (show first + i - size < size by omega),
      mod_eq_of_lt (show first + pre - size < size by omega)]
    omega

end Ring

end NetBSD.Machine
