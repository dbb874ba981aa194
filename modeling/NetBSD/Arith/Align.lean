import Mathlib.Algebra.Order.Ring.Nat
import Mathlib.Data.BitVec

/-!
Owns rounding in words of a fixed width: clearing the bits below a power of two,
and rounding up to a multiple of one, which wraps at the end of the range; and the
least number from a place on in a class modulo another.
-/

namespace NetBSD.Arith

open Nat BitVec

variable {w : Nat} {a : BitVec w} {k : Nat}

def IsPowerOfTwo (a : BitVec w) : Prop := ∃ k < w, a.toNat = 2 ^ k

theorem eq_twoPow (pow : a.toNat = 2 ^ k) (lt : k < w) : a = BitVec.twoPow w k := by
  apply eq_of_toNat_eq
  rw [pow, toNat_twoPow, mod_eq_of_lt (Nat.pow_lt_pow_right (by decide) lt)]

theorem getLsbD_neg_twoPow (lt : k < w) (bit : Nat) :
    (-BitVec.twoPow w k).getLsbD bit = (decide (bit < w) && decide (k ≤ bit)) := by
  have lower : (∃ j < bit, (BitVec.twoPow w k).getLsbD j = true) ↔ k < bit := by
    constructor
    · rintro ⟨j, prev, isSet⟩
      simp only [getLsbD_twoPow, lt, decide_true, Bool.true_and,
        decide_eq_true_eq] at isSet
      omega
    · intro below
      exact ⟨k, below, by simp [lt]⟩
  rw [getLsbD_neg]
  simp only [lower]
  by_cases same : k = bit
  · subst same
    simp [lt]
  · have strict : k < bit ↔ k ≤ bit := by omega
    simp [same, strict]

theorem toNat_and_neg (pow : a.toNat = 2 ^ k) (lt : k < w) (x : BitVec w) :
    (x &&& -a).toNat = 2 ^ k * (x.toNat / 2 ^ k) := by
  have same : x &&& -a = (x >>> k) <<< k := by
    rw [eq_twoPow pow lt]
    apply eq_of_getLsbD_eq
    intro bit inWord
    rw [getLsbD_and, getLsbD_neg_twoPow lt, getLsbD_shiftLeft,
      getLsbD_ushiftRight]
    by_cases above : k ≤ bit
    · simp [inWord, above]
    · simp [above, not_le.mp above]
  rw [same, toNat_shiftLeft, toNat_ushiftRight, shiftRight_eq_div_pow,
    Nat.shiftLeft_eq, Nat.mul_comm, mod_eq_of_lt]
  calc 2 ^ k * (x.toNat / 2 ^ k) ≤ x.toNat := mul_div_le _ _
    _ < 2 ^ w := x.isLt

theorem toNat_roundUp (pow : a.toNat = 2 ^ k) (lt : k < w) (x : BitVec w) :
    ((x + (a - 1)) &&& -a).toNat =
      if x.toNat + (2 ^ k - 1) < 2 ^ w then 2 ^ k * ((x.toNat + (2 ^ k - 1)) / 2 ^ k) else 0 := by
  have pos : 0 < 2 ^ k := Nat.two_pow_pos k
  have width : 0 < w := by omega
  have one : (1 : BitVec w).toNat = 1 := toNat_one width
  have less : (a - 1).toNat = 2 ^ k - 1 := by
    rw [toNat_sub, one, pow]
    rw [show 2 ^ w - 1 + 2 ^ k = 2 ^ k - 1 + 2 ^ w by omega, add_mod_right,
      mod_eq_of_lt (by omega)]
  rw [toNat_and_neg pow lt, toNat_add, less]
  split
  · rename_i noWrap
    rw [mod_eq_of_lt noWrap]
  · rename_i wraps
    rw [mod_eq_sub_mod (by omega), mod_eq_of_lt (by omega), div_eq_of_lt (by omega),
      Nat.mul_zero]

/-- The least number from `s` on that is congruent to `p` modulo `m`. -/
def nextCongruent (s p m : Nat) : Nat := s + (p + (m - s % m)) % m

section NextCongruent

variable {s p m x : Nat}

theorem le_nextCongruent : s ≤ nextCongruent s p m := le_add_right _ _

theorem nextCongruent_lt (pos : 0 < m) : nextCongruent s p m < s + m :=
  Nat.add_lt_add_left (mod_lt _ pos) _

theorem add_complement_modEq (pos : 0 < m) : s + (p + (m - s % m)) ≡ p [MOD m] := by
  have below : s % m < m := mod_lt _ pos
  have whole := div_add_mod s m
  have shape : s + (p + (m - s % m)) = p + m * (s / m + 1) := by
    rw [Nat.mul_add]
    omega
  rw [shape, Nat.ModEq, add_mul_mod_self_left]

theorem nextCongruent_modEq (pos : 0 < m) : nextCongruent s p m ≡ p [MOD m] :=
  ((mod_modEq _ m).add_left s).trans (add_complement_modEq pos)

theorem nextCongruent_le (pos : 0 < m) (above : s ≤ x) (cong : x ≡ p [MOD m]) :
    nextCongruent s p m ≤ x := by
  have sml : (p + (m - s % m)) % m < m := mod_lt _ pos
  have same : nextCongruent s p m ≡ x [MOD m] := (nextCongruent_modEq pos).trans cong.symm
  have distances : (p + (m - s % m)) % m ≡ x - s [MOD m] := by
    apply Nat.ModEq.add_left_cancel' s
    rwa [Nat.add_sub_cancel' above]
  have least : (p + (m - s % m)) % m ≤ x - s := by
    rw [← mod_eq_of_lt sml, distances]
    exact mod_le _ _
  unfold nextCongruent
  omega

end NextCongruent

section Words

variable {w k : Nat} {a x p : BitVec w}

/-- Adding and masking rounds up, modulo the width. -/
theorem roundUp_eq (pow : a.toNat = 2 ^ k) (lt : k < w) :
    (x + (a - 1)) &&& -a = x + BitVec.ofNat w ((-x).toNat % 2 ^ k) := by
  have dvd : 2 ^ k ∣ 2 ^ w := pow_dvd_pow 2 (le_of_lt lt)
  have one : (1 : BitVec w).toNat = 1 := toNat_one (by omega)
  have pred : (a - 1).toNat = 2 ^ k - 1 := by
    rw [toNat_sub, one, pow]
    rw [show 2 ^ w - 1 + 2 ^ k = 2 ^ k - 1 + 2 ^ w by omega, add_mod_right,
      mod_eq_of_lt (by omega)]
  -- the remainders of `-x` and of the number that is masked add up
  have sum : ((-x).toNat % 2 ^ k + (x + (a - 1)).toNat % 2 ^ k) % 2 ^ k = 2 ^ k - 1 := by
    have words : -x + (x + (a - 1)) = a - 1 := by
      rw [← BitVec.add_assoc, BitVec.add_comm (-x) x, add_right_neg, BitVec.zero_add]
    have numbers := congrArg BitVec.toNat words
    rw [toNat_add, pred] at numbers
    rw [← add_mod, ← mod_mod_of_dvd _ dvd, numbers, mod_eq_of_lt (by omega)]
  have whole := div_add_mod (x + (a - 1)).toNat (2 ^ k)
  have total : (-x).toNat % 2 ^ k + (x + (a - 1)).toNat % 2 ^ k = 2 ^ k - 1 := by
    by_cases sml : (-x).toNat % 2 ^ k + (x + (a - 1)).toNat % 2 ^ k < 2 ^ k
    · rwa [mod_eq_of_lt sml] at sum
    · rw [mod_eq_sub_mod (not_lt.mp sml), mod_eq_of_lt (by omega)] at sum
      omega
  have sml : (-x).toNat % 2 ^ k < 2 ^ w := by omega
  have masked : (x + (a - 1)).toNat = (x.toNat + (2 ^ k - 1)) % 2 ^ w := by
    rw [toNat_add, pred]
  have added : (x + BitVec.ofNat w ((-x).toNat % 2 ^ k)).toNat =
      (x.toNat + (-x).toNat % 2 ^ k) % 2 ^ w := by
    rw [toNat_add, toNat_ofNat, mod_eq_of_lt sml]
  apply eq_of_toNat_eq
  rw [toNat_and_neg pow lt, added]
  by_cases fits : x.toNat + (2 ^ k - 1) < 2 ^ w
  · rw [mod_eq_of_lt fits] at masked
    rw [mod_eq_of_lt (by omega)]
    omega
  · rw [mod_eq_sub_mod (by omega), mod_eq_of_lt (by omega)] at masked
    rw [mod_eq_sub_mod (by omega), mod_eq_of_lt (by omega)]
    omega

theorem toNat_add_distance (lt : k < w) : (x + BitVec.ofNat w ((p - x).toNat % 2 ^ k)).toNat =
      nextCongruent x.toNat p.toNat (2 ^ k) % 2 ^ w := by
  have pos : 0 < 2 ^ k := Nat.two_pow_pos k
  have dvd : 2 ^ k ∣ 2 ^ w := pow_dvd_pow 2 (le_of_lt lt)
  have distances : (p - x).toNat % 2 ^ k = (p.toNat + (2 ^ k - x.toNat % 2 ^ k)) % 2 ^ k := by
    rw [toNat_sub, mod_mod_of_dvd _ dvd]
    apply Nat.ModEq.add_right_cancel' (x.toNat)
    have fst : 2 ^ w - x.toNat + p.toNat + x.toNat ≡ p.toNat [MOD 2 ^ k] := by
      have sum : 2 ^ w - x.toNat + p.toNat + x.toNat = 2 ^ w + p.toNat := by omega
      rw [sum]
      exact (Nat.ModEq.add_right _ (modEq_zero_iff_dvd.mpr dvd)).trans (by rw [zero_add])
    have snd : p.toNat + (2 ^ k - x.toNat % 2 ^ k) + x.toNat ≡ p.toNat [MOD 2 ^ k] := by
      rw [add_comm]
      exact add_complement_modEq pos
    exact fst.trans snd.symm
  rw [toNat_add, toNat_ofNat, distances, nextCongruent, add_mod_mod]

end Words

end NetBSD.Arith
