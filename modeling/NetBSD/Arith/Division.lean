import Mathlib.Algebra.Order.Ring.Nat
import Mathlib.Tactic.Common
import Mathlib.Tactic.Ring

/-!
Owns division of 32-bit words by an invariant divisor, as `fast_divide32` does it by a
multiplication and two shifts.
-/

namespace NetBSD.Arith

open Nat

def uint32 (n : Nat) : Nat := n % 4294967296

theorem uint32_lt (n : Nat) : uint32 n < 4294967296 := mod_lt n (by decide)

theorem uint32_of_lt {n : Nat} (sml : n < 4294967296) : uint32 n = n := mod_eq_of_lt sml

section HighestBit

def flsStep (bits : Nat) (word : Nat × Nat) : Nat × Nat :=
  if word.1 / 2 ^ (32 - bits) = 0 then (word.1 * 2 ^ bits, word.2 - bits) else word

def fls32 (n : Nat) : Nat :=
  if n = 0 then 0
  else (flsStep 1 (flsStep 2 (flsStep 4 (flsStep 8 (flsStep 16 (n, 32)))))).2

structure Shifted (n bits : Nat) (word : Nat × Nat) : Prop where
  isShifted : word.1 = n * 2 ^ (32 - word.2)
  small : word.1 < 2 ^ 32
  large : 2 ^ (32 - bits) ≤ word.1
  enough : bits ≤ word.2
  atMost : word.2 ≤ 32

theorem Shifted.step {n bits : Nat} {word : Nat × Nat} (shd : Shifted n (bits + bits) word)
    (bnd : bits + bits ≤ 32) : Shifted n bits (flsStep bits word) := by
  obtain ⟨isShifted, sml, large, suff, le⟩ := shd
  unfold flsStep
  by_cases clr : word.1 / 2 ^ (32 - bits) = 0
  · rw [if_pos clr]
    have below : word.1 < 2 ^ (32 - bits) := by
      rcases Nat.div_eq_zero_iff.mp clr with zero | below
      · exact absurd zero (Nat.two_pow_pos _).ne'
      · exact below
    constructor
    · dsimp only
      rw [isShifted, mul_assoc, ← pow_add]
      congr 2
      omega
    · have shd := mul_lt_mul_of_pos_right below (Nat.two_pow_pos bits)
      rwa [← Nat.pow_add, Nat.sub_add_cancel (by omega)] at shd
    · have shd := mul_le_mul_right (2 ^ bits) large
      rwa [← pow_add, show 32 - (bits + bits) + bits = 32 - bits by omega] at shd
    · dsimp only
      omega
    · dsimp only
      omega
  · rw [if_neg clr]
    have above : 2 ^ (32 - bits) ≤ word.1 := by
      by_contra lt
      exact clr (div_eq_of_lt (Nat.lt_of_not_le lt))
    exact ⟨isShifted, sml, above, by omega, le⟩

theorem fls32_spec {n : Nat} (pos : 0 < n) (sml : n < 2 ^ 32) :
    0 < fls32 n ∧ fls32 n ≤ 32 ∧ 2 ^ (fls32 n - 1) ≤ n ∧ n < 2 ^ fls32 n := by
  have fst : Shifted n 32 (n, 32) := ⟨by simp, sml, pos, le_refl 32, le_refl 32⟩
  have snd : Shifted n 16 (flsStep 16 (n, 32)) := fst.step (by decide)
  have third : Shifted n 8 (flsStep 8 (flsStep 16 (n, 32))) := snd.step (by decide)
  have fourth : Shifted n 4 (flsStep 4 (flsStep 8 (flsStep 16 (n, 32)))) := third.step (by decide)
  have fifth : Shifted n 2 (flsStep 2 (flsStep 4 (flsStep 8 (flsStep 16 (n, 32))))) :=
    fourth.step (by decide)
  have last : Shifted n 1 (flsStep 1 (flsStep 2 (flsStep 4 (flsStep 8 (flsStep 16 (n, 32)))))) :=
    fifth.step (by decide)
  unfold fls32
  rw [if_neg pos.ne']
  generalize flsStep 1 (flsStep 2 (flsStep 4 (flsStep 8 (flsStep 16 (n, 32))))) = word at last
  obtain ⟨isShifted, below, large, suff, le⟩ := last
  rw [isShifted] at below large
  refine ⟨suff, le, ?_, ?_⟩
  · apply le_of_mul_le_mul_right _ (Nat.two_pow_pos (32 - word.2))
    rw [← Nat.pow_add, show word.2 - 1 + (32 - word.2) = 32 - 1 by omega]
    exact large
  · apply Nat.lt_of_mul_lt_mul_right (a := 2 ^ (32 - word.2))
    rw [← pow_add, show word.2 + (32 - word.2) = 32 by omega]
    exact below

end HighestBit

section Divide

/-- What `fast_divide32_prepare` stores for a divisor. -/
structure Divider where
  m : Nat
  s1 : Nat
  s2 : Nat
deriving DecidableEq, Repr

def fastDivide32Prepare (div : Nat) : Divider :=
  let l := fls32 (div - 1)
  let mt := 4294967296 * (2 ^ l - div) % 18446744073709551616
  ⟨uint32 (mt / div + 1), if l > 1 then 1 else l, if l = 0 then 0 else l - 1⟩

def fastDivide32 (v : Nat) (divider : Divider) : Nat :=
  let t := v * divider.m / 4294967296
  uint32 (t + uint32 (v + 4294967296 - t) / 2 ^ divider.s1) / 2 ^ divider.s2

def fastRemainder32 (v div : Nat) (divider : Divider) : Nat :=
  uint32 (v + 4294967296 - uint32 (div * fastDivide32 v divider))

theorem mul_div_pow {v div multiplier scale word : Nat} (pos : 0 < div) (isWord : v < word)
    (above : word * scale ≤ multiplier * div) (close : multiplier * div ≤ word * scale + scale)
    (scaled : 0 < scale) : multiplier * v / (word * scale) = v / div := by
  have split := div_add_mod v div
  have tl := mod_lt v pos
  apply Nat.div_eq_of_lt_le
  · calc v / div * (word * scale) ≤ v / div * (multiplier * div) := Nat.mul_le_mul_left _ above
      _ = multiplier * (div * (v / div)) := by ring
      _ ≤ multiplier * v := Nat.mul_le_mul_left _ (by omega)
  apply Nat.lt_of_mul_lt_mul_right (a := div)
  calc multiplier * v * div = v * (multiplier * div) := by ring
    _ ≤ v * (word * scale + scale) := Nat.mul_le_mul_left _ close
    _ = v * (word * scale) + v * scale := by ring
    _ < v * (word * scale) + word * scale :=
        Nat.add_lt_add_left (Nat.mul_lt_mul_of_pos_right isWord scaled) _
    _ = (v + 1) * (word * scale) := by ring
    _ ≤ (v / div + 1) * div * (word * scale) := by
        apply Nat.mul_le_mul_right
        rw [Nat.add_mul, Nat.mul_comm (v / div)]
        omega
    _ = (v / div + 1) * (word * scale) * div := by ring

theorem mean_div {t v l : Nat} (below : t ≤ v) (pos : 0 < l) :
    (t + (v - t) / 2) / 2 ^ (l - 1) = (t + v) / 2 ^ l := by
  have mean : t + (v - t) / 2 = (t + v) / 2 := by omega
  rw [mean, Nat.div_div_eq_div_mul, ← Nat.pow_succ', succ_eq_add_one, Nat.sub_add_cancel pos]

theorem fls32_pred_spec {div : Nat} (pos : 0 < div) (sml : div < 4294967296) :
    div ≤ 2 ^ fls32 (div - 1) ∧ 2 ^ fls32 (div - 1) < 2 * div ∧ (fls32 (div - 1) = 0 → div = 1) := by
  by_cases isOne : div - 1 = 0
  · have isDiv : div = 1 := by omega
    subst isDiv
    exact ⟨by decide, by decide, fun _ => rfl⟩
  obtain ⟨isPos, _, low, high⟩ := fls32_spec (pos_of_ne_zero isOne) (by omega)
  have double : 2 ^ fls32 (div - 1) = 2 * 2 ^ (fls32 (div - 1) - 1) := by
    rw [← Nat.pow_succ', succ_eq_add_one, Nat.sub_add_cancel isPos]
  exact ⟨by omega, by omega, fun zero => absurd zero isPos.ne'⟩

/-- Multiply, shift and add give the quotient of every word. -/
theorem fastDivide32_spec {v div : Nat} (pos : 0 < div) (sml : div < 4294967296)
    (isWord : v < 4294967296) : fastDivide32 v (fastDivide32Prepare div) = v / div := by
  obtain ⟨below, twice, sgl⟩ := fls32_pred_spec pos sml
  unfold fastDivide32 fastDivide32Prepare
  dsimp only
  generalize fls32 (div - 1) = l at below twice sgl ⊢
  have noWrap : 4294967296 * (2 ^ l - div) % 18446744073709551616 = 4294967296 * (2 ^ l - div) :=
    mod_eq_of_lt (by omega)
  rw [noWrap]
  -- the stored word is the multiplier without its bit 32
  obtain ⟨quo, isQuotient⟩ : ∃ quo, 4294967296 * (2 ^ l - div) / div = quo := ⟨_, rfl⟩
  have split := div_add_mod (4294967296 * (2 ^ l - div)) div
  have tl := mod_lt (4294967296 * (2 ^ l - div)) pos
  rw [isQuotient] at split ⊢
  have expand : (4294967296 + (quo + 1)) * div =
      4294967296 * div + div * quo + div := by ring
  have fits : quo + 1 < 4294967296 := by
    by_contra isLarge
    have product := mul_le_mul_left div (show 4294967295 ≤ quo by omega)
    omega
  rw [uint32_of_lt fits]
  have isExact : (4294967296 + (quo + 1)) * v / (4294967296 * 2 ^ l) = v / div :=
    mul_div_pow pos isWord (by omega) (by omega) (Nat.two_pow_pos l)
  have isSum : (4294967296 + (quo + 1)) * v / 4294967296 =
      v * (quo + 1) / 4294967296 + v := by
    rw [add_mul, mul_comm (quo + 1) v, add_comm,
      add_mul_div_left _ _ (by decide)]
  rw [← Nat.div_div_eq_div_mul, isSum] at isExact
  have partly : v * (quo + 1) / 4294967296 ≤ v :=
    Nat.div_le_of_le_mul (by rw [mul_comm]; exact mul_le_mul_right v fits.le)
  generalize v * (quo + 1) / 4294967296 = t at partly isExact ⊢
  have difference : uint32 (v + 4294967296 - t) = v - t := by
    unfold uint32
    omega
  rw [difference]
  by_cases zero : l = 0
  · subst zero
    rw [if_neg (by decide), if_pos rfl, Nat.pow_zero, Nat.div_one, Nat.div_one,
      uint32_of_lt (by omega)]
    have isDiv := sgl rfl
    subst isDiv
    omega
  have shift : (if l > 1 then 1 else l) = 1 := by
    by_cases isLarge : l > 1
    · exact if_pos isLarge
    · rw [if_neg isLarge]
      omega
  rw [shift, if_neg zero, pow_one, uint32_of_lt (by omega),
    mean_div partly (pos_of_ne_zero zero), isExact]

theorem fastRemainder32_spec {v div : Nat} (pos : 0 < div) (sml : div < 4294967296)
    (isWord : v < 4294967296) : fastRemainder32 v div (fastDivide32Prepare div) = v % div := by
  unfold fastRemainder32
  rw [fastDivide32_spec pos sml isWord]
  have split := div_add_mod v div
  unfold uint32
  omega

/-- Quotient and remainder are exact, and no product of the three functions takes more than 64
bits. -/
theorem fastDivide32_exact {v div : Nat} (pos : 0 < div) (small : div < 4294967296)
    (isWord : v < 4294967296) :
    fastDivide32 v (fastDivide32Prepare div) = v / div ∧
      fastRemainder32 v div (fastDivide32Prepare div) = v % div ∧
      4294967296 * (2 ^ fls32 (div - 1) - div) < 2 ^ 64 ∧
      v * (fastDivide32Prepare div).m < 2 ^ 64 ∧
      div * fastDivide32 v (fastDivide32Prepare div) < 2 ^ 64 := by
  obtain ⟨_, twice, _⟩ := fls32_pred_spec pos small
  have isQuotient := fastDivide32_spec pos small isWord
  refine ⟨isQuotient, fastRemainder32_spec pos small isWord, by omega, ?_, ?_⟩
  · show _ < 4294967296 * 4294967296
    exact mul_lt_mul'' isWord (uint32_lt _)
  · rw [isQuotient]
    have le := mul_div_le v div
    omega

theorem fastDivide32_exact_seven : fastDivide32 4294967295 (fastDivide32Prepare 7) = 613566756 :=
  (fastDivide32_exact (by decide) (by decide) (by decide)).1

end Divide

end NetBSD.Arith
