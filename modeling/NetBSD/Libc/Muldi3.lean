import Mathlib.Data.BitVec
import Mathlib.Data.Int.ModEq
import Mathlib.Tactic.LinearCombination
import Mathlib.Tactic.Ring

/-!
Owns the 64-bit product of machines with 32-bit words: `__lmulq` of two words and `__muldi3` of two
quads, both from the products of their halves and of the differences of their halves.
-/

namespace NetBSD.Libc

section Model

def hhalf (x : BitVec 32) : BitVec 32 := x >>> 16

def lhalf (x : BitVec 32) : BitVec 32 := x &&& 0xFFFF

def lhup (x : BitVec 32) : BitVec 32 := x <<< 16

/-- `union uu` from its two words. -/
def uu (high low : BitVec 32) : BitVec 64 := high ++ low

def highWord (q : BitVec 64) : BitVec 32 := q.extractLsb' 32 32

def lowWord (q : BitVec 64) : BitVec 32 := q.extractLsb' 0 32

/-- The difference of two words and whether it is negative. -/
def diff (x y : BitVec 32) : BitVec 32 × Bool :=
  if x ≥ y then (x - y, false) else (y - x, true)

def carry (overflows : Bool) : BitVec 32 := if overflows then 1 else 0

def lmulq (u v : BitVec 32) : BitVec 64 :=
  let u1 := hhalf u
  let u0 := lhalf u
  let v1 := hhalf v
  let v0 := lhalf v
  let low := u0 * v0
  if u1 = 0 ∧ v1 = 0 then low.setWidth 64 else
  let (udiff, uneg) := diff u1 u0
  let (vdiff, vneg) := diff v0 v1
  let neg := uneg ^^ vneg
  let mid := udiff * vdiff
  let high := u1 * v1
  let prodh := high + hhalf high
  let prodl := lhup high
  let (prodh, prodl) :=
    if neg then
      let was := prodl
      let prodl := prodl - lhup mid
      (prodh - (hhalf mid + carry (prodl > was)), prodl)
    else
      let was := prodl
      let prodl := prodl + lhup mid
      (prodh + (hhalf mid + carry (prodl < was)), prodl)
  let was := prodl
  let prodl := prodl + lhup low
  let prodh := prodh + (hhalf low + carry (prodl < was))
  let prodl := prodl + low
  let prodh := if prodl < low then prodh + 1 else prodh
  uu prodh prodl

/-- What `__muldi3` does with the two quads when their signs are taken off. -/
def unsignedProd (u v : BitVec 64) : BitVec 64 :=
  let u1 := highWord u
  let u0 := lowWord u
  let v1 := highWord v
  let v0 := lowWord v
  if u1 = 0 ∧ v1 = 0 then lmulq u0 v0 else
  let low := lmulq u0 v0
  let (udiff, uneg) := diff u1 u0
  let (vdiff, vneg) := diff v0 v1
  let negmid := uneg ^^ vneg
  let mid := udiff * vdiff
  let high := u1 * v1
  uu (high + (if negmid then -mid else mid) + lowWord low + highWord low) (lowWord low)

/-- The most negative quad stays as it is where its sign is taken off. -/
def muldi3 (a b : BitVec 64) : BitVec 64 :=
  let (u, negall) := if 0 ≤ a.toInt then (a, false) else (-a, true)
  let (v, negall) := if 0 ≤ b.toInt then (b, negall) else (-b, !negall)
  let prod := unsignedProd u v
  if negall then -prod else prod

end Model

/-! ## Words inside a quad -/

section Words

def wide (x : BitVec 32) : BitVec 64 := x.setWidth 64

def shifted (n : Nat) : BitVec 64 := BitVec.ofNat 64 (2 ^ n)

theorem toNat_uu (high low : BitVec 32) :
    (uu high low).toNat = high.toNat * 2 ^ 32 + low.toNat := by
  rw [uu, BitVec.toNat_append, ← Nat.shiftLeft_add_eq_or_of_lt low.isLt, Nat.shiftLeft_eq]

@[simp] theorem toNat_wide (x : BitVec 32) : (wide x).toNat = x.toNat :=
  (BitVec.toNat_setWidth ..).trans (Nat.mod_eq_of_lt (by have := x.isLt; omega))

theorem toNat_hhalf (x : BitVec 32) : (hhalf x).toNat = x.toNat / 2 ^ 16 := by
  rw [hhalf, BitVec.toNat_ushiftRight, Nat.shiftRight_eq_div_pow]

theorem toNat_lhalf (x : BitVec 32) : (lhalf x).toNat = x.toNat % 2 ^ 16 := by
  rw [lhalf]
  exact Nat.and_two_pow_sub_one_eq_mod x.toNat 16

theorem toNat_lhup (x : BitVec 32) : (lhup x).toNat = x.toNat % 2 ^ 16 * 2 ^ 16 := by
  rw [lhup, BitVec.toNat_shiftLeft, Nat.shiftLeft_eq]
  exact Nat.mul_mod_mul_right (2 ^ 16) x.toNat (2 ^ 16)

theorem toNat_carry (overflows : Bool) : (carry overflows).toNat = if overflows then 1 else 0 := by
  cases overflows <;> rfl

theorem toNat_mul_shifted (x : BitVec 32) {n : Nat} (isSmall : n ≤ 32) :
    (wide x * shifted n).toNat = x.toNat * 2 ^ n := by
  have isPow : 2 ^ n ≤ 2 ^ 32 := Nat.pow_le_pow_right (by decide) isSmall
  have isLess : x.toNat * 2 ^ n < 2 ^ 64 :=
    (Nat.mul_lt_mul_of_lt_of_le x.isLt isPow (by positivity)).trans_le (by decide)
  rw [BitVec.toNat_mul, toNat_wide, shifted, BitVec.toNat_ofNat,
    Nat.mod_eq_of_lt (isPow.trans_lt (by decide)), Nat.mod_eq_of_lt isLess]

theorem wide_shifted_mod (q : BitVec 64) (x : BitVec 32) :
    (q + wide x * shifted 16).toNat = (q.toNat + x.toNat * 2 ^ 16) % 2 ^ 64 := by
  rw [BitVec.toNat_add, toNat_mul_shifted x (by decide)]

theorem uu_add_lhup (high low x : BitVec 32) :
    uu (high + (hhalf x + carry (low + lhup x < low))) (low + lhup x) =
      uu high low + wide x * shifted 16 := by
  have hi := high.isLt
  have isLow := low.isLt
  have isX := x.isLt
  apply BitVec.eq_of_toNat_eq
  rw [wide_shifted_mod, toNat_uu, toNat_uu]
  simp only [toNat_carry, decide_eq_true_eq, BitVec.lt_def, BitVec.toNat_add, toNat_hhalf,
    toNat_lhup]
  split <;> omega

theorem uu_sub_lhup (high low x : BitVec 32) :
    uu (high - (hhalf x + carry (low - lhup x > low))) (low - lhup x) =
      uu high low - wide x * shifted 16 := by
  rw [eq_sub_iff_add_eq, ← uu_add_lhup]
  simp only [sub_add_cancel]

theorem uu_add (high low x : BitVec 32) :
    uu (if low + x < x then high + 1 else high) (low + x) = uu high low + wide x := by
  apply BitVec.eq_of_toNat_eq
  rw [BitVec.toNat_add, toNat_wide, toNat_uu, toNat_uu]
  simp only [BitVec.lt_def, BitVec.toNat_add]
  split
  · rw [BitVec.toNat_add, show (1 : BitVec 32).toNat = 1 from rfl]
    omega
  · omega

theorem uu_twice (x : BitVec 32) :
    uu (x + hhalf x) (lhup x) = wide x * shifted 32 + wide x * shifted 16 := by
  have isX := x.isLt
  apply BitVec.eq_of_toNat_eq
  rw [wide_shifted_mod, toNat_mul_shifted x (by decide), toNat_uu, BitVec.toNat_add, toNat_hhalf,
    toNat_lhup]
  omega

theorem wide_halves (x : BitVec 32) : wide x = wide (hhalf x) * shifted 16 + wide (lhalf x) := by
  apply BitVec.eq_of_toNat_eq
  rw [BitVec.toNat_add, toNat_mul_shifted _ (by decide), toNat_wide, toNat_wide, toNat_hhalf,
    toNat_lhalf]
  omega

theorem wide_mul {x y : BitVec 32} (isX : x.toNat < 2 ^ 16) (isY : y.toNat < 2 ^ 16) :
    wide (x * y) = wide x * wide y := by
  have isLess := mul_lt_mul'' isX isY
  apply BitVec.eq_of_toNat_eq
  rw [toNat_wide, BitVec.toNat_mul, BitVec.toNat_mul, toNat_wide, toNat_wide]
  omega

/-- A difference with its sign is exact, and it is no longer than the two words. -/
theorem diff_spec (x y : BitVec 32) :
    wide x - wide y = (if (diff x y).2 then -wide (diff x y).1 else wide (diff x y).1) ∧
      (diff x y).1.toNat ≤ max x.toNat y.toNat := by
  have exact {x y : BitVec 32} (below : y ≤ x) : wide (x - y) = wide x - wide y := by
    rw [eq_sub_iff_add_eq]
    apply BitVec.eq_of_toNat_eq
    rw [BitVec.toNat_add, toNat_wide, toNat_wide, toNat_wide, BitVec.toNat_sub_of_le below]
    have := BitVec.le_def.mp below
    omega
  unfold diff
  by_cases below : y ≤ x
  · rw [if_pos below, exact below, BitVec.toNat_sub_of_le below]
    exact ⟨rfl, by omega⟩
  · have above := BitVec.le_of_lt (BitVec.not_le.mp below)
    rw [if_neg below, exact above, BitVec.toNat_sub_of_le above]
    exact ⟨(neg_sub _ _).symm, by omega⟩

theorem diff_mul (x y z w : BitVec 32) : (wide x - wide y) * (wide z - wide w) =
      if (diff x y).2 ^^ (diff z w).2 then -(wide (diff x y).1 * wide (diff z w).1)
      else wide (diff x y).1 * wide (diff z w).1 := by
  rw [(diff_spec x y).1, (diff_spec z w).1]
  cases (diff x y).2 <;> cases (diff z w).2
  · rfl
  · exact mul_neg _ _
  · exact neg_mul _ _
  · exact neg_mul_neg _ _

end Words

theorem lmulq_eq (u v : BitVec 32) : lmulq u v = wide u * wide v := by
  have isHalf (x : BitVec 32) : (hhalf x).toNat < 2 ^ 16 ∧ (lhalf x).toNat < 2 ^ 16 := by
    rw [toNat_hhalf, toNat_lhalf]
    omega
  obtain ⟨isU1, isU0⟩ := isHalf u
  obtain ⟨isV1, isV0⟩ := isHalf v
  have isLow := wide_mul isU0 isV0
  have hi := wide_mul isU1 isV1
  have uBound := (diff_spec (hhalf u) (lhalf u)).2
  have vBound := (diff_spec (lhalf v) (hhalf v)).2
  have isMid := wide_mul (x := (diff (hhalf u) (lhalf u)).1) (y := (diff (lhalf v) (hhalf v)).1)
    (by omega) (by omega)
  have isSigned := diff_mul (hhalf u) (lhalf u) (lhalf v) (hhalf v)
  have isSquare : shifted 32 = shifted 16 * shifted 16 := by decide
  rw [wide_halves u, wide_halves v]
  unfold lmulq
  by_cases zero : hhalf u = 0 ∧ hhalf v = 0
  · simp only [if_pos zero]
    rw [zero.1, zero.2, show wide 0 = 0 from rfl, zero_mul, zero_add, zero_add]
    exact isLow
  · simp only [if_neg zero]
    rw [uu_add, uu_add_lhup]
    cases isNeg : (diff (hhalf u) (lhalf u)).2 ^^ (diff (lhalf v) (hhalf v)).2
    · rw [isNeg, if_neg Bool.false_ne_true] at isSigned
      rw [if_neg Bool.false_ne_true, uu_add_lhup, uu_twice, isLow, hi, isMid, isSquare]
      linear_combination -shifted 16 * isSigned
    · rw [isNeg, if_pos rfl] at isSigned
      rw [if_pos rfl, uu_sub_lhup, uu_twice, isLow, hi, isMid, isSquare]
      linear_combination -shifted 16 * isSigned

/-! ## The product of two quads -/

section Quads

/-- A word as the high word of a quad. -/
def raised (x : BitVec 32) : BitVec 64 := wide x * shifted 32

theorem raised_add (x y : BitVec 32) : raised (x + y) = raised x + raised y := by
  apply BitVec.eq_of_toNat_eq
  rw [BitVec.toNat_add]
  unfold raised
  rw [toNat_mul_shifted _ (by decide), toNat_mul_shifted _ (by decide),
    toNat_mul_shifted _ (by decide), BitVec.toNat_add]
  omega

theorem raised_neg (x : BitVec 32) : raised (-x) = -raised x := by
  rw [eq_neg_iff_add_eq_zero, ← raised_add, neg_add_cancel]
  rfl

theorem raised_mul (x y : BitVec 32) : raised (x * y) = wide x * wide y * shifted 32 := by
  apply BitVec.eq_of_toNat_eq
  rw [raised, toNat_mul_shifted _ (by decide), BitVec.toNat_mul, BitVec.toNat_mul,
    BitVec.toNat_mul, toNat_wide, toNat_wide, Nat.mod_mul_mod]
  exact (Nat.mul_mod_mul_right (2 ^ 32) _ (2 ^ 32)).symm

theorem uu_words (high low : BitVec 32) : uu high low = raised high + wide low := by
  apply BitVec.eq_of_toNat_eq
  rw [toNat_uu, BitVec.toNat_add, raised, toNat_mul_shifted _ (by decide), toNat_wide]
  omega

theorem quad_words (q : BitVec 64) : q = raised (highWord q) + wide (lowWord q) := by
  rw [← uu_words]
  refine BitVec.eq_of_getLsbD_eq fun i isBit => ?_
  simp only [uu, highWord, lowWord, BitVec.getLsbD_append]
  by_cases isLow : i < 32
  · simp [isLow]
  · have hi : i - 32 < 32 := by omega
    simp [isLow, hi, show 32 + (i - 32) = i by omega]

theorem unsignedProd_eq (u v : BitVec 64) : unsignedProd u v = u * v := by
  have isLow := quad_words (lmulq (lowWord u) (lowWord v))
  have isSigned := diff_mul (highWord u) (lowWord u) (lowWord v) (highWord v)
  -- the square of the weight of a high word is beyond the quad
  have isBeyond : shifted 32 * shifted 32 = 0 := by decide
  conv_rhs => rw [quad_words u, quad_words v]
  unfold unsignedProd
  by_cases zero : highWord u = 0 ∧ highWord v = 0
  · simp only [if_pos zero]
    rw [zero.1, zero.2, show raised 0 = 0 from rfl, zero_add, zero_add, lmulq_eq]
  · simp only [if_neg zero]
    have isMid : raised (if (diff (highWord u) (lowWord u)).2 ^^ (diff (lowWord v) (highWord v)).2
        then -((diff (highWord u) (lowWord u)).1 * (diff (lowWord v) (highWord v)).1)
        else (diff (highWord u) (lowWord u)).1 * (diff (lowWord v) (highWord v)).1) =
        (wide (highWord u) - wide (lowWord u)) * (wide (lowWord v) - wide (highWord v)) *
          shifted 32 := by
      rw [isSigned]
      split
      · rw [raised_neg, raised_mul, neg_mul]
      · exact raised_mul _ _
    rw [uu_words, raised_add, raised_add, raised_add, raised_mul, isMid]
    rw [lmulq_eq] at isLow ⊢
    unfold raised at isLow ⊢
    linear_combination -(shifted 32 + 1) * isLow -
      (wide (highWord (wide (lowWord u) * wide (lowWord v))) +
        wide (highWord u) * wide (highWord v)) * isBeyond

end Quads

theorem muldi3_eq (a b : BitVec 64) : muldi3 a b = a * b := by
  unfold muldi3
  by_cases isA : 0 ≤ a.toInt <;> by_cases isB : 0 ≤ b.toInt
  all_goals simp only [isA, isB, if_false, unsignedProd_eq]
  · rfl
  · exact (neg_eq_iff_eq_neg.mpr (mul_neg a b))
  · exact (neg_eq_iff_eq_neg.mpr (neg_mul a b))
  · exact neg_mul_neg a b

/-- Both products are the mathematical ones, `__muldi3` modulo `2^64`. -/
theorem multiplication_exact :
    (∀ a b : BitVec 64, (muldi3 a b).toInt ≡ a.toInt * b.toInt [ZMOD 2 ^ 64]) ∧
      ∀ u v : BitVec 32, (lmulq u v).toNat = u.toNat * v.toNat := by
  constructor
  · intro a b
    rw [muldi3_eq, BitVec.toInt_mul]
    exact Int.bmod_emod
  · intro u v
    have isProduct := Nat.mul_lt_mul'' u.isLt v.isLt
    rw [lmulq_eq, BitVec.toNat_mul]
    exact Nat.mod_eq_of_lt isProduct

end NetBSD.Libc
