import Mathlib.Algebra.Order.Ring.Nat
import Mathlib.Tactic.Common
import Mathlib.Logic.Function.Basic

/-!
Owns 32-bit words as sets of bit positions: setting and clearing one bit by a
mask, and the lowest clear bit. Nothing here names a program.
-/

namespace NetBSD.Arith

open Function BitVec

/-- Four bits count to sixteen. -/
instance neZeroSixteen : NeZero 16 := ⟨Nat.succ_ne_zero 15⟩

def bitAt (word : UInt32) (position : Nat) : Bool := word.toBitVec.getLsbD position

def bitMask (position : Nat) : UInt32 := 1 <<< UInt32.ofNat position

variable {position : Nat}

theorem toBitVec_bitMask (lt : position < 32) :
    (bitMask position).toBitVec = BitVec.twoPow 32 position := by
  apply eq_of_toNat_eq
  have v : (bitMask position).toNat = 2 ^ position % 2 ^ 32 := by
    have shift : (UInt32.ofNat position).toNat % 32 = position := by
      rw [UInt32.toNat_ofNat']
      omega
    rw [bitMask, UInt32.toNat_shiftLeft, shift, Nat.shiftLeft_eq, UInt32.toNat_one, Nat.one_mul]
  rw [toNat_twoPow]
  exact v

theorem bitAt_set (word : UInt32) (lt : position < 32) (i : Nat) :
    bitAt (word ||| bitMask position) i = (bitAt word i || decide (i = position)) := by
  unfold bitAt
  rw [UInt32.toBitVec_or, toBitVec_bitMask lt]
  by_cases same : i = position
  · simp [same, lt]
  · have oth : ¬ position = i := fun reversed => same reversed.symm
    simp [same, oth]

variable {i : Nat}

theorem bitAt_clear (word : UInt32) (lt : position < 32) (iInside : i < 32) :
    bitAt (word &&& ~~~bitMask position) i = (bitAt word i && !decide (i = position)) := by
  unfold bitAt
  rw [UInt32.toBitVec_and, UInt32.toBitVec_not, toBitVec_bitMask lt, getLsbD_and,
    getLsbD_not, getLsbD_twoPow]
  by_cases same : i = position
  · simp [same]
  · have oth : ¬ position = i := fun reversed => same reversed.symm
    simp [same, oth, iInside]

theorem eq_of_bitAt {left right : UInt32} (same : ∀ i < 32, bitAt left i = bitAt right i) :
    left = right := by
  apply UInt32.toBitVec_inj.mp
  apply eq_of_getLsbD_eq
  exact same

theorem set_eq_self_iff (word : UInt32) (lt : position < 32) :
    word = word ||| bitMask position ↔ bitAt word position = true := by
  constructor
  · intro same
    rw [same, bitAt_set word lt]
    simp
  · intro isSet
    apply eq_of_bitAt
    intro i _
    rw [bitAt_set word lt]
    by_cases same : i = position <;> simp [same, isSet]

theorem bitAt_allOnes (lt : i < 32) : bitAt 0xffffffff i = true := by
  have ones : (0xffffffff : UInt32).toBitVec = BitVec.allOnes 32 := by decide
  rw [bitAt, ones, getLsbD_allOnes, decide_eq_true lt]

variable {word : UInt32}

theorem exists_clear_of_ne_allOnes (notFull : word ≠ 0xffffffff) :
    ∃ i < 32, bitAt word i = false := by
  by_contra none
  push Not at none
  refine notFull (eq_of_bitAt fun i lt => ?_)
  rw [bitAt_allOnes lt]
  simpa using none i lt

/-- `ffs32`: one more than the position of the lowest set bit, or 0. -/
def ffs32 (word : UInt32) : Nat :=
  match (List.range 32).find? (bitAt word) with
  | some position => position + 1
  | none => 0

theorem bitAt_not (lt : i < 32) : bitAt (~~~word) i = !bitAt word i := by
  unfold bitAt
  rw [UInt32.toBitVec_not, getLsbD_not, decide_eq_true lt, Bool.true_and]

theorem ffs32_not_spec (notFull : word ≠ 0xffffffff) :
    ffs32 (~~~word) - 1 < 32 ∧ bitAt word (ffs32 (~~~word) - 1) = false := by
  obtain ⟨i, lt, clr⟩ := exists_clear_of_ne_allOnes notFull
  unfold ffs32
  cases found : (List.range 32).find? (bitAt (~~~word)) with
  | none =>
    have missed := List.find?_eq_none.mp found i (List.mem_range.mpr lt)
    rw [bitAt_not lt, clr] at missed
    exact absurd rfl missed
  | some position =>
    have positionInside := List.mem_range.mp (List.mem_of_find?_eq_some found)
    have isSet := List.find?_some found
    rw [bitAt_not positionInside] at isSet
    exact ⟨positionInside, by simpa using isSet⟩

/-!
### Bitmaps

Bitmaps made of 32-bit words: the bit at a number, setting and clearing it,
and what it means to have found the least clear bit of a range. Nothing here
names a program.
-/

def mapBit (map : Nat → UInt32) (n : Nat) : Bool := bitAt (map (n / 32)) (n % 32)

def setBit (map : Nat → UInt32) (n : Nat) : Nat → UInt32 :=
  update map (n / 32) (map (n / 32) ||| bitMask (n % 32))

def clearBit (map : Nat → UInt32) (n : Nat) : Nat → UInt32 :=
  update map (n / 32) (map (n / 32) &&& ~~~bitMask (n % 32))

def LeastClear (bit : Nat → Bool) (start stop : Nat) : Option Nat → Prop
  | some n => start ≤ n ∧ n < stop ∧ bit n = false ∧ ∀ m, start ≤ m → m < n → bit m = true
  | none => ∀ m, start ≤ m → m < stop → bit m = true

theorem LeastClear.extend {bit : Nat → Bool} {beg middle stop : Nat} {res : Option Nat}
    (least : LeastClear bit middle stop res) (ahead : beg ≤ middle)
    (cov : ∀ m, beg ≤ m → m < middle → bit m = true) : LeastClear bit beg stop res := by
  cases res with
  | none =>
    intro m fst last
    by_cases low : m < middle
    · exact cov m fst low
    · exact least m (by omega) last
  | some n =>
    obtain ⟨above, lt, clr, prev⟩ := least
    refine ⟨by omega, lt, clr, fun m fst last => ?_⟩
    by_cases low : m < middle
    · exact cov m fst low
    · exact prev m (by omega) last

section Bits

variable {map : Nat → UInt32} {n m w : Nat}

theorem mapBit_setBit : mapBit (setBit map n) m = (mapBit map m || decide (m = n)) := by
  unfold mapBit setBit
  by_cases eqWord : m / 32 = n / 32
  · rw [eqWord, update_self, bitAt_set _ (Nat.mod_lt n (by omega))]
    congr 2
    rw [eq_iff_iff]
    omega
  · rw [update_of_ne eqWord]
    have diff : m ≠ n := by
      rintro rfl
      exact eqWord rfl
    simp [diff]

theorem mapBit_clearBit : mapBit (clearBit map n) m = (mapBit map m && !decide (m = n)) := by
  unfold mapBit clearBit
  by_cases eqWord : m / 32 = n / 32
  · rw [eqWord, update_self,
      bitAt_clear _ (Nat.mod_lt n (by omega)) (Nat.mod_lt m (by omega))]
    congr 3
    rw [eq_iff_iff]
    omega
  · rw [update_of_ne eqWord]
    have diff : m ≠ n := by
      rintro rfl
      exact eqWord rfl
    simp [diff]

theorem setBit_of_ne (oth : w ≠ n / 32) : setBit map n w = map w := update_of_ne oth _ _

theorem clearBit_of_ne (oth : w ≠ n / 32) : clearBit map n w = map w :=
  update_of_ne oth _ _

theorem bitAt_eq_mapBit (lt : i < 32) : bitAt (map w) i = mapBit map (w * 32 + i) := by
  unfold mapBit
  rw [show (w * 32 + i) / 32 = w by omega, show (w * 32 + i) % 32 = i by omega]

theorem word_full_iff : map w = 0xffffffff ↔ ∀ i < 32, mapBit map (w * 32 + i) = true := by
  constructor
  · intro isFull i lt
    rw [← bitAt_eq_mapBit lt, isFull]
    exact bitAt_allOnes lt
  · intro allSet
    apply eq_of_bitAt
    intro i lt
    rw [bitAt_eq_mapBit lt, allSet i lt, bitAt_allOnes lt]

theorem word_zero_iff : map w = 0 ↔ ∀ i < 32, mapBit map (w * 32 + i) = false := by
  have zeros : ∀ i, bitAt 0 i = false := by
    simp [bitAt]
  constructor
  · intro zero i lt
    rw [← bitAt_eq_mapBit lt, zero]
    exact zeros i
  · intro allClear
    apply eq_of_bitAt
    intro i lt
    rw [bitAt_eq_mapBit lt, allClear i lt, zeros]

theorem bitAt_low {k : Nat} (pos : 0 < i) (lt : i < 32) (kInside : k < 32) :
    bitAt ((0xffffffff : UInt32) >>> UInt32.ofNat (32 - i)) k = decide (k < i) := by
  have all : ∀ i < 32, 0 < i → ∀ k < 32,
      bitAt ((0xffffffff : UInt32) >>> UInt32.ofNat (32 - i)) k = decide (k < i) := by decide +kernel
  exact all i lt pos k kInside

theorem bitAt_or (left right : UInt32) (i : Nat) :
    bitAt (left ||| right) i = (bitAt left i || bitAt right i) := by
  unfold bitAt
  rw [UInt32.toBitVec_or, getLsbD_or]

end Bits

theorem ffs32_not_least (notFull : word ≠ 0xffffffff) :
    LeastClear (bitAt word) 0 32 (some (ffs32 (~~~word) - 1)) := by
  obtain ⟨lt, clr⟩ := ffs32_not_spec notFull
  refine ⟨Nat.zero_le _, lt, clr, ?_⟩
  intro m _ below_
  unfold ffs32 at below_
  cases found : (List.range 32).find? (bitAt (~~~word)) with
  | none => simp [found] at below_
  | some position =>
    simp only [found] at below_
    have positionInside := List.mem_range.mp (List.mem_of_find?_eq_some found)
    obtain ⟨_, prev, s', split, missed⟩ := List.find?_eq_some_iff_append.mp found
    have isAt : prev.length = position := by
      have := congrArg (fun l => l[prev.length]?) split
      simp only [List.getElem?_append_right (le_refl _), Nat.sub_self]
        at this
      obtain ⟨short, v⟩ := getElem?_eq_some_iff.mp this
      simpa using v
    have isIn : m ∈ prev := by
      have here : (List.range 32)[m]? = some m := by
        rw [List.getElem?_range (by omega)]
      rw [split, List.getElem?_append_left (by omega)] at here
      exact List.mem_of_getElem? here
    have notThere := missed m isIn
    rw [bitAt_not (by omega)] at notThere
    simpa using notThere

end NetBSD.Arith
