import Mathlib.Data.Nat.Count
import NetBSD.Arith.WordBits

/-!
Owns sets of numbers given by their membership test: how many there are in a range,
a range added or taken out, and a set made of equal pieces that follow each other.
Nothing here names a program.
-/

namespace NetBSD.Arith

open List Nat

def countIn (set : Nat → Bool)
    (start n : Nat) : Nat := Nat.count (fun k => set (start + k) = true) n

def withRange (set : Nat → Bool) (start n : Nat) : Nat → Bool := fun x =>
  set x || decide (start ≤ x ∧ x < start + n)

def withoutRange (set : Nat → Bool) (start n : Nat) : Nat → Bool := fun x =>
  set x && !decide (start ≤ x ∧ x < start + n)

section Count

variable {set other : Nat → Bool} {beg m n : Nat}

theorem countIn_add : countIn set beg (m + n) = countIn set beg m + countIn set (beg + m) n := by
  unfold countIn
  rw [count_add]
  simp only [add_assoc]

theorem countIn_congr {start' : Nat} (same : ∀ k < n, set (beg + k) = other (start' + k)) :
    countIn set beg n = countIn other start' n := by
  induction n with
  | zero => rfl
  | succ n ih =>
    have tl := ih fun k ins => same k (by omega)
    unfold countIn at tl ⊢
    rw [count_succ, count_succ, tl, same n (by omega)]

theorem countIn_le : countIn set beg n ≤ n := count_le _

theorem countIn_eq_zero (no : ∀ k < n, set (beg + k) = false) : countIn set beg n = 0 := by
  induction n with
  | zero => rfl
  | succ n ih =>
    have tl := ih fun k ins => no k (by omega)
    unfold countIn at tl ⊢
    rw [count_succ, tl, no n (by omega)]
    rfl

theorem countIn_eq_all (all : ∀ k < n, set (beg + k) = true) : countIn set beg n = n := by
  induction n with
  | zero => rfl
  | succ n ih =>
    have tl := ih fun k ins => all k (by omega)
    unfold countIn at tl ⊢
    rw [count_succ, tl, all n (by omega)]
    rfl

theorem none_of_countIn_eq_zero (zero : countIn set beg n = 0) {k : Nat} (ins : k < n) :
    set (beg + k) = false := by
  obtain ⟨tl, rfl⟩ : ∃ tl, n = k + (1 + tl) := ⟨n - k - 1, by omega⟩
  rw [countIn_add, countIn_add] at zero
  have one : countIn set (beg + k) 1 = 0 := by omega
  unfold countIn at one
  rw [count_succ] at one
  by_contra isIn
  simp [isIn] at one

theorem all_of_countIn_eq (isAll : countIn set beg n = n) {k : Nat} (ins : k < n) :
    set (beg + k) = true := by
  obtain ⟨tl, rfl⟩ : ∃ tl, n = k + (1 + tl) := ⟨n - k - 1, by omega⟩
  rw [countIn_add, countIn_add] at isAll
  have fst : countIn set beg k ≤ k := countIn_le
  have last : countIn set (beg + k + 1) tl ≤ tl := countIn_le
  have sgl : countIn set (beg + k) 1 ≤ 1 := countIn_le
  have one : countIn set (beg + k) 1 = 1 := by omega
  unfold countIn at one
  rw [count_succ] at one
  by_contra isOut
  simp [isOut] at one

theorem countIn_split (set : Nat → Bool) {whole : Nat} (ins : beg + n ≤ whole) :
    countIn set 0 whole =
      countIn set 0 beg + countIn set beg n + countIn set (beg + n) (whole - (beg + n)) := by
  have split : whole = beg + (n + (whole - (beg + n))) := by omega
  rw [split, countIn_add, countIn_add, zero_add, ← split, add_assoc]

theorem countIn_withoutRange (set : Nat → Bool) {whole : Nat} (ins : beg + n ≤ whole) :
    countIn (withoutRange set beg n) 0 whole + countIn set beg n = countIn set 0 whole := by
  have prev : countIn (withoutRange set beg n) 0 beg = countIn set 0 beg := by
    apply countIn_congr
    intro k less
    have out : ¬ (beg ≤ 0 + k ∧ 0 + k < beg + n) := by omega
    simp only [withoutRange, out, decide_false, Bool.not_false, Bool.and_true]
  have bnd : countIn (withoutRange set beg n) beg n = 0 := by
    apply countIn_eq_zero
    intro k less
    simp [withoutRange, less]
  have s' : countIn (withoutRange set beg n) (beg + n) (whole - (beg + n)) =
      countIn set (beg + n) (whole - (beg + n)) := by
    apply countIn_congr
    intro k less
    have out : ¬ (beg ≤ beg + n + k ∧ beg + n + k < beg + n) := by omega
    simp only [withoutRange, out, decide_false, Bool.not_false, Bool.and_true]
  rw [countIn_split _ ins, countIn_split set ins, s']
  omega

theorem countIn_withRange {whole : Nat} (ins : beg + n ≤ whole)
    (apart : ∀ k < n, set (beg + k) = false) :
    countIn (withRange set beg n) 0 whole = countIn set 0 whole + n := by
  have undone : withoutRange (withRange set beg n) beg n = set := by
    funext x
    unfold withoutRange withRange
    by_cases isIn : beg ≤ x ∧ x < beg + n
    · have clr := apart (x - beg) (by omega)
      rw [add_sub_of_le isIn.1] at clr
      simp [clr]
    · simp [isIn]
  have bnd : countIn (withRange set beg n) beg n = n := by
    apply countIn_eq_all
    intro k less
    simp [withRange, less]
  have cnt := countIn_withoutRange (withRange set beg n) ins
  rw [undone, bnd] at cnt
  exact cnt.symm

end Count

section Pieces

universe u

variable {α : Type u} (member : α → Nat → Bool) (size : Nat)

def joined : List α → Nat → Bool
  | [], _ => false
  | piece :: rest, x => if x < size then member piece x else joined rest (x - size)

/-- Each piece has what it needs in the room that is left for it: all of its size, or the rest in
the last one. -/
def Pieces (holds : α → Nat → Prop) : List α → Nat → Prop
  | [], room => room = 0
  | piece :: rest, room => 0 < room ∧ holds piece (min room size) ∧ Pieces holds rest (room - size)

variable {member size}

variable {holds : α → Nat → Prop} {pieces : List α} {rm : Nat}

theorem Pieces.imp {weaker : α → Nat → Prop} (all : Pieces size holds pieces rm)
    (implies : ∀ piece rm, holds piece rm → weaker piece rm) :
    Pieces size weaker pieces rm := by
  induction pieces generalizing rm with
  | nil => exact all
  | cons piece tl ih =>
    obtain ⟨pos, fst, oths⟩ := all
    exact ⟨pos, implies piece _ fst, ih oths⟩

theorem Pieces.map {β : Type u} {other : β → Nat → Prop} {f : α → β}
    (all : Pieces size holds pieces rm)
    (implies : ∀ piece rm, holds piece rm → other (f piece) rm) :
    Pieces size other (pieces.map f) rm := by
  induction pieces generalizing rm with
  | nil => exact all
  | cons piece tl ih =>
    obtain ⟨pos, fst, oths⟩ := all
    exact ⟨pos, implies piece _ fst, ih oths⟩

theorem Pieces.exists_of_mem (all : Pieces size holds pieces rm) {piece : α}
    (isIn : piece ∈ pieces) : ∃ rm, holds piece rm := by
  induction pieces generalizing rm with
  | nil => cases isIn
  | cons fst tl ih =>
    rcases mem_cons.mp isIn with rfl | mem
    · exact ⟨_, all.2.1⟩
    · exact ih all.2.2 mem

variable (member size) in
theorem joined_append (pre back : List α) (x : Nat) : joined member size (pre ++ back) x =
      if x < pre.length * size then joined member size pre x
      else joined member size back (x - pre.length * size) := by
  induction pre generalizing x with
  | nil => simp
  | cons piece tl ih =>
    have longer : (piece :: tl).length * size = size + tl.length * size := by
      rw [length_cons, succ_mul, add_comm]
    rw [cons_append, joined, joined, ih, longer]
    by_cases fst : x < size
    · rw [if_pos fst, if_pos (by omega), if_pos fst]
    · rw [if_neg fst, if_neg fst]
      by_cases bnd : x - size < tl.length * size
      · rw [if_pos bnd, if_pos (by omega)]
      · rw [if_neg bnd, if_neg (by omega), Nat.sub_sub]

theorem lt_of_joined (all : Pieces size holds pieces rm) {x : Nat}
    (isIn : joined member size pieces x = true)
    (inRoom : ∀ piece rm x, holds piece rm → member piece x = true → x < rm) : x < rm := by
  induction pieces generalizing rm x with
  | nil => cases isIn
  | cons piece tl ih =>
    obtain ⟨_, fst, oths⟩ := all
    unfold joined at isIn
    split at isIn
    · have := inRoom piece _ x fst isIn
      omega
    · have := ih oths isIn
      omega

theorem Pieces.length_le {n : Nat} (all : Pieces size holds pieces rm) (fits : rm ≤ n * size) :
    pieces.length ≤ n := by
  induction pieces generalizing rm n with
  | nil => exact zero_le n
  | cons piece tl ih =>
    obtain ⟨pos, _, oths⟩ := all
    cases n with
    | zero => omega
    | succ n =>
      rw [succ_mul] at fits
      have fewer : rm - size ≤ n * size := by omega
      have := ih oths fewer
      rw [length_cons]
      omega

theorem Pieces.room_le (all : Pieces size holds pieces rm) : rm ≤ pieces.length * size := by
  induction pieces generalizing rm with
  | nil =>
    rw [show rm = 0 from all]
    exact zero_le _
  | cons piece tl ih =>
    have := ih all.2.2
    rw [length_cons, succ_mul]
    omega

theorem Pieces.div_le {a : Nat} (all : Pieces size holds pieces rm) (ins : a ≤ rm) :
    a / size ≤ pieces.length := by
  have := all.room_le
  refine Nat.div_le_of_le_mul ?_
  rw [Nat.mul_comm]
  omega

theorem Pieces.split (all : Pieces size holds pieces rm) (k : Nat) (bnd : k ≤ pieces.length) :
    Pieces size holds (pieces.drop k) (rm - k * size) ∧
      ∀ last, Pieces size holds last (rm - k * size) →
        Pieces size holds (pieces.take k ++ last) rm := by
  induction k generalizing pieces rm with
  | zero => simpa using all
  | succ k ih =>
    cases pieces with
    | nil => simp at bnd
    | cons piece tl =>
      obtain ⟨pos, fst, oths⟩ := all
      have short : k ≤ tl.length := by simpa using bnd
      obtain ⟨back, replace⟩ := ih oths short
      have same : rm - (k + 1) * size = rm - size - k * size := by
        rw [succ_mul]
        omega
      rw [same]
      exact ⟨back, fun last lst => ⟨pos, fst, replace last lst⟩⟩

section Ranges

variable {piece piece' : α} {tl rest' : List α} {a n v : Nat}

section

variable (ins : a < size) (isPart : v = min (size - a) n)

include ins isPart

theorem joined_withRange (fst : ∀ x, member piece' x = withRange (member piece) a v x)
    (oths : ∀ x, joined member size rest' x = withRange (joined member size tl) 0 (n - v) x)
    (x : Nat) :
    joined member size (piece' :: rest') x = withRange (joined member size (piece :: tl)) a n x := by
  unfold withRange at fst oths ⊢
  rw [joined, joined]
  split
  · rw [fst]
    congr 1
    exact decide_eq_decide.mpr (by omega)
  · rw [oths]
    congr 1
    exact decide_eq_decide.mpr (by omega)

theorem joined_withoutRange (fst : ∀ x, member piece' x = withoutRange (member piece) a v x)
    (oths : ∀ x, joined member size rest' x = withoutRange (joined member size tl) 0 (n - v) x)
    (x : Nat) : joined member size (piece' :: rest') x =
      withoutRange (joined member size (piece :: tl)) a n x := by
  unfold withoutRange at fst oths ⊢
  rw [joined, joined]
  split
  · rw [fst]
    congr 2
    exact decide_eq_decide.mpr (by omega)
  · rw [oths]
    congr 2
    exact decide_eq_decide.mpr (by omega)

theorem countIn_joined : countIn (member piece) a v + countIn (joined member size tl) 0 (n - v) =
      countIn (joined member size (piece :: tl)) a n := by
  have split : n = v + (n - v) := by omega
  have fst : countIn (joined member size (piece :: tl)) a v = countIn (member piece) a v :=
    countIn_congr fun k less => by rw [joined, if_pos (by omega)]
  have snd : countIn (joined member size (piece :: tl)) (a + v) (n - v) =
      countIn (joined member size tl) 0 (n - v) := by
    refine countIn_congr fun k less => ?_
    rw [joined, if_neg (by omega)]
    congr 1
    omega
  rw [split, countIn_add, fst, ← split, snd]

end

theorem joined_take_append {last : List α} {k : Nat} (bnd : k ≤ pieces.length) (x : Nat) :
    joined member size (pieces.take k ++ last) x = if x < k * size then joined member size pieces x
      else joined member size last (x - k * size) := by
  have len : (pieces.take k).length = k := by
    rw [length_take]
    omega
  have whole := joined_append member size (pieces.take k) (pieces.drop k) x
  rw [take_append_drop, len] at whole
  rw [joined_append, len]
  split
  · rename_i low
    rw [whole, if_pos low]
  · rfl

theorem joined_drop {k : Nat} (bnd : k ≤ pieces.length) (x : Nat) :
    joined member size (pieces.drop k) x = joined member size pieces (k * size + x) := by
  have whole : joined member size (pieces.take k ++ pieces.drop k) (k * size + x) = _ :=
    joined_take_append bnd (k * size + x)
  rw [take_append_drop, if_neg (by omega), Nat.add_sub_cancel_left] at whole
  exact whole.symm

end Ranges

end Pieces

/-!
### Words and masks

Ranges of bits in a 32-bit word: the bits of shifted words and of masks, and
the lowest set bit, which is what `word & (word - 1)` clears. Nothing here names a
program.
-/

section Shift

variable {word mask : UInt32} {n k : Nat}

theorem bitAt_eq_testBit (word : UInt32) (k : Nat) : bitAt word k = word.toNat.testBit k := rfl

theorem bitAt_of_le (out : 32 ≤ k) : bitAt word k = false :=
  BitVec.getLsbD_of_ge _ _ out

theorem bitAt_zero (k : Nat) : bitAt 0 k = false := by
  simp [bitAt]

theorem toNat_shift (ins : n < 32) : (UInt32.ofNat n).toNat % 32 = n := by
  rw [UInt32.toNat_ofNat']
  omega

theorem bitAt_shiftRight (ins : n < 32) :
    bitAt (word >>> UInt32.ofNat n) k = bitAt word (n + k) := by
  rw [bitAt_eq_testBit, UInt32.toNat_shiftRight, toNat_shift ins, testBit_shiftRight]
  rfl

theorem bitAt_shiftLeft (ins : n < 32) :
    bitAt (word <<< UInt32.ofNat n) k = (decide (k < 32) && (decide (n ≤ k) && bitAt word (k - n))) := by
  rw [bitAt_eq_testBit, UInt32.toNat_shiftLeft, toNat_shift ins, testBit_mod_two_pow,
    testBit_shiftLeft]
  rfl

theorem bitAt_and (word mask : UInt32) (k : Nat) :
    bitAt (word &&& mask) k = (bitAt word k && bitAt mask k) := by
  unfold bitAt
  rw [UInt32.toBitVec_and, BitVec.getLsbD_and]

theorem bitAt_andNot (ins : k < 32) :
    bitAt (word &&& ~~~mask) k = (bitAt word k && !bitAt mask k) := by
  rw [bitAt_and, bitAt_not ins]

theorem and_eq_zero_iff : word &&& mask = 0 ↔ ∀ k < 32, bitAt mask k = true → bitAt word k = false := by
  constructor
  · intro zero k _ inMask
    have both := bitAt_and word mask k
    rw [zero, bitAt_zero, inMask, Bool.and_true] at both
    exact both.symm
  intro apart
  apply eq_of_bitAt
  intro k ins
  rw [bitAt_and, bitAt_zero]
  cases inMask : bitAt mask k with
  | false => rw [Bool.and_false]
  | true => rw [apart k ins inMask, Bool.false_and]

theorem and_eq_right_iff :
    word &&& mask = mask ↔ ∀ k < 32, bitAt mask k = true → bitAt word k = true := by
  constructor
  · intro same k _ inMask
    have both := bitAt_and word mask k
    rw [same, inMask, Bool.and_true] at both
    exact both.symm
  intro cov
  apply eq_of_bitAt
  intro k ins
  rw [bitAt_and]
  cases inMask : bitAt mask k with
  | false => rw [Bool.and_false]
  | true => rw [cov k ins inMask, Bool.and_true]

theorem exists_bitAt_of_ne_zero (nz : word ≠ 0) : ∃ k < 32, bitAt word k = true := by
  by_contra none
  push Not at none
  refine nz (eq_of_bitAt fun k ins => ?_)
  rw [bitAt_zero]
  simpa using none k ins

end Shift

section Lowest

/-- The number below a number that is not 0 differs from it in the lowest set bit and below. -/
theorem testBit_and_pred (x : Nat) (pos : x ≠ 0) :
    ∃ i, x.testBit i = true ∧ ∀ k, (x &&& (x - 1)).testBit k = (x.testBit k && decide (k ≠ i)) := by
  induction x using Nat.strongRecOn with
  | ind x ih =>
    by_cases odd : x % 2 = 1
    · refine ⟨0, by simp [odd], fun k => ?_⟩
      rw [testBit_and]
      cases k with
      | zero =>
        have even : (x - 1) % 2 = 0 := by omega
        simp [even]
      | succ k =>
        have sameHalf : (x - 1) / 2 = x / 2 := by omega
        simp [testBit_succ, sameHalf]
    obtain ⟨i, isSet, oths⟩ := ih (x / 2) (by omega) (by omega)
    refine ⟨i + 1, by rw [testBit_succ]; exact isSet, fun k => ?_⟩
    rw [testBit_and]
    cases k with
    | zero =>
      have even : x % 2 = 0 := by omega
      simp [even]
    | succ k =>
      have half : (x - 1) / 2 = x / 2 - 1 := by omega
      rw [testBit_succ, testBit_succ, half, ← testBit_and, oths k]
      simp

theorem bitAt_and_pred {word : UInt32} (nz : word ≠ 0) : ∃ i < 32, bitAt word i = true ∧
      ∀ k, bitAt (word &&& (word - 1)) k = (bitAt word k && decide (k ≠ i)) := by
  have pos : word.toNat ≠ 0 := fun zero => nz (UInt32.toNat_inj.mp zero)
  obtain ⟨i, isSet, oths⟩ := testBit_and_pred word.toNat pos
  have pred : (word - 1).toNat = word.toNat - 1 := by
    rw [UInt32.toNat_sub_of_le _ _ (by rw [UInt32.le_iff_toNat_le, UInt32.toNat_one]; omega),
      UInt32.toNat_one]
  refine ⟨i, ?_, isSet, fun k => ?_⟩
  · by_contra out
    rw [← bitAt_eq_testBit, bitAt_of_le (by omega)] at isSet
    cases isSet
  · rw [bitAt_eq_testBit, UInt32.toNat_and, pred]
    exact oths k

theorem countIn_and_pred {word : UInt32} (nz : word ≠ 0) :
    countIn (bitAt (word &&& (word - 1))) 0 32 + 1 = countIn (bitAt word) 0 32 := by
  obtain ⟨i, ins, isSet, oths⟩ := bitAt_and_pred nz
  have same : countIn (bitAt (word &&& (word - 1))) 0 32 =
      countIn (withoutRange (bitAt word) i 1) 0 32 := by
    apply countIn_congr
    intro k _
    rw [oths]
    congr 1
    rw [← decide_not]
    exact decide_eq_decide.mpr (by omega)
  have one : countIn (bitAt word) i 1 = 1 := by
    apply countIn_eq_all
    intro k less
    obtain rfl : k = 0 := by omega
    exact isSet
  have whole : countIn (withoutRange (bitAt word) i 1) 0 32 + countIn (bitAt word) i 1 =
      countIn (bitAt word) 0 32 := countIn_withoutRange (bitAt word) (by omega)
  omega

end Lowest

end NetBSD.Arith
