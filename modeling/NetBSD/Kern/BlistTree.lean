import NetBSD.Arith.BitRange
import NetBSD.Kern.Blist

/-!
Owns the leaves of a blist: what allocating, freeing and filling do to the set of
bits of one bitmap.
-/

namespace NetBSD.Kern.BlockList

open NetBSD.Arith

/-- What an allocation from the block `blk` on does to a set of free blocks. -/
def Allocates (set after : Nat → Bool) (blk count : Nat) : Option Nat → Prop
  | none => ∀ x, after x = set x
  | some r => ∃ start, r = blk + start ∧ (∀ k < count, set (start + k) = true) ∧
      ∀ x, after x = withoutRange set start count x

/-- Free blocks that follow each other in one leaf. -/
def HasRun (set : Nat → Bool) (count : Nat) : Prop :=
  ∃ start, start % 32 + count ≤ 32 ∧ ∀ k < count, set (start + k) = true

section Mask

variable {n count : Nat}

theorem bitAt_ones {k : Nat} : bitAt allOnes k = decide (k < 32) := by
  by_cases lt : k < 32
  · rw [decide_eq_true lt]
    exact bitAt_allOnes lt
  · rw [decide_eq_false lt, bitAt_of_le (by omega)]

theorem shiftRight_of_lt (lt : n < 32) :
    shiftRight allOnes n = some (allOnes >>> UInt32.ofNat n) := by
  rw [shiftRight, if_pos ⟨by omega, by omega⟩, Int.toNat_natCast]

theorem bitAt_rangeMask (lt : n < 32) (pos : 0 < n + count) (fits : n + count ≤ 32) :
    ∃ mask, rangeMask n count = some mask ∧ ∀ k, bitAt mask k = decide (n ≤ k ∧ k < n + count) := by
  have shift : (32 - (count : Int) - n) = ((32 - count - n : Nat) : Int) := by omega
  refine ⟨_, by rw [rangeMask, shift, shiftRight_of_lt (by omega)]; rfl, fun k => ?_⟩
  rw [bitAt_and, bitAt_shiftLeft lt, bitAt_shiftRight (by omega), bitAt_ones, bitAt_ones]
  simp only [← Bool.decide_and]
  exact decide_eq_decide.mpr (by omega)

end Mask

section Alloc

variable {word : UInt32} {count : Nat}

/-- Halving the mask isolates one free bit of the word. -/
theorem bitLoop_spec (e : Nat) (sml : e ≤ 4) {orig mask : UInt32} {r : Nat}
    (isMask : ∀ k, bitAt mask k = decide (k < 2 ^ e))
    (isPart : ∀ k, bitAt orig k = bitAt word (r + k))
    (some_ : ∃ k < 2 * 2 ^ e, bitAt orig k = true) :
    bitAt word (bitLoop (e + 2) orig mask (2 ^ e) r) = true := by
  have power : 2 ^ e ≤ 2 ^ 4 := Nat.pow_le_pow_right (by omega) sml
  -- the part that is looked at next, and where it starts
  obtain ⟨part, beg, next', isPartNext, someNext⟩ : ∃ part beg,
      (if orig &&& mask = 0 then (orig >>> UInt32.ofNat (2 ^ e), r + 2 ^ e) else (orig, r)) =
        (part, beg) ∧
      (∀ k, bitAt part k = bitAt word (beg + k)) ∧ ∃ k < 2 ^ e, bitAt part k = true := by
    obtain ⟨k, less, isSet⟩ := some_
    by_cases lowEmpty : orig &&& mask = 0
    · rw [if_pos lowEmpty]
      have shd : ∀ i, bitAt (orig >>> UInt32.ofNat (2 ^ e)) i = bitAt orig (2 ^ e + i) :=
        fun i => bitAt_shiftRight (by omega)
      refine ⟨_, _, rfl, fun i => ?_, k - 2 ^ e, by omega, ?_⟩
      · rw [shd, isPart, add_assoc]
      have high : 2 ^ e ≤ k := by
        by_contra low
        have lt : k < 32 := by omega
        have clr := and_eq_zero_iff.mp lowEmpty k lt (by
          rw [isMask]
          exact decide_eq_true (by omega))
        rw [isSet] at clr
        cases clr
      rw [shd, show 2 ^ e + (k - 2 ^ e) = k by omega]
      exact isSet
    · rw [if_neg lowEmpty]
      refine ⟨_, _, rfl, isPart, ?_⟩
      obtain ⟨i, _, inBoth⟩ := exists_bitAt_of_ne_zero lowEmpty
      rw [bitAt_and, isMask, Bool.and_eq_true, decide_eq_true_eq] at inBoth
      exact ⟨i, inBoth.2, inBoth.1⟩
  rw [bitLoop, if_neg (by omega), next']
  cases e with
  | zero =>
    obtain ⟨k, less, isSet⟩ := someNext
    obtain rfl : k = 0 := by omega
    rw [isPartNext] at isSet
    exact isSet
  | succ e =>
    have half : 2 ^ (e + 1) / 2 = 2 ^ e := by
      omega
    have twice : 2 ^ (e + 1) = 2 * 2 ^ e := by
      rw [pow_succ, mul_comm]
    rw [half]
    refine bitLoop_spec e (by omega) (fun k => ?_) isPartNext (by rwa [← twice])
    rw [bitAt_shiftRight (by omega), isMask]
    exact decide_eq_decide.mpr (by omega)

theorem bitLoop_leaf (nz : word ≠ 0) :
    bitAt word (bitLoop 6 word (allOnes >>> 16) 16 0) = true := by
  have isMask : ∀ k, bitAt (allOnes >>> UInt32.ofNat 16) k = decide (k < 2 ^ 4) := by
    intro k
    rw [bitAt_shiftRight (by omega), bitAt_ones]
    exact decide_eq_decide.mpr (by omega)
  obtain ⟨k, lt, isSet⟩ := exists_bitAt_of_ne_zero nz
  exact bitLoop_spec 4 (le_refl 4) isMask (fun k => by rw [zero_add]) ⟨k, lt, isSet⟩

/-- What the loop over the places of the mask finds, from a place on. -/
def Fit (word : UInt32) (count j : Nat) : Option (UInt32 × Nat) → Prop
  | some (mask, start) => start + count ≤ 32 ∧ (∀ k < count, bitAt word (start + k) = true) ∧
      ∀ k < 32, bitAt mask k = decide (start ≤ k ∧ k < start + count)
  | none => ∀ start, j ≤ start → start + count ≤ 32 → ¬ ∀ k < count, bitAt word (start + k) = true

/-- The sliding mask stops at the first run that fits. -/
theorem fitLoop_spec (fuel : Nat) {mask : UInt32} {j : Nat} (whole : j + count + fuel = 33)
    (isMask : ∀ k < 32, bitAt mask k = decide (j ≤ k ∧ k < j + count)) :
    Fit word count j (fitLoop word fuel mask j) := by
  induction fuel generalizing mask j with
  | zero =>
    intro beg fst last
    omega
  | succ fuel ih =>
    have fits : word &&& mask = mask ↔ ∀ k < count, bitAt word (j + k) = true := by
      rw [and_eq_right_iff]
      constructor
      · intro cov k less
        refine cov (j + k) (by omega) ?_
        rw [isMask _ (by omega)]
        exact decide_eq_true (by omega)
      · intro all k lt inMask
        rw [isMask k lt, decide_eq_true_eq] at inMask
        have := all (k - j) (by omega)
        rwa [show j + (k - j) = k by omega] at this
    rw [fitLoop]
    by_cases isFit : word &&& mask = mask
    · rw [if_pos isFit]
      exact ⟨by omega, fits.mp isFit, isMask⟩
    rw [if_neg isFit]
    have isOne : mask <<< 1 = mask <<< UInt32.ofNat 1 := rfl
    have shd : ∀ k < 32, bitAt (mask <<< 1) k = decide (j + 1 ≤ k ∧ k < j + 1 + count) := by
      intro k lt
      rw [isOne, bitAt_shiftLeft (by omega), isMask (k - 1) (by omega)]
      simp only [← Bool.decide_and]
      exact decide_eq_decide.mpr (by omega)
    have tl := ih (by omega) shd
    cases found : fitLoop word fuel (mask <<< 1) (j + 1) with
    | some res =>
      rw [found] at tl
      exact tl
    | none =>
      rw [found] at tl
      intro beg fst last all
      by_cases here : beg = j
      · rw [here] at all
        exact isFit (fits.mpr all)
      · exact tl beg (by omega) last all

theorem bitAt_clearRange {mask : UInt32} {beg : Nat}
    (isMask : ∀ k < 32, bitAt mask k = decide (beg ≤ k ∧ k < beg + count)) (x : Nat) :
    bitAt (word &&& ~~~mask) x = withoutRange (bitAt word) beg count x := by
  by_cases lt : x < 32
  · rw [bitAt_andNot lt, isMask x lt, withoutRange]
  · rw [withoutRange, bitAt_of_le (by omega), bitAt_of_le (by omega), Bool.false_and]

def LeafHint (scan after : Leaf) (count : Nat) : Option Nat → Prop
  | some _ => after.bm_bighint = scan.bm_bighint
  | none => (¬ HasRun (bitAt scan.bmu_bitmap) count ∧ after.bm_bighint = count - 1) ∨
      (scan.bmu_bitmap = 0 ∧ after.bm_bighint = 0)

/-- A leaf hands out free bits, or says that none fit and lowers its hint. -/
theorem blstLeafAlloc_spec (scan : Leaf) (blk : Nat) (pos : 0 < count) (fits : count ≤ 32) :
    ∃ s' res, blstLeafAlloc scan blk count = some (s', res) ∧
      Allocates (bitAt scan.bmu_bitmap) (bitAt s'.bmu_bitmap) blk count res ∧
      LeafHint scan s' count res := by
  unfold blstLeafAlloc
  by_cases zero : scan.bmu_bitmap = 0
  · exact ⟨_, _, if_pos zero, fun _ => rfl, .inr ⟨zero, rfl⟩⟩
  rw [if_neg zero]
  by_cases one : count = 1
  · subst one
    have isSet := bitLoop_leaf zero
    refine ⟨_, _, if_pos rfl, ⟨_, rfl, fun k less => ?_, fun x => ?_⟩, rfl⟩
    · obtain rfl : k = 0 := by omega
      exact isSet
    refine bitAt_clearRange (fun k lt => ?_) x
    have position : bitLoop 6 scan.bmu_bitmap (allOnes >>> 16) 16 0 < 32 := by
      by_contra out
      rw [bitAt_of_le (by omega)] at isSet
      cases isSet
    unfold bitAt
    rw [toBitVec_bitMask position, BitVec.getLsbD_twoPow]
    simp only [← Bool.decide_and]
    exact decide_eq_decide.mpr (by omega)
  have shift : (32 - (count : Int)) = ((32 - count : Nat) : Int) := by omega
  rw [if_neg one, if_pos fits, shift, shiftRight_of_lt (by omega)]
  simp only [Option.bind_eq_bind, Option.bind_some]
  have isMask : ∀ k < 32, bitAt (allOnes >>> UInt32.ofNat (32 - count)) k =
      decide (0 ≤ k ∧ k < 0 + count) := by
    intro k lt
    rw [bitAt_shiftRight (by omega), bitAt_ones]
    exact decide_eq_decide.mpr (by omega)
  generalize allOnes >>> UInt32.ofNat (32 - count) = mask at isMask
  have fnd : Fit scan.bmu_bitmap count 0 (fitLoop scan.bmu_bitmap (33 - count) mask 0) :=
    fitLoop_spec (33 - count) (by omega) isMask
  cases isFound : fitLoop scan.bmu_bitmap (33 - count) mask 0 with
  | some res =>
    obtain ⟨mask, beg⟩ := res
    rw [isFound] at fnd
    obtain ⟨_, all, isMask⟩ := fnd
    exact ⟨_, _, rfl, ⟨beg, rfl, all, bitAt_clearRange isMask⟩, rfl⟩
  | none =>
    rw [isFound] at fnd
    refine ⟨_, _, rfl, fun _ => rfl, .inl ⟨?_, rfl⟩⟩
    rintro ⟨beg, inLeaf, all⟩
    have low : beg < 32 := by
      by_contra out
      have := all 0 pos
      rw [bitAt_of_le (by omega)] at this
      cases this
    exact fnd beg (Nat.zero_le _) (by omega) all

end Alloc

section FreeFill

variable {a count : Nat}

theorem blstLeafFree_spec (scan : Leaf) {blk : Nat} (position : blk % 32 = a)
    (pos : 0 < a + count) (fits : a + count ≤ 32) (lt : a < 32)
    (alloc : ∀ k < count, bitAt scan.bmu_bitmap (a + k) = false) :
    ∃ s', blstLeafFree scan blk count = some s' ∧ s'.bm_bighint = 32 ∧
      ∀ x, bitAt s'.bmu_bitmap x = withRange (bitAt scan.bmu_bitmap) a count x := by
  obtain ⟨mask, isMask, bits⟩ := bitAt_rangeMask lt pos fits
  have apart : scan.bmu_bitmap &&& mask = 0 := by
    refine and_eq_zero_iff.mpr fun k _ inMask => ?_
    rw [bits, decide_eq_true_eq] at inMask
    have := alloc (k - a) (by omega)
    rwa [show a + (k - a) = k by omega] at this
  refine ⟨⟨scan.bmu_bitmap ||| mask, 32⟩, ?_, rfl, fun x => ?_⟩
  · rw [blstLeafFree, position, isMask]
    simp [apart]
  · show bitAt (scan.bmu_bitmap ||| mask) x = _
    rw [bitAt_or, bits, withRange]

theorem countLoop_spec (fuel : Nat) {bitmap : UInt32} (nblks : Nat)
    (suff : countIn (bitAt bitmap) 0 32 < fuel) :
    countLoop fuel bitmap nblks = nblks + countIn (bitAt bitmap) 0 32 := by
  induction fuel generalizing bitmap nblks with
  | zero => omega
  | succ fuel ih =>
    rw [countLoop]
    by_cases eq0 : bitmap = 0
    · rw [if_pos eq0, eq0, countIn_eq_zero fun k _ => bitAt_zero _, add_zero]
    · have less := countIn_and_pred eq0
      rw [if_neg eq0, ih (nblks + 1) (by omega)]
      omega

theorem blstLeafFill_spec (scan : Leaf) {blk : Nat} (position : blk % 32 = a)
    (pos : 0 < a + count) (fits : a + count ≤ 32) (lt : a < 32) :
    ∃ s', blstLeafFill scan blk count = some (s', countIn (bitAt scan.bmu_bitmap) a count) ∧
      s'.bm_bighint = scan.bm_bighint ∧
      ∀ x, bitAt s'.bmu_bitmap x = withoutRange (bitAt scan.bmu_bitmap) a count x := by
  obtain ⟨mask, isMask, bits⟩ := bitAt_rangeMask lt pos fits
  have cnt : countLoop 33 (scan.bmu_bitmap &&& mask) 0 =
      countIn (bitAt scan.bmu_bitmap) a count := by
    have sml : countIn (bitAt (scan.bmu_bitmap &&& mask)) 0 32 ≤ 32 := countIn_le
    rw [countLoop_spec 33 0 (by omega), countIn_split _ fits]
    have masked : ∀ x, bitAt (scan.bmu_bitmap &&& mask) x =
        (bitAt scan.bmu_bitmap x && decide (a ≤ x ∧ x < a + count)) := by
      intro x
      rw [bitAt_and, bits]
    have prev : countIn (bitAt (scan.bmu_bitmap &&& mask)) 0 a = 0 := by
      refine countIn_eq_zero fun k less => ?_
      rw [masked, decide_eq_false (by omega), Bool.and_false]
    have s' : countIn (bitAt (scan.bmu_bitmap &&& mask)) (a + count) (32 - (a + count)) = 0 := by
      refine countIn_eq_zero fun k less => ?_
      rw [masked, decide_eq_false (by omega), Bool.and_false]
    have bnd : countIn (bitAt (scan.bmu_bitmap &&& mask)) a count =
        countIn (bitAt scan.bmu_bitmap) a count := by
      refine countIn_congr fun k less => ?_
      rw [masked, decide_eq_true (by omega), Bool.and_true]
    omega
  refine ⟨⟨scan.bmu_bitmap &&& ~~~mask, scan.bm_bighint⟩, ?_, rfl,
    bitAt_clearRange fun k _ => bits k⟩
  rw [blstLeafFill, position, isMask, ← cnt]
  rfl

end FreeFill

/-!
### The set of free blocks

The tree of a blist as a set of free blocks. A node that is all allocated or all
free hides what is below it; of hidden nodes only the shape is known, which is what
the loops need to write them again. Every other node has the number of its free blocks
in its counter.
-/

/-- The free blocks under a node, counted from its first block on. -/
def isFree : (level : Nat) → Node level → Nat → Bool
  | 0, scan, x => bitAt scan.bmu_bitmap x
  | level + 1, scan, x =>
    if scan.bmu_avail = 0 then false
    else if scan.bmu_avail = radix (level + 1) then decide (x < radix (level + 1))
    else joined (isFree level) (radix level) scan.children x

/-- A node for a number of blocks has nodes below it for all of these, and none of them looks like
a terminator. -/
def Shape : (level : Nat) → Node level → Nat → Prop
  | 0, scan, room => 0 < room ∧ room ≤ radix 0 ∧ scan.bm_bighint < terminator
  | level + 1, scan, room =>
    0 < room ∧ room ≤ radix (level + 1) ∧ scan.bm_bighint < terminator ∧
      Pieces (radix level) (Shape level) scan.children room

/-- The invariant of a node that is not hidden. -/
def Good : (level : Nat) → Node level → Nat → Prop
  | 0, scan, room => Shape 0 scan room ∧ ∀ x, bitAt scan.bmu_bitmap x = true → x < room
  | level + 1, scan, room =>
    Shape (level + 1) scan room ∧ (scan.bmu_avail = 0 ∨
        (scan.bmu_avail = radix (level + 1) ∧ room = radix (level + 1)) ∨
        (0 < scan.bmu_avail ∧ scan.bmu_avail < radix (level + 1) ∧
          scan.bmu_avail = countIn (joined (isFree level) (radix level) scan.children) 0 room ∧
          Pieces (radix level) (Good level) scan.children room))

section Facts

variable {lvl rm : Nat}

theorem radix_pos (lvl : Nat) : 32 ≤ radix lvl := by
  induction lvl with
  | zero => exact le_refl _
  | succ lvl ih =>
    rw [radix, metaRadix]
    omega

theorem radix_succ (lvl : Nat) : radix (lvl + 1) = radix lvl * 16 := rfl

theorem Shape.bounds {scan : Node lvl} (shape : Shape lvl scan rm) :
    0 < rm ∧ rm ≤ radix lvl ∧ bighint lvl scan < terminator := by
  cases lvl with
  | zero => exact shape
  | succ lvl => exact ⟨shape.1, shape.2.1, shape.2.2.1⟩

theorem Good.shape {scan : Node lvl} (good : Good lvl scan rm) : Shape lvl scan rm := by
  cases lvl with
  | zero | succ => exact good.1

theorem Good.lt_room {scan : Node lvl} (good : Good lvl scan rm) {x : Nat}
    (free : isFree lvl scan x = true) : x < rm := by
  induction lvl generalizing rm x with
  | zero => exact good.2 x free
  | succ lvl ih =>
    obtain ⟨_, hn | ⟨isAll, full⟩ | ⟨pos, less, _, segs⟩⟩ := good
    · rw [isFree, if_pos hn] at free
      cases free
    · rw [isFree, if_neg (by have := radix_pos (lvl + 1); omega), if_pos isAll,
        decide_eq_true_eq] at free
      omega
    · rw [isFree, if_neg (by omega), if_neg (by omega)] at free
      exact lt_of_joined segs free fun _ _ _ holds isIn => ih holds isIn

variable (lvl) in
/-- A node is good when its sons are and its count adds theirs up. -/
theorem Good.of_children {avail hint : Nat} {kids : List (Node lvl)}
    (pos : 0 < rm) (fits : rm ≤ radix (lvl + 1)) (sHint : hint < terminator)
    (segs : Pieces (radix lvl) (Good lvl) kids rm)
    (cnt : avail = countIn (joined (isFree lvl) (radix lvl) kids) 0 rm) :
    Good (lvl + 1) (⟨avail, hint, kids⟩ : Meta (Node lvl)) rm ∧
      ∀ x, isFree (lvl + 1) (⟨avail, hint, kids⟩ : Meta (Node lvl)) x =
        joined (isFree lvl) (radix lvl) kids x := by
  have shape : Shape (lvl + 1) (⟨avail, hint, kids⟩ : Meta (Node lvl)) rm :=
    ⟨pos, fits, sHint, segs.imp fun _ _ good => good.shape⟩
  have le : countIn (joined (isFree lvl) (radix lvl) kids) 0 rm ≤ rm := countIn_le
  have out : ∀ x, rm ≤ x → joined (isFree lvl) (radix lvl) kids x = false := by
    intro x late
    by_contra isIn
    have := lt_of_joined segs (Bool.of_not_eq_false isIn) fun _ _ _ good free =>
      good.lt_room free
    omega
  by_cases hn : avail = 0
  · refine ⟨⟨shape, .inl hn⟩, fun x => ?_⟩
    rw [isFree, if_pos hn]
    by_cases lt : x < rm
    · have zero : countIn (joined (isFree lvl) (radix lvl) kids) 0 rm = 0 := by omega
      have := none_of_countIn_eq_zero zero lt
      rw [zero_add] at this
      exact this.symm
    · exact (out x (by omega)).symm
  by_cases isAll : avail = radix (lvl + 1)
  · have full : rm = radix (lvl + 1) := by omega
    refine ⟨⟨shape, .inr (.inl ⟨isAll, full⟩)⟩, fun x => ?_⟩
    rw [isFree, if_neg hn, if_pos isAll]
    by_cases lt : x < rm
    · have hw : countIn (joined (isFree lvl) (radix lvl) kids) 0 rm = rm := by
        omega
      have := all_of_countIn_eq hw lt
      rw [zero_add] at this
      rw [this, decide_eq_true (by omega)]
    · rw [out x (by omega), decide_eq_false (by omega)]
  · refine ⟨⟨shape, .inr (.inr ⟨?_, ?_, cnt, segs⟩)⟩, fun x => ?_⟩
    · show 0 < avail
      omega
    · show avail < radix (lvl + 1)
      omega
    · rw [isFree, if_neg hn, if_neg isAll]

theorem Good.avail {scan : Meta (Node lvl)} (good : Good (lvl + 1) scan rm) :
    scan.bmu_avail = countIn (isFree (lvl + 1) scan) 0 rm := by
  obtain ⟨_, hn | ⟨isAll, full⟩ | ⟨pos, less, cnt, _⟩⟩ := good
  · rw [hn]
    refine (countIn_eq_zero fun k _ => ?_).symm
    rw [isFree, if_pos hn]
  · rw [isAll, ← full]
    refine (countIn_eq_all fun k lt => ?_).symm
    rw [isFree, if_neg (by have := radix_pos (lvl + 1); omega), if_pos isAll]
    exact decide_eq_true (by omega)
  · rw [cnt]
    refine countIn_congr fun k _ => ?_
    rw [isFree, if_neg (by omega), if_neg (by omega)]

end Facts

section Init

variable {lvl rm : Nat}

theorem initLoop_eq_map {kids : List (Node lvl)} (write : Node lvl → Node lvl)
    (segs : Pieces (radix lvl) (Shape lvl) kids rm) :
    initLoop (bighint lvl) write kids = kids.map write := by
  induction kids generalizing rm with
  | nil => rfl
  | cons child tl ih =>
    obtain ⟨_, shape, oths⟩ := segs
    have sml := shape.bounds.2.2
    rw [initLoop, if_neg (by omega), ih oths, List.map_cons]

theorem setAllocated_good {scan : Node lvl} (shape : Shape lvl scan rm) :
    Good lvl (setAllocated lvl scan) rm ∧
      ∀ x, isFree lvl (setAllocated lvl scan) x = false := by
  cases lvl with
  | zero =>
    have noHint : 0 < terminator := by decide
    refine ⟨⟨⟨shape.1, shape.2.1, noHint⟩, fun x isSet => ?_⟩, bitAt_zero⟩
    rw [setAllocated, bitAt_zero] at isSet
    cases isSet
  | succ lvl =>
    have noHint : 0 < terminator := by decide
    exact ⟨⟨⟨shape.1, shape.2.1, noHint, shape.2.2.2⟩, .inl rfl⟩, fun x => if_pos rfl⟩

theorem setFree_good {scan : Node lvl} (sml : radix lvl < terminator)
    (shape : Shape lvl scan rm) (full : rm = radix lvl) :
    Good lvl (setFree lvl scan) rm ∧
      ∀ x, isFree lvl (setFree lvl scan) x = decide (x < radix lvl) := by
  cases lvl with
  | zero =>
    refine ⟨⟨⟨shape.1, shape.2.1, sml⟩, fun x isSet => ?_⟩, fun x => bitAt_ones⟩
    rw [setFree, bitAt_ones, decide_eq_true_eq] at isSet
    rw [full]
    exact isSet
  | succ lvl =>
    have pos := radix_pos (lvl + 1)
    refine ⟨⟨⟨shape.1, shape.2.1, sml, shape.2.2.2⟩, .inr (.inl ⟨rfl, full⟩)⟩, fun x => ?_⟩
    show (if radix (lvl + 1) = 0 then false else if radix (lvl + 1) = radix (lvl + 1) then
      decide (x < radix (lvl + 1)) else _) = _
    rw [if_neg (by omega), if_pos rfl]

theorem joined_setAllocated {kids : List (Node lvl)}
    (segs : Pieces (radix lvl) (Shape lvl) kids rm) :
    Pieces (radix lvl) (Good lvl) (kids.map (setAllocated lvl)) rm ∧
      ∀ x, joined (isFree lvl) (radix lvl) (kids.map (setAllocated lvl)) x = false := by
  refine ⟨segs.map fun _ _ shape => (setAllocated_good shape).1, fun x => ?_⟩
  induction kids generalizing rm x with
  | nil => rfl
  | cons child tl ih =>
    obtain ⟨_, shape, oths⟩ := segs
    rw [List.map_cons, joined, (setAllocated_good shape).2, ih oths, ite_self]

theorem joined_setFree (sml : radix lvl < terminator) {kids : List (Node lvl)} (k : Nat)
    (segs : Pieces (radix lvl) (Shape lvl) kids (k * radix lvl)) :
    Pieces (radix lvl) (Good lvl) (kids.map (setFree lvl)) (k * radix lvl) ∧
      ∀ x, joined (isFree lvl) (radix lvl) (kids.map (setFree lvl)) x =
        decide (x < k * radix lvl) := by
  induction kids generalizing k with
  | nil =>
    have zero : k * radix lvl = 0 := segs
    refine ⟨segs, fun x => ?_⟩
    rw [zero]
    rfl
  | cons child tl ih =>
    obtain ⟨hasRoom, shape, oths⟩ := segs
    obtain ⟨k, rfl⟩ : ∃ less, k = less + 1 := by
      refine ⟨k - 1, ?_⟩
      have : k ≠ 0 := by
        rintro rfl
        omega
      omega
    have whole : (k + 1) * radix lvl = k * radix lvl + radix lvl := Nat.succ_mul _ _
    have one : min ((k + 1) * radix lvl) (radix lvl) = radix lvl := by omega
    have remaining : (k + 1) * radix lvl - radix lvl = k * radix lvl := by omega
    rw [remaining] at oths
    obtain ⟨restPieces, restFree⟩ := ih k oths
    obtain ⟨good, free⟩ := setFree_good sml shape one
    refine ⟨⟨hasRoom, good, ?_⟩, fun x => ?_⟩
    · rw [remaining]
      exact restPieces
    · rw [List.map_cons, joined, free, restFree]
      split
      · rw [decide_eq_true (by omega), decide_eq_true (by omega)]
      · exact decide_eq_decide.mpr (by omega)

/-- The nodes below a node with a free block, as `blst_meta_alloc` and `blst_meta_fill` look at
them. -/
theorem Good.opened (sml : radix lvl < terminator) {scan : Meta (Node lvl)}
    (good : Good (lvl + 1) scan rm) (notNone : scan.bmu_avail ≠ 0) :
    Pieces (radix lvl) (Good lvl) (if scan.bmu_avail = radix lvl * metaRadix then
        initLoop (bighint lvl) (setFree lvl) scan.children else scan.children) rm ∧
    ∀ x, joined (isFree lvl) (radix lvl) (if scan.bmu_avail = radix lvl * metaRadix then
        initLoop (bighint lvl) (setFree lvl) scan.children else scan.children) x =
      isFree (lvl + 1) scan x := by
  obtain ⟨shape, hn | ⟨isAll, full⟩ | ⟨pos, less, _, segs⟩⟩ := good
  · exact absurd hn notNone
  · have asPieces : rm = 16 * radix lvl := by
      rw [full, radix_succ, mul_comm]
    have shapes := shape.2.2.2
    have isOpened : scan.bmu_avail = radix lvl * metaRadix := isAll
    rw [if_pos isOpened, initLoop_eq_map _ shapes]
    rw [asPieces] at shapes ⊢
    obtain ⟨free, all⟩ := joined_setFree sml 16 shapes
    refine ⟨free, fun x => ?_⟩
    rw [all, isFree, if_neg notNone, if_pos isAll, ← full, asPieces]
  · have notAll : ¬ scan.bmu_avail = radix lvl * metaRadix := ne_of_lt less
    rw [if_neg notAll]
    refine ⟨segs, fun x => ?_⟩
    rw [isFree, if_neg notNone, if_neg (ne_of_lt less)]

end Init

end NetBSD.Kern.BlockList
