import NetBSD.Kern.BlistTree

/-!
Owns `blst_meta_alloc` on the tree: it takes a run of free blocks out of the set, or
leaves the set as it is.
-/

namespace NetBSD.Kern.BlockList

open NetBSD.Arith List Option

variable {a : Nat}

section Arithmetic

theorem sub_eq {b : Nat} (less : b ≤ a) (sml : a < 4294967296) : sub a b = a - b := by
  unfold sub
  omega

theorem add_eq {a b : Nat} (sml : a + b < 4294967296) : add a b = a + b := Nat.mod_eq_of_lt sml

end Arithmetic

section Allocates

variable {set s' : Nat → Bool} {blk count : Nat}

theorem Allocates.counted {r rm : Nat} (allocs : Allocates set s' blk count (some r))
    (inRoom : ∀ x, set x = true → x < rm) (pos : 0 < count) :
    countIn s' 0 rm + count = countIn set 0 rm := by
  obtain ⟨beg, _, free, aft⟩ := allocs
  have lt : beg + count ≤ rm := by
    have := inRoom _ (free (count - 1) (by omega))
    omega
  have taken : countIn set beg count = count := countIn_eq_all free
  have same : countIn s' 0 rm = countIn (withoutRange set beg count) 0 rm :=
    countIn_congr fun k _ => aft _
  have := countIn_withoutRange set lt
  omega

end Allocates

section Loop

variable {lvl count : Nat}

theorem Allocates.first {child s' : Node lvl} {tl : List (Node lvl)} {blk r rm : Nat}
    (allocs : Allocates (isFree lvl child) (isFree lvl s') blk count (some r))
    (inRoom : ∀ x, isFree lvl child x = true → x < rm) (fits : rm ≤ radix lvl)
    (pos : 0 < count) : Allocates (joined (isFree lvl) (radix lvl) (child :: tl))
      (joined (isFree lvl) (radix lvl) (s' :: tl)) blk count (some r) := by
  obtain ⟨beg, rfl, free, aft⟩ := allocs
  have lt : ∀ k < count, beg + k < radix lvl := by
    intro k less
    have := inRoom _ (free k less)
    omega
  refine ⟨beg, rfl, fun k less => ?_, fun x => ?_⟩
  · rw [joined, if_pos (lt k less)]
    exact free k less
  unfold withoutRange
  rw [joined, joined]
  split
  · rw [aft, withoutRange]
  · have := lt (count - 1) (by omega)
    rw [decide_eq_false (by omega), Bool.not_false, Bool.and_true]

theorem Allocates.rest {child s' : Node lvl} {tl more : List (Node lvl)} {blk : Nat}
    {res : Option Nat} (bad : ∀ x, isFree lvl s' x = isFree lvl child x)
    (allocs : Allocates (joined (isFree lvl) (radix lvl) tl)
      (joined (isFree lvl) (radix lvl) more) (blk + radix lvl) count res) :
    Allocates (joined (isFree lvl) (radix lvl) (child :: tl))
      (joined (isFree lvl) (radix lvl) (s' :: more)) blk count res := by
  cases res with
  | none =>
    intro x
    rw [joined, joined, bad, allocs]
  | some r =>
    obtain ⟨beg, rfl, free, aft⟩ := allocs
    refine ⟨radix lvl + beg, by omega, fun k less => ?_, fun x => ?_⟩
    · rw [joined, if_neg (by omega), Nat.add_assoc, Nat.add_sub_cancel_left]
      exact free k less
    unfold withoutRange
    rw [joined, joined]
    split
    · rw [bad, decide_eq_false (by omega), Bool.not_false, Bool.and_true]
    · rw [aft, withoutRange]
      congr 2
      exact decide_eq_decide.mpr (by omega)

/-- What allocating in the node `scan` with room for a number of blocks comes to. -/
def AllocSpec (level count : Nat) : Prop :=
  ∀ (scan : Node level) (room blk : Nat), Good level scan room →
    ∃ after result, blstAlloc level scan blk count = some (after, result) ∧
      Good level after room ∧ Allocates (isFree level scan) (isFree level after) blk count result

theorem allocLoop_spec (subSpec : AllocSpec lvl count) (pos : 0 < count) (fits : count ≤ 32)
    {kids : List (Node lvl)} {rm : Nat}
    (segs : Pieces (radix lvl) (Good lvl) kids rm) (blk : Nat) :
    ∃ s' res, allocLoop (bighint lvl) (radix lvl)
        (fun child blk => blstAlloc lvl child blk count) count kids blk =
          some (s', res) ∧
      Pieces (radix lvl) (Good lvl) s' rm ∧
      Allocates (joined (isFree lvl) (radix lvl) kids)
        (joined (isFree lvl) (radix lvl) s') blk count res := by
  induction kids generalizing rm blk with
  | nil => exact ⟨[], none, rfl, segs, fun _ => rfl⟩
  | cons child tl ih =>
    obtain ⟨hasRoom, good, oths⟩ := segs
    have sml := good.shape.bounds.2.2
    have wide := radix_pos lvl
    obtain ⟨more, res, isMore, morePieces, moreAllocates⟩ :=
      ih oths (blk + radix lvl)
    rw [allocLoop, if_neg (by omega)]
    by_cases hnt : count ≤ bighint lvl child
    · obtain ⟨s', r, aft, goodAfter, allocs⟩ := subSpec child _ blk good
      rw [if_pos hnt, aft]
      cases r with
      | some r =>
        exact ⟨_, _, rfl, ⟨hasRoom, goodAfter, oths⟩,
          allocs.first (fun x free => good.lt_room free) (min_le_right _ _) pos⟩
      | none =>
        simp only [isMore]
        exact ⟨_, _, rfl, ⟨hasRoom, goodAfter, morePieces⟩, moreAllocates.rest allocs⟩
    · rw [if_neg hnt, if_neg (by omega)]
      simp only [isMore]
      exact ⟨_, _, rfl, ⟨hasRoom, good, morePieces⟩, moreAllocates.rest fun _ => rfl⟩

end Loop

section Meta

variable {lvl count : Nat}

/-- An inner node hands out a run of one of its sons. -/
theorem blstMetaAlloc_spec (subSpec : AllocSpec lvl count) (sml : radix (lvl + 1) < terminator)
    (pos : 0 < count) (fits : count ≤ 32) : AllocSpec (lvl + 1) count := by
  intro scan rm blk good
  have shape := good.shape
  have width := radix_succ lvl
  have smallTerminator : terminator < 4294967296 := by decide
  have smallCount : count < terminator := lt_of_le_of_lt fits (by decide)
  have le : scan.bmu_avail ≤ rm := good.avail ▸ countIn_le
  rw [blstAlloc, blstMetaAlloc]
  by_cases hn : scan.bmu_avail = 0
  · rw [if_pos hn]
    refine ⟨_, _, rfl, ⟨⟨shape.1, shape.2.1, smallCount, shape.2.2.2⟩, .inl hn⟩, fun x => ?_⟩
    rw [isFree, isFree]
  rw [if_neg hn]
  obtain ⟨opened, eqSet⟩ := good.opened (by omega) hn
  generalize (if scan.bmu_avail = radix lvl * metaRadix then
    initLoop (bighint lvl) (setFree lvl) scan.children else scan.children) = children at opened eqSet ⊢
  obtain ⟨s', res, aft, segs, allocs⟩ :=
    allocLoop_spec subSpec pos fits opened blk
  have cnt : scan.bmu_avail = countIn (joined (isFree lvl) (radix lvl) children) 0 rm := by
    rw [good.avail]
    exact countIn_congr fun k _ => (eqSet _).symm
  simp only [aft]
  cases res with
  | some r =>
    have taken := allocs.counted (fun x free => lt_of_joined opened free
      fun _ _ _ good free => good.lt_room free) pos
    have isAvail : sub scan.bmu_avail count = scan.bmu_avail - count :=
      sub_eq (by omega) (by have := shape.2.1; omega)
    have sHint : (if scan.bm_bighint > sub scan.bmu_avail count then
        sub scan.bmu_avail count else scan.bm_bighint) < terminator := by
      have := shape.2.2.1
      split <;> omega
    obtain ⟨goodAfter, afterSet⟩ := Good.of_children lvl shape.1 shape.2.1 sHint
      segs (show sub scan.bmu_avail count = _ by omega)
    refine ⟨_, _, rfl, goodAfter, ?_⟩
    obtain ⟨start, beg, free, rst⟩ := allocs
    refine ⟨start, beg, fun k less => ?_, fun x => ?_⟩
    · rw [← eqSet]
      exact free k less
    · rw [afterSet, rst, withoutRange, withoutRange, eqSet]
  | none =>
    have sHint : (if scan.bm_bighint ≥ count then count - 1 else scan.bm_bighint) <
        terminator := by
      split <;> omega
    have sameCount : scan.bmu_avail =
        countIn (joined (isFree lvl) (radix lvl) s') 0 rm := by
      rw [cnt]
      exact countIn_congr fun k _ => (allocs _).symm
    obtain ⟨goodAfter, afterSet⟩ := Good.of_children lvl shape.1 shape.2.1 sHint
      segs sameCount
    refine ⟨_, _, rfl, goodAfter, fun x => ?_⟩
    rw [afterSet, allocs, eqSet]

theorem blstAlloc_spec (pos : 0 < count) (fits : count ≤ 32) (lvl : Nat)
    (sml : radix lvl < terminator) : AllocSpec lvl count := by
  induction lvl with
  | zero =>
    intro scan rm blk good
    obtain ⟨s', res, aft, allocs, hint⟩ := blstLeafAlloc_spec scan blk pos fits
    refine ⟨s', res, aft, ⟨⟨good.1.1, good.1.2.1, ?_⟩, fun x isSet => ?_⟩, allocs⟩
    · have smallCount : count < terminator := lt_of_le_of_lt fits (by decide)
      have sHint := good.1.2.2
      cases res with
      | some r =>
        rw [hint]
        exact sHint
      | none =>
        rcases hint with ⟨_, isLess⟩ | ⟨_, eq0⟩
        · rw [isLess]
          omega
        · rw [eq0]
          omega
    · refine good.2 x ?_
      cases res with
      | some r =>
        obtain ⟨beg, _, _, rst⟩ := allocs
        rw [rst, withoutRange, Bool.and_eq_true] at isSet
        exact isSet.1
      | none =>
        have := allocs x
        rw [← this]
        exact isSet
  | succ lvl ih =>
    have width := radix_succ lvl
    exact blstMetaAlloc_spec (ih (by omega)) sml pos fits

end Meta

/-!
### Freeing and filling

`blst_meta_free` and `blst_meta_fill` on the tree: a range goes into the set of
free blocks or out of it, split among the nodes below.
-/

variable {hint : Nat}

section Free

/-- What freeing a range of allocated blocks of a node comes to. A leaf needs a range that is not
empty, or does not start at its first block. -/
def FreeSpec (level : Nat) : Prop :=
  ∀ (scan : Node level) (room blk a count : Nat), Good level scan room → a + count ≤ room →
    (∀ k < count, isFree level scan (a + k) = false) → (level = 0 → 0 < a % 32 + count) →
    32 ∣ blk → ∃ after, blstFree level scan (blk + a) count blk = some after ∧
      Good level after room ∧ ∀ x, isFree level after x = withRange (isFree level scan) a count x

variable {lvl rm : Nat}

theorem freeLoop_stop (kids : List (Node lvl)) (index blk freeBlk count hint : Nat)
    (stops : ¬ blk < freeBlk + count) :
    freeLoop (bighint lvl) (radix lvl) (blstFree lvl) kids index blk freeBlk count hint =
      some (kids, hint) := by
  cases kids with
  | nil | cons => rw [freeLoop, if_neg fun both => stops both.2]

theorem withRange_empty {set : Nat → Bool} (x : Nat) : withRange set a 0 x = set x := by
  rw [withRange, decide_eq_false (by omega), Bool.or_false]

/-- The part of the range in the first node. -/
theorem part_eq_min (blk count : Nat) : (if blk + radix lvl - (blk + a) > count then count
    else blk + radix lvl - (blk + a)) = min (radix lvl - a) count := by
  split <;> omega

theorem radix_dvd (lvl : Nat) : 32 ∣ radix lvl := by
  induction lvl with
  | zero => exact dvd_refl 32
  | succ lvl ih => exact dvd_mul_of_dvd_left ih metaRadix

/-- The loop over the sons frees the range piece by piece. -/
theorem freeLoop_spec (subSpec : FreeSpec lvl) {kids : List (Node lvl)}
    (segs : Pieces (radix lvl) (Good lvl) kids rm) {index blk count : Nat}
    (slots : index + kids.length ≤ 16) (lt : a < radix lvl) (fits : a + count ≤ rm)
    (alloc : ∀ k < count, joined (isFree lvl) (radix lvl) kids (a + k) = false)
    (algn : 32 ∣ blk) (sHint : hint < terminator) :
    ∃ s' final, freeLoop (bighint lvl) (radix lvl) (blstFree lvl) kids index blk
        (blk + a) count hint = some (s', final) ∧
      Pieces (radix lvl) (Good lvl) s' rm ∧ final < terminator ∧
      ∀ x, joined (isFree lvl) (radix lvl) s' x =
        withRange (joined (isFree lvl) (radix lvl) kids) a count x := by
  induction kids generalizing rm index blk a count hint with
  | nil =>
    have empty : rm = 0 := segs
    refine ⟨[], hint, ?_, segs, sHint, fun x => ?_⟩
    · exact freeLoop_stop [] index blk (blk + a) count hint (by omega)
    · rw [withRange, decide_eq_false (by omega), Bool.or_false]
  | cons child tl ih =>
    by_cases cont : blk < blk + a + count
    · obtain ⟨hasRoom, good, oths⟩ := segs
      obtain ⟨first, fst, goodFirst, firstSet⟩ := subSpec child _ blk a
        (min (radix lvl - a) count) good (by omega)
        (fun k less => by
          have := alloc k (by omega)
          rwa [joined, if_pos (by omega)] at this)
        (fun leaf => by
          subst leaf
          have : radix 0 = 32 := rfl
          omega)
        algn
      have smallFirst := goodFirst.shape.bounds.2.2
      rw [freeLoop, if_pos ⟨by rw [metaRadix]; simp only [length_cons] at slots; omega, cont⟩,
        part_eq_min, if_neg (by omega)]
      simp only [fst, bind_eq_bind, bind_some]
      have smallNext : (if hint < bighint lvl first then bighint lvl first else hint) <
          terminator := by
        split <;> omega
      generalize (if hint < bighint lvl first then bighint lvl first else hint) = nextHint
        at smallNext
      -- the rest of the range starts at the first block of the next node
      obtain ⟨more, final, isMore, morePieces, smallFinal, moreSet⟩ : ∃ more final,
          freeLoop (bighint lvl) (radix lvl) (blstFree lvl) tl (index + 1)
            (blk + radix lvl) (blk + a + min (radix lvl - a) count)
            (count - min (radix lvl - a) count) nextHint = some (more, final) ∧
          Pieces (radix lvl) (Good lvl) more (rm - radix lvl) ∧ final < terminator ∧
          ∀ x, joined (isFree lvl) (radix lvl) more x =
            withRange (joined (isFree lvl) (radix lvl) tl) 0
              (count - min (radix lvl - a) count) x := by
        by_cases last : count ≤ radix lvl - a
        · have nothing : count - min (radix lvl - a) count = 0 := by omega
          rw [nothing]
          refine ⟨tl, nextHint, freeLoop_stop _ _ _ _ _ _ (by omega), oths, smallNext,
            fun x => (withRange_empty x).symm⟩
        have beg : blk + a + min (radix lvl - a) count = blk + radix lvl + 0 := by omega
        rw [beg]
        refine ih oths (by simp only [length_cons] at slots; omega)
          (by have := radix_pos lvl; omega) (by omega) (fun k less => ?_)
          (Nat.dvd_add algn (radix_dvd lvl)) smallNext
        have := alloc (min (radix lvl - a) count + k) (by omega)
        rw [joined, if_neg (by omega)] at this
        rwa [show a + (min (radix lvl - a) count + k) - radix lvl = 0 + k by omega] at this
      rw [isMore]
      exact ⟨_, _, rfl, ⟨hasRoom, goodFirst, morePieces⟩, smallFinal,
        joined_withRange lt rfl firstSet moreSet⟩
    · refine ⟨child :: tl, hint, freeLoop_stop _ _ _ _ _ _ cont, segs, sHint,
        fun x => ?_⟩
      rw [show count = 0 by omega, withRange_empty]

theorem freeChildren_spec (subSpec : FreeSpec lvl) {kids : List (Node lvl)}
    (segs : Pieces (radix lvl) (Good lvl) kids rm) (whole : rm ≤ radix (lvl + 1))
    {blk count : Nat} (fits : a + count ≤ rm)
    (alloc : ∀ k < count, joined (isFree lvl) (radix lvl) kids (a + k) = false)
    (algn : 32 ∣ blk) (sHint : hint < terminator) :
    ∃ s' final, freeLoop (bighint lvl) (radix lvl) (blstFree lvl)
        (kids.drop (a / radix lvl)) (a / radix lvl) (blk + a / radix lvl * radix lvl)
        (blk + a) count hint = some (s', final) ∧
      Pieces (radix lvl) (Good lvl) (kids.take (a / radix lvl) ++ s') rm ∧
      final < terminator ∧
      ∀ x, joined (isFree lvl) (radix lvl) (kids.take (a / radix lvl) ++ s') x =
        withRange (joined (isFree lvl) (radix lvl) kids) a count x := by
  have pos : 0 < radix lvl := lt_of_lt_of_le (by decide) (radix_pos lvl)
  have isPosition := Nat.div_add_mod' a (radix lvl)
  have less := Nat.mod_lt a pos
  have bnd : a / radix lvl ≤ kids.length := segs.div_le (by omega)
  have few : kids.length ≤ 16 := segs.length_le (by rwa [mul_comm])
  generalize a / radix lvl = k at *
  generalize a % radix lvl = offset at *
  obtain ⟨back, replace⟩ := segs.split k bnd
  have slots : k + (kids.drop k).length ≤ 16 := by
    rw [length_drop]
    omega
  obtain ⟨s', final, aft, afterPieces, smallFinal, afterSet⟩ :=
    freeLoop_spec subSpec back slots less (show offset + count ≤ rm - k * radix lvl by omega)
      (fun i lt => by
        rw [joined_drop bnd]
        have := alloc i lt
        rwa [← isPosition, add_assoc] at this)
      (Nat.dvd_add algn (dvd_mul_of_dvd_right (radix_dvd lvl) k)) sHint
  rw [show blk + a = blk + k * radix lvl + offset by omega]
  refine ⟨s', final, aft, replace s' afterPieces, smallFinal, fun x => ?_⟩
  rw [joined_take_append bnd]
  unfold withRange at afterSet ⊢
  split
  · rw [decide_eq_false (by omega), Bool.or_false]
  · rw [afterSet, joined_drop bnd, show k * radix lvl + (x - k * radix lvl) = x by omega]
    congr 1
    exact decide_eq_decide.mpr (by omega)

variable {scan : Meta (Node lvl)}

theorem startFree_opened (good : Good (lvl + 1) scan rm)
    {count : Nat} (notAll : (startFree (bighint lvl) (radix lvl) (setAllocated lvl) scan
      count).bmu_avail ≠ radix (lvl + 1))
    (less : scan.bmu_avail ≠ radix (lvl + 1)) :
    Pieces (radix lvl) (Good lvl) (startFree (bighint lvl) (radix lvl) (setAllocated lvl)
        scan count).children rm ∧
      (∀ x, joined (isFree lvl) (radix lvl) (startFree (bighint lvl) (radix lvl)
        (setAllocated lvl) scan count).children x = isFree (lvl + 1) scan x) := by
  obtain ⟨shape, hn | ⟨isAll, _⟩ | ⟨pos, _, _, segs⟩⟩ := good
  · rw [startFree, if_pos hn] at notAll ⊢
    have notWhole : count ≠ radix lvl * metaRadix := notAll
    rw [if_pos notWhole, initLoop_eq_map _ shape.2.2.2]
    obtain ⟨alloc, no⟩ := joined_setAllocated shape.2.2.2
    refine ⟨alloc, fun x => ?_⟩
    rw [no, isFree, if_pos hn]
  · exact absurd isAll less
  · rw [startFree, if_neg (by omega)]
    refine ⟨segs, fun x => ?_⟩
    rw [isFree, if_neg (by omega), if_neg less]

theorem startFree_avail {count : Nat} (sml : scan.bmu_avail + count < 4294967296) :
    (startFree (bighint lvl) (radix lvl) (setAllocated lvl) scan count).bmu_avail =
      scan.bmu_avail + count := by
  unfold startFree
  split
  · rename_i hn
    rw [hn, zero_add]
  · exact add_eq sml

theorem startFree_hint {count : Nat} (sHint : scan.bm_bighint < terminator)
    (smallCount : count < terminator) :
    (startFree (bighint lvl) (radix lvl) (setAllocated lvl) scan count).bm_bighint <
      terminator := by
  unfold startFree
  split
  · exact smallCount
  · exact sHint

theorem startFree_children {count : Nat} (whole : count = radix (lvl + 1) ∨ scan.bmu_avail ≠ 0) :
    (startFree (bighint lvl) (radix lvl) (setAllocated lvl) scan count).children =
      scan.children := by
  unfold startFree
  split
  · rename_i hn
    exact if_neg (not_not.mpr (whole.resolve_right (not_not.mpr hn)))
  · rfl

/-- Freeing in an inner node, given the same one level below. -/
theorem blstMetaFree_spec (subSpec : FreeSpec lvl) (sml : radix (lvl + 1) < terminator) :
    FreeSpec (lvl + 1) := by
  intro scan rm blk a count good fits alloc _ algn
  have shape := good.shape
  have bnds := shape.bounds
  have isTerminator : terminator = 4294967295 := rfl
  have width : radix lvl * metaRadix = radix (lvl + 1) := rfl
  have cnt := countIn_withRange fits alloc
  have le : countIn (withRange (isFree (lvl + 1) scan) a count) 0 rm ≤ rm := countIn_le
  have isAvail := good.avail
  have out : ∀ x, rm ≤ x → withRange (isFree (lvl + 1) scan) a count x = false := by
    intro x late
    have isOut : isFree (lvl + 1) scan x = false := by
      by_contra isIn
      have := good.lt_room (Bool.of_not_eq_false isIn)
      omega
    rw [withRange, isOut, decide_eq_false (by omega), Bool.or_false]
  have availAfter : (startFree (bighint lvl) (radix lvl) (setAllocated lvl) scan
      count).bmu_avail = scan.bmu_avail + count := startFree_avail (by omega)
  have hintAfter : (startFree (bighint lvl) (radix lvl) (setAllocated lvl) scan
      count).bm_bighint < terminator := startFree_hint shape.2.2.1 (by omega)
  rw [blstFree, blstMetaFree, width]
  by_cases isAll : (startFree (bighint lvl) (radix lvl) (setAllocated lvl) scan
      count).bmu_avail = radix (lvl + 1)
  · rw [if_pos isAll]
    have full : rm = radix (lvl + 1) := by omega
    have sameChildren : (startFree (bighint lvl) (radix lvl) (setAllocated lvl) scan
        count).children = scan.children := by
      refine startFree_children ?_
      by_cases hn : scan.bmu_avail = 0
      · exact .inl (by omega)
      · exact .inr hn
    refine ⟨_, rfl, ⟨⟨bnds.1, bnds.2.1, hintAfter, ?_⟩, .inr (.inl ⟨isAll, full⟩)⟩, fun x => ?_⟩
    · rw [sameChildren]
      exact shape.2.2.2
    rw [isFree, isAll, if_neg (by omega), if_pos rfl]
    by_cases lt : x < rm
    · have hw : countIn (withRange (isFree (lvl + 1) scan) a count) 0 rm = rm := by
        omega
      have := all_of_countIn_eq hw lt
      rw [zero_add] at this
      rw [this, decide_eq_true (by omega)]
    · rw [out x (by omega), decide_eq_false (by omega)]
  · rw [if_neg isAll, if_neg (by omega), Nat.add_sub_cancel_left]
    obtain ⟨opened, eqSet⟩ := startFree_opened good isAll (by omega)
    obtain ⟨s', final, aft, segs, smallFinal, afterSet⟩ :=
      freeChildren_spec subSpec opened bnds.2.1 fits
        (fun k less => by rw [eqSet]; exact alloc k less) algn hintAfter
    simp only [aft]
    have sameCount : (startFree (bighint lvl) (radix lvl) (setAllocated lvl) scan
        count).bmu_avail = countIn (joined (isFree lvl) (radix lvl) ((startFree (bighint lvl)
          (radix lvl) (setAllocated lvl) scan count).children.take (a / radix lvl) ++ s'))
          0 rm := by
      rw [availAfter, isAvail, ← cnt]
      refine countIn_congr fun k _ => ?_
      rw [afterSet, withRange, withRange, eqSet]
    obtain ⟨goodAfter, isSet⟩ := Good.of_children lvl bnds.1 bnds.2.1 smallFinal segs
      sameCount
    refine ⟨_, rfl, goodAfter, fun x => ?_⟩
    rw [isSet, afterSet, withRange, withRange, eqSet]

theorem blstFree_spec (lvl : Nat) (sml : radix lvl < terminator) : FreeSpec lvl := by
  induction lvl with
  | zero =>
    intro scan rm blk a count good fits alloc ne algn
    have isRadix : radix 0 = 32 := rfl
    have := good.1.2.1
    by_cases lt : a < 32
    · have pos : (blk + a) % 32 = a := by omega
      obtain ⟨s', aft, isHint, afterSet⟩ := blstLeafFree_spec scan pos
        (show 0 < a + count by omega) (by omega) lt alloc
      refine ⟨s', aft, ⟨⟨good.1.1, good.1.2.1, ?_⟩, fun x isSet => ?_⟩, afterSet⟩
      · rw [isHint]
        decide
      · rw [afterSet, withRange, Bool.or_eq_true, decide_eq_true_eq] at isSet
        rcases isSet with old | new
        · exact good.2 x old
        · omega
    · omega
  | succ lvl ih =>
    have width := radix_succ lvl
    exact blstMetaFree_spec (ih (by omega)) sml

end Free

section Fill

/-- What filling a range of a node comes to, with the number of blocks that were free. -/
def FillSpec (level : Nat) : Prop :=
  ∀ (scan : Node level) (room blk a count : Nat), Good level scan room → a + count ≤ room →
    0 < count → 32 ∣ blk →
    ∃ after, blstFill level scan (blk + a) count blk =
        some (after, countIn (isFree level scan) a count) ∧
      Good level after room ∧
      ∀ x, isFree level after x = withoutRange (isFree level scan) a count x

variable {lvl rm : Nat}

theorem fillLoop_stop (kids : List (Node lvl)) (index blk allocBlk count hint : Nat)
    (stops : ¬ blk < allocBlk + count) :
    fillLoop (radix lvl) (blstFill lvl) hint kids index blk allocBlk count =
      some (kids, 0) := by
  cases kids with
  | nil | cons => rw [fillLoop, if_neg fun both => stops both.2]

theorem withoutRange_empty {set : Nat → Bool} (x : Nat) : withoutRange set a 0 x = set x := by
  rw [withoutRange, decide_eq_false (by omega), Bool.not_false, Bool.and_true]

/-- The loop over the sons takes the range and counts what it took. -/
theorem fillLoop_spec (subSpec : FillSpec lvl) {kids : List (Node lvl)}
    (segs : Pieces (radix lvl) (Good lvl) kids rm) {index blk count : Nat}
    (slots : index + kids.length ≤ 16) (lt : a < radix lvl) (fits : a + count ≤ rm)
    (pos : 0 < count) (algn : 32 ∣ blk) (sHint : hint < terminator)
    (smallCount : count < 4294967296) :
    ∃ s', fillLoop (radix lvl) (blstFill lvl) hint kids index blk (blk + a) count =
        some (s', countIn (joined (isFree lvl) (radix lvl) kids) a count) ∧
      Pieces (radix lvl) (Good lvl) s' rm ∧
      ∀ x, joined (isFree lvl) (radix lvl) s' x =
        withoutRange (joined (isFree lvl) (radix lvl) kids) a count x := by
  induction kids generalizing rm index blk a count with
  | nil =>
    have empty : rm = 0 := segs
    omega
  | cons child tl ih =>
    obtain ⟨hasRoom, good, oths⟩ := segs
    obtain ⟨first, fst, goodFirst, firstSet⟩ := subSpec child _ blk a
      (min (radix lvl - a) count) good (by omega) (by omega) algn
    have cont : index < metaRadix ∧ blk < blk + a + count := by
      rw [length_cons] at slots
      exact ⟨by rw [metaRadix]; omega, by omega⟩
    rw [fillLoop, if_pos cont, part_eq_min, if_neg (by omega)]
    simp only [fst, bind_eq_bind]
    -- the rest of the range starts at the first block of the next node
    obtain ⟨more, isMore, morePieces, moreSet⟩ : ∃ more,
        fillLoop (radix lvl) (blstFill lvl) hint tl (index + 1) (blk + radix lvl)
          (blk + a + min (radix lvl - a) count) (count - min (radix lvl - a) count) =
          some (more, countIn (joined (isFree lvl) (radix lvl) tl) 0
            (count - min (radix lvl - a) count)) ∧
        Pieces (radix lvl) (Good lvl) more (rm - radix lvl) ∧
        ∀ x, joined (isFree lvl) (radix lvl) more x =
          withoutRange (joined (isFree lvl) (radix lvl) tl) 0
            (count - min (radix lvl - a) count) x := by
      by_cases last : count ≤ radix lvl - a
      · have nothing : count - min (radix lvl - a) count = 0 := by omega
        rw [nothing]
        exact ⟨tl, fillLoop_stop _ _ _ _ _ _ (by omega), oths,
          fun x => (withoutRange_empty x).symm⟩
      · have beg : blk + a + min (radix lvl - a) count = blk + radix lvl + 0 := by omega
        rw [beg]
        exact ih oths (by simp only [length_cons] at slots; omega)
          (by have := radix_pos lvl; omega) (by omega) (by omega)
          (Nat.dvd_add algn (radix_dvd lvl)) (by omega)
    rw [isMore]
    simp only [bind_some]
    have sum : countIn (isFree lvl child) a (min (radix lvl - a) count) +
        countIn (joined (isFree lvl) (radix lvl) tl) 0 (count - min (radix lvl - a) count) =
        countIn (joined (isFree lvl) (radix lvl) (child :: tl)) a count :=
      countIn_joined lt rfl
    have sml : countIn (joined (isFree lvl) (radix lvl) (child :: tl)) a count ≤ count :=
      countIn_le
    refine ⟨first :: more, ?_, ⟨hasRoom, goodFirst, morePieces⟩,
      joined_withoutRange lt rfl firstSet moreSet⟩
    rw [add_eq (by omega), sum]

theorem fillChildren_spec (subSpec : FillSpec lvl) {kids : List (Node lvl)}
    (segs : Pieces (radix lvl) (Good lvl) kids rm) (whole : rm ≤ radix (lvl + 1))
    {blk count : Nat} (fits : a + count ≤ rm) (pos : 0 < count) (algn : 32 ∣ blk)
    (sHint : hint < terminator) (smallCount : count < 4294967296) :
    ∃ s', fillLoop (radix lvl) (blstFill lvl) hint (kids.drop (a / radix lvl))
        (a / radix lvl) (blk + a / radix lvl * radix lvl) (blk + a) count =
        some (s', countIn (joined (isFree lvl) (radix lvl) kids) a count) ∧
      Pieces (radix lvl) (Good lvl) (kids.take (a / radix lvl) ++ s') rm ∧
      ∀ x, joined (isFree lvl) (radix lvl) (kids.take (a / radix lvl) ++ s') x =
        withoutRange (joined (isFree lvl) (radix lvl) kids) a count x := by
  have wide : 0 < radix lvl := lt_of_lt_of_le (by decide) (radix_pos lvl)
  have isPosition := Nat.div_add_mod' a (radix lvl)
  have less := Nat.mod_lt a wide
  have bnd : a / radix lvl ≤ kids.length := segs.div_le (by omega)
  have few : kids.length ≤ 16 := segs.length_le (by rwa [mul_comm])
  generalize a / radix lvl = k at *
  generalize a % radix lvl = offset at *
  obtain ⟨back, replace⟩ := segs.split k bnd
  have slots : k + (kids.drop k).length ≤ 16 := by
    rw [length_drop]
    omega
  obtain ⟨s', aft, afterPieces, afterSet⟩ :=
    fillLoop_spec subSpec back slots less (show offset + count ≤ rm - k * radix lvl by omega)
      pos (Nat.dvd_add algn (Nat.dvd_mul_left_of_dvd (radix_dvd lvl) k)) sHint
      smallCount
  have sameCount : countIn (joined (isFree lvl) (radix lvl) (kids.drop k)) offset count =
      countIn (joined (isFree lvl) (radix lvl) kids) a count := by
    refine countIn_congr fun i _ => ?_
    rw [joined_drop bnd, ← isPosition, add_assoc]
  rw [sameCount] at aft
  rw [show blk + a = blk + k * radix lvl + offset by omega]
  refine ⟨s', aft, replace s' afterPieces, fun x => ?_⟩
  rw [joined_take_append bnd]
  unfold withoutRange at afterSet ⊢
  split
  · rw [decide_eq_false (by omega), Bool.not_false, Bool.and_true]
  · rw [afterSet, joined_drop bnd, show k * radix lvl + (x - k * radix lvl) = x by omega]
    congr 2
    exact decide_eq_decide.mpr (by omega)

/-- Filling in an inner node, given the same one level below. -/
theorem blstMetaFill_spec (subSpec : FillSpec lvl) (sml : radix (lvl + 1) < terminator) :
    FillSpec (lvl + 1) := by
  intro scan rm blk a count good fits pos algn
  have shape := good.shape
  have bnds := shape.bounds
  have isTerminator : terminator = 4294967295 := rfl
  have width : radix lvl * metaRadix = radix (lvl + 1) := rfl
  have isAvail := good.avail
  have cnt := countIn_withoutRange (isFree (lvl + 1) scan) fits
  have out : ∀ x, rm ≤ x → isFree (lvl + 1) scan x = false := by
    intro x late
    by_contra isIn
    have := good.lt_room (Bool.of_not_eq_false isIn)
    omega
  rw [blstFill, blstMetaFill]
  by_cases special : count = radix lvl * metaRadix ∨ scan.bmu_avail = 0
  · rw [if_pos special]
    -- the range is the whole node, or the node has no free block
    have nothingLeft : countIn (withoutRange (isFree (lvl + 1) scan) a count) 0 rm = 0 := by
      rcases special with hw | hn
      · refine countIn_eq_zero fun k lt => ?_
        rw [withoutRange, decide_eq_true (by omega), Bool.not_true, Bool.and_false]
      · omega
    have sameCount : scan.bmu_avail = countIn (isFree (lvl + 1) scan) a count := by omega
    refine ⟨(⟨0, count, scan.children⟩ : Meta (Node lvl)), by rw [sameCount],
      ⟨⟨bnds.1, bnds.2.1, ?_, shape.2.2.2⟩, .inl rfl⟩, fun x => ?_⟩
    · show count < terminator
      omega
    show (if (0 : Nat) = 0 then false else _) = _
    rw [if_pos rfl]
    by_cases lt : x < rm
    · have := none_of_countIn_eq_zero nothingLeft lt
      rw [zero_add] at this
      exact this.symm
    · rw [withoutRange, out x (by omega), Bool.false_and]
  rw [not_or] at special
  rw [if_neg (not_or.mpr special), if_neg (by omega), Nat.add_sub_cancel_left]
  obtain ⟨opened, eqSet⟩ := good.opened (by have := radix_succ lvl; omega) special.2
  generalize (if scan.bmu_avail = radix lvl * metaRadix then
    initLoop (bighint lvl) (setFree lvl) scan.children else scan.children) = children
    at opened eqSet ⊢
  obtain ⟨s', aft, segs, afterSet⟩ :=
    fillChildren_spec subSpec opened bnds.2.1 fits pos algn shape.2.2.1 (by omega)
  simp only [aft]
  have sameFilled : countIn (joined (isFree lvl) (radix lvl) children) a count =
      countIn (isFree (lvl + 1) scan) a count := countIn_congr fun k _ => eqSet _
  have sameCount : sub scan.bmu_avail (countIn (joined (isFree lvl) (radix lvl) children) a
      count) = countIn (joined (isFree lvl) (radix lvl)
        (children.take (a / radix lvl) ++ s')) 0 rm := by
    have left : countIn (joined (isFree lvl) (radix lvl)
        (children.take (a / radix lvl) ++ s')) 0 rm =
        countIn (withoutRange (isFree (lvl + 1) scan) a count) 0 rm := by
      refine countIn_congr fun k _ => ?_
      rw [afterSet, withoutRange, withoutRange, eqSet]
    have le : countIn (isFree (lvl + 1) scan) 0 rm ≤ rm := countIn_le
    rw [sub_eq (by omega) (by omega)]
    omega
  obtain ⟨goodAfter, isSet⟩ := Good.of_children lvl bnds.1 bnds.2.1 shape.2.2.1 segs
    sameCount
  rw [sameFilled] at goodAfter isSet ⊢
  refine ⟨_, rfl, goodAfter, fun x => ?_⟩
  rw [isSet, afterSet, withoutRange, withoutRange, eqSet]

theorem blstFill_spec (lvl : Nat) (sml : radix lvl < terminator) : FillSpec lvl := by
  induction lvl with
  | zero =>
    intro scan rm blk a count good fits pos algn
    have isRadix : radix 0 = 32 := rfl
    have := good.1.2.1
    have position : (blk + a) % 32 = a := by omega
    obtain ⟨s', aft, isHint, afterSet⟩ := blstLeafFill_spec scan position
      (show 0 < a + count by omega) (by omega) (by omega)
    refine ⟨s', aft, ⟨⟨good.1.1, good.1.2.1, ?_⟩, fun x isSet => ?_⟩, afterSet⟩
    · rw [isHint]
      exact good.1.2.2
    · rw [afterSet, withoutRange, Bool.and_eq_true] at isSet
      exact good.2 x isSet.1
  | succ lvl ih =>
    have width := radix_succ lvl
    exact blstMetaFill_spec (ih (by omega)) sml

end Fill

end NetBSD.Kern.BlockList
