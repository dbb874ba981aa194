import NetBSD.Kern.BlistHintFree
import Mathlib.Data.Finset.Card
import Mathlib.Order.Interval.Finset.Nat
import NetBSD.Machine.Trace

/-!
Owns `blst_copy` and `blist_resize`: what they make of the set of free blocks. The
new list is only freed into, which keeps its hints as high as can be.
-/

namespace NetBSD.Kern.BlockList

open NetBSD.Arith Option Bool Finset

section Copy

/-- The destination has the free blocks of the source from one on in addition. -/
structure Copied (set : Nat → Bool) (blk from_ count : Nat) (dest after : Blist) : Prop where
  fresh : Fresh after
  blocks : after.bl_blocks = dest.bl_blocks
  free : ∀ x, after.free x =
    (dest.free x || (decide (blk + from_ ≤ x ∧ x < blk + count) && set (x - blk)))

variable {set : Nat → Bool} {blk j cnt : Nat} {dest : Blist}

theorem Copied.refl (fresh : Fresh dest)
    (no : ∀ k, j ≤ k → k < cnt → set k = false) : Copied set blk j cnt dest dest where
  fresh := fresh
  blocks := rfl
  free := by
    intro x
    by_cases lt : blk + j ≤ x ∧ x < blk + cnt
    · rw [no (x - blk) (by omega) (by omega), Bool.and_false, Bool.or_false]
    · rw [decide_eq_false lt, Bool.false_and, Bool.or_false]

theorem Copied.all (fresh : Fresh dest) (pos : 0 < cnt) (fits : blk + cnt ≤ dest.bl_blocks)
    (apart : ∀ k < cnt, dest.free (blk + k) = false)
    (all : ∀ k < cnt, set k = true) :
    ∃ s', blistFree dest blk cnt = some s' ∧ Copied set blk 0 cnt dest s' := by
  obtain ⟨s', aft, freshAfter, blks, free⟩ :=
    fresh.free fits apart pos
  refine ⟨s', aft, freshAfter, blks, fun x => ?_⟩
  rw [free, withRange]
  by_cases lt : blk ≤ x ∧ x < blk + cnt
  · rw [decide_eq_true lt, decide_eq_true (by omega), all (x - blk) (by omega), Bool.and_true]
  · rw [decide_eq_false lt, decide_eq_false (by omega), Bool.false_and]

/-- The bits of a partly free leaf are freed one by one in the copy. -/
theorem copyBits_spec {v : UInt32} (lt : cnt ≤ 32) (fuel : Nat) (whole : j + fuel = 32)
    (fresh : Fresh dest) (fits : blk + cnt ≤ dest.bl_blocks)
    (apart : ∀ k, j ≤ k → k < cnt → dest.free (blk + k) = false) :
    ∃ s', copyBits v blk cnt fuel j dest = some s' ∧
      Copied (bitAt v) blk j cnt dest s' := by
  induction fuel generalizing j dest with
  | zero => exact ⟨dest, rfl, .refl fresh fun k first last => by omega⟩
  | succ fuel ih =>
    rw [copyBits]
    by_cases cont : j < 32 ∧ j < cnt
    · rw [if_pos cont]
      cases isSet : bitAt v j with
      | false =>
        obtain ⟨s', aft, copy⟩ := ih (j := j + 1) (by omega) fresh fits
          fun k first last => apart k (by omega) last
        refine ⟨s', aft, copy.fresh, copy.blocks, fun x => ?_⟩
        rw [copy.free]
        congr 1
        by_cases here : x = blk + j
        · rw [here, Nat.add_sub_cancel_left, isSet, Bool.and_false, Bool.and_false]
        · congr 1
          exact decide_eq_decide.mpr (by omega)
      | true =>
        obtain ⟨first, fst, freshFirst, blks, freeFirst⟩ :=
          fresh.free (show blk + j + 1 ≤ dest.bl_blocks by omega) (fun k less => by
              obtain rfl : k = 0 := by omega
              exact apart j (le_refl j) cont.2)
            (by omega)
        have fitsFirst : blk + cnt ≤ first.bl_blocks := by omega
        obtain ⟨s', aft, copy⟩ := ih (j := j + 1) (by omega)
          freshFirst fitsFirst (fun k low high => by
            rw [freeFirst, withRange, apart k (by omega) high, decide_eq_false (by omega),
              Bool.or_false])
        simp only [fst]
        refine ⟨s', aft, copy.fresh, copy.blocks.trans blks, fun x => ?_⟩
        rw [copy.free, freeFirst, withRange, Bool.or_assoc]
        congr 1
        by_cases here : x = blk + j
        · rw [here, Nat.add_sub_cancel_left, isSet, decide_eq_true (by omega), Bool.true_or,
            decide_eq_true (by omega), Bool.and_true]
        · rw [decide_eq_false (by omega), Bool.false_or]
          congr 1
          exact decide_eq_decide.mpr (by omega)
    · rw [if_neg cont]
      exact ⟨dest, rfl, .refl fresh fun k first last => by omega⟩

def CopySpec (level : Nat) : Prop :=
  ∀ (scan : Node level) (room blk count : Nat) (dest : Blist), Good level scan room → 0 < count →
    count ≤ room → Fresh dest → blk + count ≤ dest.bl_blocks →
    (∀ k < count, dest.free (blk + k) = false) →
    ∃ after, blstCopy level scan blk dest count = some after ∧
      Copied (isFree level scan) blk 0 count dest after

theorem copyLeaf_spec : CopySpec 0 := by
  intro scan rm blk cnt dest good pos lt fresh fits apart
  have few : cnt ≤ 32 := le_trans lt good.1.2.1
  rw [blstCopy, copyLeaf]
  by_cases isAll : scan.bmu_bitmap = allOnes
  · rw [if_pos isAll]
    refine Copied.all fresh pos fits apart fun k less => ?_
    rw [isFree, isAll, bitAt_ones, decide_eq_true (by omega)]
  rw [if_neg isAll]
  by_cases some_ : scan.bmu_bitmap ≠ 0
  · rw [if_pos some_]
    exact copyBits_spec few 32 rfl fresh fits fun k _ less => apart k less
  · rw [if_neg some_]
    refine ⟨dest, rfl, .refl fresh fun k _ _ => ?_⟩
    rw [isFree, not_not.mp some_, bitAt_zero]

/-- The copy of an inner node is that of its sons, one after another. -/
theorem copyLoop_spec {lvl : Nat} (subSpec : CopySpec lvl) {kids : List (Node lvl)}
    {rm : Nat} (segs : Pieces (radix lvl) (Good lvl) kids rm)
    (lt : cnt ≤ rm) (fresh : Fresh dest) (fits : blk + cnt ≤ dest.bl_blocks)
    (apart : ∀ k < cnt, dest.free (blk + k) = false) :
    ∃ s', copyLoop (bighint lvl) (radix lvl) (blstCopy lvl) kids blk dest cnt =
        some s' ∧
      Copied (joined (isFree lvl) (radix lvl) kids) blk 0 cnt dest s' := by
  induction kids generalizing rm blk dest cnt with
  | nil => exact ⟨dest, rfl, .refl fresh fun _ _ _ => rfl⟩
  | cons child tl ih =>
    rw [copyLoop]
    by_cases nothing : cnt = 0
    · rw [if_pos nothing]
      exact ⟨dest, rfl, .refl fresh fun k _ less => by omega⟩
    obtain ⟨hasRoom, good, oths⟩ := segs
    have sml := good.shape.bounds.2.2
    have wide := radix_pos lvl
    rw [if_neg nothing, if_neg (by omega)]
    by_cases whole : cnt ≥ radix lvl
    · rw [if_pos whole]
      obtain ⟨first, fst, copiedFirst⟩ := subSpec child _ blk (radix lvl) dest good
        (by omega) (by omega) fresh (by omega) fun k less => apart k (by omega)
      have fitsFirst : blk + radix lvl + (cnt - radix lvl) ≤ first.bl_blocks := by
        rw [copiedFirst.blocks]
        omega
      obtain ⟨s', aft, copy⟩ := ih oths (by omega) copiedFirst.fresh fitsFirst
        (fun k less => by
          rw [copiedFirst.free, Nat.add_assoc, apart (radix lvl + k) (by omega),
            decide_eq_false (by omega), Bool.false_and, Bool.or_false])
      simp only [fst]
      refine ⟨s', aft, copy.fresh, copy.blocks.trans copiedFirst.blocks, fun x => ?_⟩
      rw [copy.free, copiedFirst.free, Bool.or_assoc]
      congr 1
      rw [joined]
      by_cases low : x < blk + radix lvl
      · rw [decide_eq_false (p := blk + radix lvl + 0 ≤ x ∧ _) (by omega), Bool.false_and,
          Bool.or_false]
        by_cases first : blk ≤ x
        · rw [if_pos (by omega), decide_eq_true (by omega), decide_eq_true (by omega)]
        · rw [decide_eq_false (by omega), decide_eq_false (by omega), Bool.false_and,
            Bool.false_and]
      · rw [decide_eq_false (p := blk + 0 ≤ x ∧ x < blk + radix lvl) (by omega),
          Bool.false_and, Bool.false_or, if_neg (by omega),
          show x - blk - radix lvl = x - (blk + radix lvl) by omega]
        congr 1
        exact decide_eq_decide.mpr (by omega)
    · rw [if_neg whole]
      obtain ⟨s', aft, copy⟩ := subSpec child _ blk cnt dest good (by omega)
        (by omega) fresh fits apart
      refine ⟨s', aft, copy.fresh, copy.blocks, fun x => ?_⟩
      rw [copy.free]
      by_cases bnd : blk + 0 ≤ x ∧ x < blk + cnt
      · rw [joined, if_pos (by omega)]
      · rw [decide_eq_false bnd, Bool.false_and, Bool.false_and]

theorem blstCopy_spec (lvl : Nat) : CopySpec lvl := by
  induction lvl with
  | zero => exact copyLeaf_spec
  | succ lvl ih =>
    intro scan rm blk cnt dest good pos lt fresh fits apart
    rw [blstCopy]
    obtain ⟨shape, hn | ⟨isAll, full⟩ | ⟨some_, less, _, segs⟩⟩ := good
    · rw [if_pos hn]
      exact ⟨dest, rfl, .refl fresh fun k _ _ => by rw [isFree, if_pos hn]⟩
    · have all : ∀ k < cnt, isFree (lvl + 1) scan k = true := by
        intro k less
        rw [isFree, if_neg (by omega), if_pos isAll, decide_eq_true (by omega)]
      rw [if_neg (by omega), if_pos isAll]
      by_cases part : cnt < radix (lvl + 1)
      · rw [if_pos part]
        exact Copied.all fresh pos fits apart all
      · have hw : cnt = radix (lvl + 1) := by omega
        rw [if_neg part, ← hw]
        exact Copied.all fresh pos fits apart all
    · rw [if_neg (by omega), if_neg (by omega)]
      obtain ⟨s', aft, copy⟩ :=
        copyLoop_spec ih segs lt fresh fits apart
      refine ⟨s', aft, copy.fresh, copy.blocks, fun x => ?_⟩
      rw [copy.free, isFree, if_neg (by omega), if_neg (by omega)]

end Copy

/-- `blist_resize` keeps what is free below the new size, and adds the new blocks when it is to. -/
theorem blistResize_spec {save : Blist} (right : Right save) {cnt : Nat} (pos : 0 < cnt)
    (few : cnt ≤ 536870912) (freenew : Bool) :
    ∃ s', blistResize save cnt freenew = some s' ∧ Fresh s' ∧ s'.bl_blocks = cnt ∧
      ∀ x, s'.free x = ((save.free x && decide (x < cnt)) ||
        (freenew && decide (save.bl_blocks ≤ x ∧ x < cnt))) := by
  obtain ⟨new, isNew, freshNew, blocksNew, noneFree⟩ := blistCreate_fresh pos few
  have hasBlocks := right.good.shape.bounds.1
  have isMin : (if cnt > save.bl_blocks then save.bl_blocks else cnt) =
      min cnt save.bl_blocks := by
    split <;> omega
  obtain ⟨copy, isCopy, copied⟩ := blstCopy_spec save.bl_level save.bl_root save.bl_blocks 0
    (min cnt save.bl_blocks) new right.good (by omega) (by omega) freshNew (by omega)
    fun k _ => noneFree _
  have sameFree : ∀ x, copy.free x = (save.free x && decide (x < cnt)) := by
    intro x
    rw [copied.free, noneFree]
    show (_ && save.free x) = _
    cases isIn : save.free x with
    | false => rw [Bool.and_false, Bool.false_and]
    | true =>
      have := right.lt_blocks isIn
      rw [Bool.and_true]
      exact decide_eq_decide.mpr (by omega)
  have blocksCopy := copied.blocks
  rw [blistResize, isNew]
  simp only [bind_eq_bind, bind_some, isMin, isCopy]
  by_cases more : (freenew && decide (min cnt save.bl_blocks < copy.bl_blocks)) = true
  · obtain ⟨isFreenew, grows⟩ : freenew = true ∧ min cnt save.bl_blocks < copy.bl_blocks := by
      simpa using more
    rw [if_pos more]
    have fits : min cnt save.bl_blocks + (copy.bl_blocks - min cnt save.bl_blocks) ≤
        copy.bl_blocks := by
      omega
    obtain ⟨s', aft, freshAfter, blks, free⟩ := copied.fresh.free fits (fun k less => by
        rw [sameFree]
        cases isIn : save.free (min cnt save.bl_blocks + k) with
        | false => rw [Bool.false_and]
        | true =>
          have := right.lt_blocks isIn
          omega)
      (by omega)
    refine ⟨s', aft, freshAfter, by omega, fun x => ?_⟩
    rw [free, withRange, sameFree, isFreenew]
    congr 1
    exact decide_eq_decide.mpr (by omega)
  · rw [if_neg more]
    refine ⟨copy, rfl, copied.fresh, by omega, fun x => ?_⟩
    have nothing : (freenew && decide (save.bl_blocks ≤ x ∧ x < cnt)) = false := by
      cases freenew with
      | false => rfl
      | true =>
        have : ¬ min cnt save.bl_blocks < copy.bl_blocks := by simpa using more
        rw [Bool.true_and, decide_eq_false (by omega)]
    rw [sameFree, nothing, Bool.or_false]

/-!
### Runs of calls

A blist as a set of free blocks: what each call does to the set, and the run of
calls from a new blist on.
-/

open NetBSD.Machine

/-- What a blist stands for. -/
@[ext] structure Space where
  blocks : Nat
  free : Finset Nat
deriving DecidableEq

def range (start count : Nat) : Finset Nat := Finset.Ico start (start + count)

namespace Space

/-- The calls that the callers of a blist promise. A list of one leaf has to be spared an empty
range at the start of the leaf, whose mask would be a shift by the width of the bitmap. -/
def Allows (space : Space) : Event → Prop
  | .alloc count => 1 ≤ count ∧ count ≤ 32
  | .free blkno count =>
    blkno + count ≤ space.blocks ∧ Disjoint (range blkno count) space.free ∧
      (space.blocks ≤ 32 → 0 < blkno % 32 + count)
  | .fill blkno count => 0 < count ∧ blkno + count ≤ space.blocks
  | .resize count _ => 1 ≤ count ∧ count ≤ 2 ^ 29

instance decidableAllows (space : Space) : (event : Event) → Decidable (space.Allows event)
  | .alloc count => inferInstanceAs (Decidable (1 ≤ count ∧ count ≤ 32))
  | .free blkno count => inferInstanceAs (Decidable (blkno + count ≤ space.blocks ∧
      Disjoint (range blkno count) space.free ∧ (space.blocks ≤ 32 → 0 < blkno % 32 + count)))
  | .fill blkno count => inferInstanceAs (Decidable (0 < count ∧ blkno + count ≤ space.blocks))
  | .resize count _ => inferInstanceAs (Decidable (1 ≤ count ∧ count ≤ 2 ^ 29))

/-- What a call does to the set, and what it returns. -/
def Moves (before after : Space) : Event → Answer → Prop
  | .alloc _, .block none => after = before
  | .alloc count, .block (some blk) =>
    blk + count ≤ before.blocks ∧ range blk count ⊆ before.free ∧
      after = ⟨before.blocks, before.free \ range blk count⟩
  | .free blkno count, .done => after = ⟨before.blocks, before.free ∪ range blkno count⟩
  | .fill blkno count, .filled nblks =>
    nblks = (before.free ∩ range blkno count).card ∧
      after = ⟨before.blocks, before.free \ range blkno count⟩
  | .resize count freenew, .done =>
    after = ⟨count, before.free ∩ range 0 count ∪
      if freenew then Finset.Ico before.blocks count else ∅⟩
  | _, _ => False

end Space

/-- The set that a blist stands for. -/
def Blist.space (bl : Blist) : Space :=
  ⟨bl.bl_blocks, (Finset.range bl.bl_blocks).filter fun x => bl.free x = true⟩

/-- What is to hold in every state: `bl_free` is the size of the set, and each call that is allowed
does to the set what it is to. -/
structure Sound (bl : Blist) : Prop where
  counted : bl.bl_free = bl.space.free.card
  moves : ∀ event, bl.space.Allows event → ∃ after answer, step bl event = some (after, answer) ∧
      bl.space.Moves after.space event answer

section Space

variable {bl s' : Blist} {start cnt : Nat}

theorem mem_range {x : Nat} : x ∈ range start cnt ↔ start ≤ x ∧ x < start + cnt :=
  mem_Ico

theorem Right.mem_free (right : Right bl) {x : Nat} : x ∈ bl.space.free ↔ bl.free x = true := by
  rw [Blist.space, Finset.mem_filter, Finset.mem_range]
  exact ⟨And.right, fun free => ⟨right.lt_blocks free, free⟩⟩

theorem Right.counted (right : Right bl) : bl.bl_free = bl.space.free.card := by
  rw [right.count, countIn, Nat.count_eq_card_filter_range]
  simp only [Nat.zero_add]
  rfl

theorem Right.countIn_eq (right : Right bl) (fits : start + cnt ≤ bl.bl_blocks) :
    countIn bl.free start cnt = (bl.space.free ∩ range start cnt).card := by
  have without := countIn_withoutRange bl.free fits
  have whole := right.counted
  have atAll : ∀ set : Nat → Bool, countIn set 0 bl.bl_blocks =
      ((Finset.range bl.bl_blocks).filter fun x => set x = true).card := by
    intro set
    rw [countIn, Nat.count_eq_card_filter_range]
    simp only [zero_add]
  have tl : (Finset.range bl.bl_blocks).filter
      (fun x => withoutRange bl.free start cnt x = true) =
      bl.space.free \ range start cnt := by
    ext x
    rw [Finset.mem_filter, Finset.mem_range, Finset.mem_sdiff, right.mem_free, mem_range,
      withoutRange, and_eq_true, not_eq_true', decide_eq_false_iff_not]
    exact ⟨And.right, fun both => ⟨right.lt_blocks both.1, both⟩⟩
  have parts := card_sdiff_add_card_inter bl.space.free (range start cnt)
  rw [atAll, tl, ← right.count] at without
  omega

theorem space_eq (next : Right s') {space : Space}
    (blks : s'.bl_blocks = space.blocks)
    (free : ∀ x, s'.free x = true ↔ x ∈ space.free) : s'.space = space := by
  refine Space.ext blks (Finset.ext fun x => ?_)
  rw [next.mem_free, free]

theorem space_without (right : Right bl) (next : Right s')
    (blks : s'.bl_blocks = bl.bl_blocks)
    (aft : ∀ x, s'.free x = withoutRange bl.free start cnt x) :
    s'.space = ⟨bl.bl_blocks, bl.space.free \ range start cnt⟩ := by
  refine space_eq next blks fun x => ?_
  rw [aft, withoutRange, and_eq_true, not_eq_true', decide_eq_false_iff_not,
    mem_sdiff, right.mem_free, mem_range]

end Space

section Calls

variable {bl : Blist}

/-- One call on a sound list moves the set of free blocks as it should. -/
theorem step_spec (right : Right bl) (event : Event) (may : bl.space.Allows event) :
    ∃ s' answer, step bl event = some (s', answer) ∧ Right s' ∧
      bl.space.Moves s'.space event answer := by
  cases event with
  | alloc cnt =>
    obtain ⟨pos, fits⟩ := may
    obtain ⟨s', res, aft, next, blks, allocs⟩ :=
      blistAlloc_spec right pos fits
    refine ⟨s', .block res, by rw [step, aft]; rfl, next, ?_⟩
    cases res with
    | none =>
      refine space_eq next blks fun x => ?_
      rw [allocs, right.mem_free]
    | some blk =>
      obtain ⟨start, beg, hfr, gone⟩ := allocs
      obtain rfl : blk = start := by omega
      refine ⟨?_, fun x rng => ?_, space_without right next blks gone⟩
      · have := right.lt_blocks (hfr (cnt - 1) (by omega))
        show blk + cnt ≤ bl.bl_blocks
        omega
      · rw [mem_range] at rng
        have := hfr (x - blk) (by omega)
        rw [right.mem_free]
        rwa [show blk + (x - blk) = x by omega] at this
  | free blkno cnt =>
    obtain ⟨fits, apart, ne⟩ := may
    obtain ⟨s', aft, next, blks, added⟩ := blistFree_spec right fits
      (fun k less => by
        have rng : blkno + k ∈ range blkno cnt := mem_range.mpr (by omega)
        have := disjoint_left.mp apart rng
        rw [right.mem_free] at this
        exact of_not_eq_true this) ne
    refine ⟨s', .done, by rw [step, aft]; rfl, next, ?_⟩
    refine space_eq next blks fun x => ?_
    rw [added, withRange, or_eq_true, decide_eq_true_iff, mem_union, right.mem_free,
      mem_range]
  | fill blkno cnt =>
    obtain ⟨pos, fits⟩ := may
    obtain ⟨s', aft, next, blks, gone⟩ := blistFill_spec right fits pos
    refine ⟨s', .filled _, by rw [step, aft]; rfl, next, ?_, ?_⟩
    · exact right.countIn_eq fits
    · exact space_without right next blks gone
  | resize cnt freenew =>
    obtain ⟨pos, few⟩ := may
    obtain ⟨s', aft, fresh, blks, kept⟩ :=
      blistResize_spec right pos (by omega) freenew
    have next := fresh.right
    refine ⟨s', .done, by rw [step, aft]; rfl, next, ?_⟩
    refine space_eq next blks fun x => ?_
    rw [kept, or_eq_true, and_eq_true, decide_eq_true_iff, mem_union,
      mem_inter, right.mem_free, mem_range, zero_add]
    refine or_congr (and_congr_right fun _ => by omega) ?_
    cases freenew with
    | false => simp
    | true =>
      rw [Bool.true_and, decide_eq_true_iff, if_pos rfl, mem_Ico]
      rfl

theorem Right.sound (right : Right bl) : Sound bl where
  counted := right.counted
  moves := by
    intro event may
    obtain ⟨s', answer, move, _, moved⟩ := step_spec right event may
    exact ⟨s', answer, move, moved⟩

theorem next_right (right : Right bl) (event : Event) (may : bl.space.Allows event) :
    ∃ s', next bl event = some s' ∧ Right s' := by
  obtain ⟨s', answer, move, rightAfter, _⟩ := step_spec right event may
  exact ⟨s', by rw [next, move]; rfl, rightAfter⟩

end Calls

section Run

/-- Whatever calls are made of a new blist, as long as each is allowed none fails, and each does to
the set of free blocks what it is to. -/
theorem blist_set {blocks : Nat} (positive : 1 ≤ blocks) (few : blocks ≤ 2 ^ 29) :
    ∃ bl, blistCreate blocks = some bl ∧ bl.space = ⟨blocks, ∅⟩ ∧ ∀ events : List Event,
        (∀ front event, front ++ [event] <+: events → ∀ reached,
          consume next front bl = some reached → reached.space.Allows event) →
        ∃ reached, consume next events bl = some reached ∧ Sound reached := by
  obtain ⟨bl, isBl, right, isBlocks, noneFree⟩ := blistCreate_spec positive (by omega)
  refine ⟨bl, isBl, ?_, fun events may => ?_⟩
  · refine space_eq right isBlocks fun x => ?_
    rw [noneFree]
    simp
  · obtain ⟨reached, eaten, rightReached⟩ := consume_invariant next Right
      (fun bl event => bl.space.Allows event) (fun bl event right => next_right right event) events
      right may
    exact ⟨reached, eaten, rightReached.sound⟩

/-- Two blocks are found above those filled, and a longer list gets what a shorter one had kept. -/
def setRun : List Event :=
  [.free 0 40, .fill 1 30, .alloc 2, .free 32 2, .resize 35 true, .resize 90 true, .fill 0 60]

theorem blist_set_thousand : ∃ bl reached, blistCreate 1000 = some bl ∧
    consume next setRun bl = some reached ∧ Sound reached ∧ reached.bl_free = 30 := by
  have allowed : ∀ bl ∈ blistCreate 1000,
      AllFine next (fun bl event => bl.space.Allows event) setRun bl ∧
        (consume next setRun bl).map Blist.bl_free = some 30 := by
    decide +kernel
  obtain ⟨bl, isBl, -, run⟩ := blist_set (show 1 ≤ 1000 by decide) (by decide)
  obtain ⟨fine, count⟩ := allowed bl isBl
  obtain ⟨reached, eaten, sound⟩ := run setRun fun front event pre reached => fine.along pre
  rw [eaten] at count
  exact ⟨bl, reached, isBl, eaten, sound, some.inj count⟩

/-- In a list of one leaf the mask of an empty range at the start shifts by the width of the
bitmap. -/
theorem blistFree_empty : ¬ ∀ blocks, 1 ≤ blocks → blocks ≤ 2 ^ 29 →
    ∀ bl, blistCreate blocks = some bl → ∀ blkno cnt, blkno + cnt ≤ bl.space.blocks →
      Disjoint (range blkno cnt) bl.space.free → (step bl (.free blkno cnt)).isSome := by
  intro always
  have sml : (32 : Nat) ≤ 2 ^ 29 := by decide
  have created : blistCreate 32 = some ⟨32, 0, 0, (⟨0, 0⟩ : Leaf)⟩ := rfl
  have empty : Disjoint (range 0 0) (Blist.space ⟨32, 0, 0, (⟨0, 0⟩ : Leaf)⟩).free :=
    disjoint_empty_left _
  have moved := always 32 (by decide) sml _ created 0 0 (Nat.zero_le _) empty
  cases moved

end Run

/-!
### Hints over a run

The hints of a blist over a run of calls: as long as no free makes a node wholly
free whose hint was lowered before, no hint hides free blocks.
-/

/-- What is to hold in every state: the hint of each node that is not hidden is at least the longest
run of free blocks in a leaf below it, and an allocation fails only when no leaf has a run. -/
structure Hints (bl : Blist) : Prop where
  covers : Hinted Covers bl.bl_level bl.bl_root
  found : ∀ count, 1 ≤ count → count ≤ 32 → ∀ after,
    step bl (.alloc count) = some (after, .block none) → ¬ HasRun bl.free count

def Fine (bl : Blist) : Event → Prop
  | .free blkno count => Keeps bl.bl_level bl.bl_root blkno count
  | _ => True

instance decidableFine (bl : Blist) : (event : Event) → Decidable (Fine bl event)
  | .free blkno count => Keeps.decidable bl.bl_level bl.bl_root blkno count
  | .alloc _ | .fill _ _ | .resize _ _ => isTrue trivial

section Moves

variable {bl s' : Blist} {event : Event}

theorem next_spec (right : Right bl) (may : bl.space.Allows event)
    (moved : next bl event = some s') :
    Right s' ∧ ∃ answer, bl.space.Moves s'.space event answer := by
  obtain ⟨fnd, answer, move, rightFound, moves⟩ := step_spec right event may
  obtain rfl : fnd = s' := by
    rw [next, move] at moved
    exact some.inj moved
  exact ⟨rightFound, answer, moves⟩

variable {space space' : Space} {answer : Answer} {cnt start : Nat}

theorem Space.Moves.free_blocks (moves : space.Moves space' (.free start cnt) answer) :
    space'.blocks = space.blocks := by
  cases answer with
  | done =>
    obtain rfl : space' = ⟨space.blocks, space.free ∪ range start cnt⟩ := moves
    rfl
  | block | filled => cases moves

theorem Space.Moves.of_fill (moves : space.Moves space' (.fill start cnt) answer) :
    space' = ⟨space.blocks, space.free \ range start cnt⟩ := by
  cases answer with
  | done | block => cases moves
  | filled nblks => exact moves.2

theorem Space.Moves.of_alloc (moves : space.Moves space' (.alloc cnt) answer) :
    space'.blocks = space.blocks ∧ space'.free ⊆ space.free := by
  cases answer with
  | done | filled => cases moves
  | block blk =>
    cases blk with
    | none =>
      obtain rfl : space' = space := moves
      exact ⟨rfl, Finset.Subset.refl _⟩
    | some blk =>
      obtain ⟨_, _, rfl⟩ := moves
      exact ⟨rfl, sdiff_subset⟩

end Moves

section Run

variable {bl : Blist}

section

variable (right : Right bl) (covers : Hinted Covers bl.bl_level bl.bl_root)

include right covers

theorem Right.hints :
    Hints bl where
  covers := covers
  found := by
    intro cnt pos fits s' bad
    obtain ⟨⟨found, blk⟩, alloc, isAnswer⟩ := map_eq_some_iff.mp bad
    obtain ⟨_, hn⟩ := Prod.mk.inj isAnswer
    exact (blistAlloc_hint right pos fits covers alloc).2 (Answer.block.inj hn)

theorem step_hinted
    {event : Event} (may : bl.space.Allows event) (fine : Fine bl event) {s' : Blist}
    {answer : Answer} (move : step bl event = some (s', answer)) :
    Hinted Covers s'.bl_level s'.bl_root := by
  cases event with
  | alloc cnt =>
    obtain ⟨⟨fnd, blk⟩, allocated, hit⟩ := map_eq_some_iff.mp move
    obtain ⟨rfl, _⟩ := Prod.mk.inj hit
    exact (blistAlloc_hint right may.1 may.2 covers allocated).1
  | free blkno cnt =>
    obtain ⟨fnd, freed, hit⟩ := map_eq_some_iff.mp move
    obtain ⟨rfl, _⟩ := Prod.mk.inj hit
    exact blistFree_hint covers_rule right may.1 covers fine freed
  | fill blkno cnt =>
    obtain ⟨⟨fnd, nblks⟩, full, hit⟩ := map_eq_some_iff.mp move
    obtain ⟨rfl, _⟩ := Prod.mk.inj hit
    exact blistFill_hint covers_rule right may.2 may.1 covers full
  | resize cnt freenew =>
    obtain ⟨fnd, resized, hit⟩ := map_eq_some_iff.mp move
    obtain ⟨rfl, _⟩ := Prod.mk.inj hit
    obtain ⟨pos, few⟩ := may
    obtain ⟨fresh, isFresh, isRight, _⟩ := blistResize_spec right pos (by omega) freenew
    obtain rfl := some.inj (isFresh.symm.trans resized)
    exact isRight.hinted.covers

theorem next_hinted (event : Event) (may : bl.space.Allows event) (fine : Fine bl event) :
    ∃ s', next bl event = some s' ∧ Right s' ∧
      Hinted Covers s'.bl_level s'.bl_root := by
  obtain ⟨s', answer, move, rightAfter, _⟩ := step_spec right event may
  exact ⟨s', by rw [next, move]; rfl, rightAfter,
    step_hinted right covers may fine move⟩

end

/-- Whatever calls are made of a new blist, as long as each is allowed and each free is fine the
hints never hide free blocks. -/
theorem blist_hints {blocks : Nat} (positive : 1 ≤ blocks) (few : blocks ≤ 2 ^ 29) :
    ∃ bl, blistCreate blocks = some bl ∧ ∀ events : List Event,
      (∀ front event, front ++ [event] <+: events → ∀ reached,
        consume next front bl = some reached → reached.space.Allows event ∧ Fine reached event) →
      ∃ reached, consume next events bl = some reached ∧ Hints reached := by
  obtain ⟨bl, isBl, fresh, _⟩ := blistCreate_fresh positive (by omega)
  refine ⟨bl, isBl, fun events may => ?_⟩
  obtain ⟨reached, eaten, right, covers⟩ := consume_invariant next
    (fun bl => Right bl ∧ Hinted Covers bl.bl_level bl.bl_root)
    (fun bl event => bl.space.Allows event ∧ Fine bl event)
    (fun bl event holds fine => next_hinted holds.1 holds.2 event fine.1 fine.2) events
    ⟨fresh.right, fresh.hinted.covers⟩ may
  exact ⟨reached, eaten, right.hints covers⟩

/-- A free of most of a node, and one of the others behind an allocation that lowers no hint. -/
def hintRun : List Event := [.free 0 500, .alloc 2, .free 500 12, .free 0 2, .alloc 32, .fill 32 480]

theorem blist_hints_thousand : ∃ bl reached, blistCreate 1000 = some bl ∧
    consume next hintRun bl = some reached ∧ Hints reached ∧ reached.bl_free = 0 := by
  have allowed : ∀ bl ∈ blistCreate 1000,
      AllFine next (fun bl event => bl.space.Allows event ∧ Fine bl event) hintRun bl ∧
        (consume next hintRun bl).map Blist.bl_free = some 0 := by
    decide +kernel
  obtain ⟨bl, isBl, run⟩ := blist_hints (show 1 ≤ 1000 by decide) (by decide)
  obtain ⟨fine, count⟩ := allowed bl isBl
  obtain ⟨reached, eaten, hints⟩ := run hintRun fun front event pre reached => fine.along pre
  rw [eaten] at count
  exact ⟨bl, reached, isBl, eaten, hints, some.inj count⟩

/-- Block 511 alone is free under the first node, whose hint is 1 after a failed allocation of two
blocks. Freeing the others makes the node wholly free, and the hint stays. -/
def lowHint : List Event := [.free 0 512, .fill 0 511, .alloc 2, .free 0 511]

theorem lowHint_allowed {bl : Blist} (created : blistCreate 1024 = some bl) :
    AllFine next (fun bl event => bl.space.Allows event) lowHint bl := by
  obtain ⟨new, isNew, right, isBlocks, noneFree⟩ :=
    blistCreate_spec (show 0 < 1024 by decide) (by decide)
  obtain rfl := some.inj (isNew.symm.trans created)
  have noFree : new.space.free = ∅ := by
    refine eq_empty_of_forall_notMem fun x isIn => ?_
    rw [right.mem_free, noneFree] at isIn
    cases isIn
  have blks : new.space.blocks = 1024 := isBlocks
  have freeAllowed : new.space.Allows (.free 0 512) :=
    ⟨by omega, by rw [noFree]; exact disjoint_empty_right _, fun _ => by decide⟩
  refine ⟨freeAllowed, fun first fst => ?_⟩
  obtain ⟨rightFirst, _, isFreed⟩ := next_spec right freeAllowed fst
  have firstBlocks : first.space.blocks = 1024 := isFreed.free_blocks.trans blks
  have fillAllowed : first.space.Allows (.fill 0 511) := ⟨by decide, by omega⟩
  refine ⟨fillAllowed, fun snd h2 => ?_⟩
  obtain ⟨rightSecond, _, isFilled⟩ := next_spec rightFirst fillAllowed h2
  have isSecondSpace := isFilled.of_fill
  have secondBlocks : snd.space.blocks = 1024 := by rw [isSecondSpace, firstBlocks]
  have allocAllowed : snd.space.Allows (.alloc 2) := ⟨by decide, by decide⟩
  refine ⟨allocAllowed, fun third isThird => ?_⟩
  obtain ⟨_, _, isAlloc⟩ := next_spec rightSecond allocAllowed isThird
  obtain ⟨eqBlks, fewer⟩ := isAlloc.of_alloc
  refine ⟨⟨by omega, ?_, fun _ => by decide⟩, fun _ _ => trivial⟩
  rw [isSecondSpace] at fewer
  exact Disjoint.mono_right fewer disjoint_sdiff

/-- A hint that is too low hides 512 free blocks. -/
theorem bighint_low : ¬ ∀ blocks, 1 ≤ blocks → blocks ≤ 2 ^ 29 → ∀ bl,
    blistCreate blocks = some bl → ∀ events : List Event,
      (∀ front event, front ++ [event] <+: events → ∀ reached,
        consume next front bl = some reached → reached.space.Allows event) →
      ∃ reached, consume next events bl = some reached ∧ Hints reached := by
  intro always
  have sml : 1024 ≤ 2 ^ 29 := by decide
  obtain ⟨bl, isBl, _⟩ := blistCreate_spec (show 0 < 1024 by decide) (by decide)
  obtain ⟨reached, eaten, hints⟩ := always 1024 (by decide) sml bl isBl lowHint
    fun front event pre reached => (lowHint_allowed isBl).along pre
  have wrong : ((blistCreate 1024).bind (consume next lowHint)).map (fun bl =>
      ((step bl (.alloc 2)).map Prod.snd, bl.free 0, bl.free 1)) =
        some (some (.block none), true, true) := by
    decide +kernel
  rw [isBl, bind_some, eaten, map_some, some.injEq, Prod.mk.injEq,
    Prod.mk.injEq] at wrong
  obtain ⟨bad, fst, snd⟩ := wrong
  obtain ⟨⟨s', answer⟩, bad, rfl⟩ := map_eq_some_iff.mp bad
  refine hints.found 2 (by decide) (by decide) s' bad ⟨0, by decide, fun k less => ?_⟩
  match k, less with
  | 0, _ => exact fst
  | 1, _ => exact snd

end Run

end NetBSD.Kern.BlockList
