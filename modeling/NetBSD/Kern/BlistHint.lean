import NetBSD.Kern.BlistFree

/-!
Owns the calls on a whole blist, and a new blist.
-/

namespace NetBSD.Kern.BlockList

open NetBSD.Arith List Option

def Blist.free (bl : Blist) (x : Nat) : Bool := isFree bl.bl_level bl.bl_root x

structure Right (bl : Blist) : Prop where
  level : bl.bl_level ≤ 6
  good : Good bl.bl_level bl.bl_root bl.bl_blocks
  count : bl.bl_free = countIn bl.free 0 bl.bl_blocks

section Calls

variable {bl : Blist} {cnt : Nat}

theorem radix_mono {low high : Nat} (le : low ≤ high) : radix low ≤ radix high := by
  induction high with
  | zero =>
    obtain rfl : low = 0 := by omega
    exact le_refl _
  | succ high ih =>
    by_cases same : low = high + 1
    · rw [same]
    · have := ih (by omega)
      rw [radix_succ]
      omega

theorem radix_six : radix 6 = 536870912 := by decide

section

variable (right : Right bl)

include right

theorem Right.small : radix bl.bl_level < terminator := by
  have := radix_mono right.level
  have isTerminator : terminator = 4294967295 := rfl
  rw [radix_six] at this
  omega

theorem Right.blocks_le : bl.bl_blocks ≤ 536870912 := by
  have := radix_mono right.level
  have := right.good.shape.bounds.2.1
  have := radix_six
  omega

theorem Right.lt_blocks {x : Nat} (free : bl.free x = true) :
    x < bl.bl_blocks :=
  right.good.lt_room free

theorem blistAlloc_spec (pos : 0 < cnt) (fits : cnt ≤ 32) :
    ∃ s' res, blistAlloc bl cnt = some (s', res) ∧ Right s' ∧
      s'.bl_blocks = bl.bl_blocks ∧ Allocates bl.free s'.free 0 cnt res := by
  obtain ⟨root, res, isRoot, good, allocs⟩ :=
    blstAlloc_spec pos fits bl.bl_level right.small bl.bl_root bl.bl_blocks 0 right.good
  have sml := right.blocks_le
  have le : countIn bl.free 0 bl.bl_blocks ≤ bl.bl_blocks := countIn_le
  rw [blistAlloc, isRoot]
  cases res with
  | some r =>
    have taken := allocs.counted (fun x free => right.lt_blocks free) pos
    refine ⟨_, _, rfl, ⟨right.level, good, ?_⟩, rfl, allocs⟩
    have isCount := right.count
    show sub bl.bl_free cnt = countIn (isFree bl.bl_level root) 0 bl.bl_blocks
    have same : countIn bl.free 0 bl.bl_blocks =
      countIn (isFree bl.bl_level bl.bl_root) 0 bl.bl_blocks := rfl
    rw [sub_eq (by omega) (by omega)]
    omega
  | none =>
    refine ⟨_, _, rfl, ⟨right.level, good, ?_⟩, rfl, allocs⟩
    rw [right.count]
    exact countIn_congr fun k _ => (allocs _).symm

theorem blistFree_spec {a : Nat} (fits : a + cnt ≤ bl.bl_blocks)
    (alloc : ∀ k < cnt, bl.free (a + k) = false)
    (ne : bl.bl_blocks ≤ 32 → 0 < a % 32 + cnt) :
    ∃ s', blistFree bl a cnt = some s' ∧ Right s' ∧ s'.bl_blocks = bl.bl_blocks ∧
      ∀ x, s'.free x = withRange bl.free a cnt x := by
  have sml := right.blocks_le
  obtain ⟨root, isRoot, good, aft⟩ := blstFree_spec bl.bl_level right.small bl.bl_root
    bl.bl_blocks 0 a cnt right.good fits alloc
    (fun leaf => ne (by
      have := right.good.shape.bounds.2.1
      rwa [leaf] at this)) (Nat.dvd_zero 32)
  rw [zero_add] at isRoot
  have le : countIn bl.free 0 bl.bl_blocks ≤ bl.bl_blocks := countIn_le
  refine ⟨⟨bl.bl_blocks, bl.bl_level, add bl.bl_free cnt, root⟩, by rw [blistFree, isRoot]; rfl,
    ⟨right.level, good, ?_⟩, rfl, aft⟩
  show add bl.bl_free cnt = countIn (isFree bl.bl_level root) 0 bl.bl_blocks
  have isCount := right.count
  have same : countIn (isFree bl.bl_level root) 0 bl.bl_blocks =
      countIn (withRange bl.free a cnt) 0 bl.bl_blocks := countIn_congr fun k _ => aft _
  rw [add_eq (by omega), same, countIn_withRange fits alloc, isCount]

theorem blistFill_spec {a : Nat} (fits : a + cnt ≤ bl.bl_blocks) (pos : 0 < cnt) :
    ∃ s', blistFill bl a cnt = some (s', countIn bl.free a cnt) ∧ Right s' ∧
      s'.bl_blocks = bl.bl_blocks ∧ ∀ x, s'.free x = withoutRange bl.free a cnt x := by
  have sml := right.blocks_le
  obtain ⟨root, isRoot, good, aft⟩ := blstFill_spec bl.bl_level right.small bl.bl_root
    bl.bl_blocks 0 a cnt right.good fits pos (Nat.dvd_zero 32)
  rw [zero_add] at isRoot
  have le : countIn bl.free 0 bl.bl_blocks ≤ bl.bl_blocks := countIn_le
  refine ⟨⟨bl.bl_blocks, bl.bl_level, sub bl.bl_free (countIn bl.free a cnt), root⟩,
    by rw [blistFill, isRoot]; rfl, ⟨right.level, good, ?_⟩, rfl, aft⟩
  show sub bl.bl_free (countIn bl.free a cnt) = countIn (isFree bl.bl_level root) 0 bl.bl_blocks
  have isCount := right.count
  have same : countIn (isFree bl.bl_level root) 0 bl.bl_blocks =
      countIn (withoutRange bl.free a cnt) 0 bl.bl_blocks := countIn_congr fun k _ => aft _
  have := countIn_withoutRange bl.free fits
  rw [sub_eq (by omega) (by omega)]
  omega

end

end Calls

section Create

variable {lvl rm : Nat}

theorem radixInitLoop_pieces (init : Nat → Node lvl)
    (shapes : ∀ rm, 0 < rm → rm ≤ radix lvl → Shape lvl (init rm) rm) (slots : Nat)
    (fits : rm ≤ slots * radix lvl) :
    Pieces (radix lvl) (Shape lvl) (radixInitLoop (radix lvl) init slots rm) rm := by
  have pos := radix_pos lvl
  induction slots generalizing rm with
  | zero =>
    show rm = 0
    omega
  | succ slots ih =>
    rw [Nat.succ_mul] at fits
    rw [radixInitLoop]
    by_cases whole : rm ≥ radix lvl
    · rw [if_pos whole]
      refine ⟨by omega, ?_, ih (by omega)⟩
      rw [min_eq_right whole]
      exact shapes _ (by omega) (le_refl _)
    rw [if_neg whole]
    by_cases some_ : rm > 0
    · rw [if_pos some_]
      have nothing : 0 ≤ slots * radix lvl := Nat.zero_le _
      have tl := ih nothing
      refine ⟨some_, ?_, ?_⟩
      · rw [min_eq_left (by omega)]
        exact shapes rm some_ (by omega)
      · rwa [show rm - radix lvl = 0 by omega]
    · rw [if_neg some_]
      show rm = 0
      omega

theorem shape_radixInit (pos : 0 < rm) (fits : rm ≤ radix lvl) :
    Shape lvl (blstRadixInit lvl rm) rm := by
  have noHint : 0 < terminator := by decide
  induction lvl generalizing rm with
  | zero => exact ⟨pos, fits, noHint⟩
  | succ lvl ih =>
    refine ⟨pos, fits, noHint, radixInitLoop_pieces _ (fun rm hasRoom lt =>
      ih hasRoom lt) metaRadix ?_⟩
    rwa [mul_comm]

theorem radixInit_good (pos : 0 < rm) (fits : rm ≤ radix lvl) :
    Good lvl (blstRadixInit lvl rm) rm ∧
      ∀ x, isFree lvl (blstRadixInit lvl rm) x = false := by
  have shape := shape_radixInit pos fits
  cases lvl with
  | zero =>
    refine ⟨⟨shape, fun x isSet => ?_⟩, bitAt_zero⟩
    rw [blstRadixInit, bitAt_zero] at isSet
    cases isSet
  | succ lvl => exact ⟨⟨shape, .inl rfl⟩, fun x => if_pos rfl⟩

theorem levelLoop_spec {blks : Nat} (few : blks ≤ 536870912) (fuel : Nat) {lvl : Nat}
    (lt : lvl ≤ 6) (enough : 7 ≤ lvl + fuel) :
    ∃ fnd ≤ 6, levelLoop blks fuel (radix lvl) lvl = some fnd ∧ blks ≤ radix fnd := by
  induction fuel generalizing lvl with
  | zero => omega
  | succ fuel ih =>
    rw [levelLoop]
    by_cases tooSmall : radix lvl < blks
    · have below_ : lvl < 6 := by
        by_contra last
        obtain rfl : lvl = 6 := by omega
        rw [radix_six] at tooSmall
        omega
      have next : radix lvl * metaRadix % 4294967296 = radix (lvl + 1) := by
        have := radix_mono (show lvl + 1 ≤ 6 by omega)
        rw [radix_six] at this
        exact Nat.mod_eq_of_lt (show radix (lvl + 1) < 4294967296 by omega)
      rw [if_pos tooSmall, next]
      exact ih (by omega) (by omega)
    · rw [if_neg tooSmall]
      exact ⟨lvl, lt, rfl, by omega⟩

theorem blistCreate_spec {blks : Nat} (pos : 0 < blks) (few : blks ≤ 536870912) :
    ∃ bl, blistCreate blks = some bl ∧ Right bl ∧ bl.bl_blocks = blks ∧
      ∀ x, bl.free x = false := by
  obtain ⟨lvl, lt, isLevel, fits⟩ :=
    levelLoop_spec few 8 (Nat.zero_le 6) (by omega)
  obtain ⟨good, no⟩ := radixInit_good pos fits
  have beg : radix 0 = 32 := rfl
  rw [beg] at isLevel
  refine ⟨⟨blks, lvl, 0, blstRadixInit lvl blks⟩, by rw [blistCreate, isLevel]; rfl,
    ⟨lt, good, ?_⟩, rfl, no⟩
  exact (countIn_eq_zero fun k _ => no _).symm

end Create

/-!
### What a hint promises

The hints of a blist. A hint suffices for a set of free blocks when no run in a
leaf is longer; allocating and filling keep this, and so does freeing as long as no
node whose hint was lowered becomes wholly free. A list that is only freed into has
hints that suffice for any set.
-/

/-- No run of free blocks in a leaf is longer than the hint. -/
def Covers (hint : Nat) (set : Nat → Bool) : Prop := ∀ count, HasRun set count → count ≤ hint

/-- The hint is the most that a leaf can have, unless there is no free block. -/
def Highest (hint : Nat) (set : Nat → Bool) : Prop := (∃ x, set x = true) → 32 ≤ hint

def Hinted (enough : Nat → (Nat → Bool) → Prop) : (level : Nat) → Node level → Prop
  | 0, scan => enough scan.bm_bighint (isFree 0 scan)
  | level + 1, scan =>
    enough scan.bm_bighint (isFree (level + 1) scan) ∧
      (scan.bmu_avail ≠ 0 → scan.bmu_avail ≠ radix (level + 1) →
        ∀ child ∈ scan.children, Hinted enough level child)

def Split {α : Type} (holds : α → Nat → Nat → Prop) (size : Nat) : List α → Nat → Nat → Prop
  | [], _, _ => True
  | piece :: rest, a, count =>
    (a < size → holds piece a (min (size - a) count)) ∧
      Split holds size rest (a - size) (count - (size - a))

/-- A free of a range makes no node wholly free that had some free blocks and a hint below the size
of a leaf. -/
def Keeps : (level : Nat) → Node level → Nat → Nat → Prop
  | 0, _, _, _ => True
  | level + 1, scan, a, count =>
    scan.bmu_avail = 0 ∨ scan.bmu_avail = radix (level + 1) ∨
      if scan.bmu_avail + count = radix (level + 1) then 32 ≤ scan.bm_bighint
      else Split (Keeps level) (radix level) scan.children a count

instance Split.decidable {α : Type} {holds : α → Nat → Nat → Prop} {size : Nat}
    [∀ piece a count, Decidable (holds piece a count)] :
    (pieces : List α) → (a count : Nat) → Decidable (Split holds size pieces a count)
  | [], _, _ => isTrue trivial
  | piece :: rest, a, count =>
    have : ∀ a count, Decidable (Split holds size rest a count) := Split.decidable rest
    inferInstanceAs (Decidable ((a < size → holds piece a (min (size - a) count)) ∧
      Split holds size rest (a - size) (count - (size - a))))

instance Keeps.decidable : (level : Nat) → (scan : Node level) → (a count : Nat) →
    Decidable (Keeps level scan a count)
  | 0, _, _, _ => isTrue trivial
  | level + 1, scan, a, count =>
    have := Keeps.decidable level
    inferInstanceAs (Decidable (scan.bmu_avail = 0 ∨ scan.bmu_avail = radix (level + 1) ∨
      if scan.bmu_avail + count = radix (level + 1) then 32 ≤ scan.bm_bighint
      else Split (Keeps level) (radix level) scan.children a count))

/-- What the two ways to suffice have in common. -/
structure Rule (enough : Nat → (Nat → Bool) → Prop) : Prop where
  mono : ∀ {low high set}, enough low set → low ≤ high → enough high set
  subset : ∀ {hint set part}, enough hint set → (∀ x, part x = true → set x = true) →
    enough hint part
  large : ∀ {hint set}, 32 ≤ hint → enough hint set
  none : ∀ {hint set}, (∀ x, set x = false) → enough hint set
  joins : ∀ {level hint} {children : List (Node level)},
    (∀ child ∈ children, enough hint (isFree level child)) →
      enough hint (joined (isFree level) (radix level) children)
  splits : ∀ {level room hint} {children : List (Node level)},
    Pieces (radix level) (Good level) children room →
    enough hint (joined (isFree level) (radix level) children) →
      ∀ child ∈ children, enough hint (isFree level child)

section Runs

variable {set : Nat → Bool} {cnt : Nat}

theorem HasRun.subset {part : Nat → Bool} (run : HasRun part cnt)
    (isPart : ∀ x, part x = true → set x = true) : HasRun set cnt := by
  obtain ⟨beg, inLeaf, all⟩ := run
  exact ⟨beg, inLeaf, fun k less => isPart _ (all k less)⟩

theorem HasRun.shorter (run : HasRun set cnt) {less : Nat} (isLess : less ≤ cnt) :
    HasRun set less := by
  obtain ⟨beg, inLeaf, all⟩ := run
  exact ⟨beg, by omega, fun k lt => all k (by omega)⟩

theorem HasRun.le (run : HasRun set cnt) : cnt ≤ 32 := by
  obtain ⟨beg, inLeaf, _⟩ := run
  omega

theorem HasRun.le_countIn (run : HasRun set cnt) {rm : Nat}
    (inRoom : ∀ x, set x = true → x < rm) : cnt ≤ countIn set 0 rm := by
  obtain ⟨beg, _, all⟩ := run
  by_cases nothing : cnt = 0
  · omega
  · have last := inRoom _ (all (cnt - 1) (by omega))
    have taken : countIn set beg cnt = cnt := countIn_eq_all all
    have := countIn_split set (show beg + cnt ≤ rm by omega)
    omega

variable {lvl rm : Nat}

theorem HasRun.of_joined {kids : List (Node lvl)}
    (run : HasRun (joined (isFree lvl) (radix lvl) kids) cnt) (pos : 0 < cnt) :
    ∃ child ∈ kids, HasRun (isFree lvl child) cnt := by
  induction kids with
  | nil =>
    obtain ⟨_, _, all⟩ := run
    have := all 0 pos
    cases this
  | cons child tl ih =>
    obtain ⟨beg, inLeaf, all⟩ := run
    obtain ⟨leaves, isLeaves⟩ := radix_dvd lvl
    by_cases fst : beg < radix lvl
    · refine ⟨child, mem_cons_self, beg, inLeaf, fun k less => ?_⟩
      have := all k less
      rwa [joined, if_pos (by omega)] at this
    obtain ⟨fnd, isIn, inFound⟩ := ih ⟨beg - radix lvl, by omega, fun k less => by
        have := all k less
        rw [joined, if_neg (by omega)] at this
        rwa [show beg - radix lvl + k = beg + k - radix lvl by omega]⟩
    exact ⟨fnd, mem_cons_of_mem child isIn, inFound⟩

theorem joined_of_child {kids : List (Node lvl)}
    (segs : Pieces (radix lvl) (Good lvl) kids rm) {child : Node lvl}
    (isIn : child ∈ kids) :
    ∃ leaves, ∀ x, isFree lvl child x = true →
      joined (isFree lvl) (radix lvl) kids (32 * leaves + x) = true := by
  obtain ⟨each, isEach⟩ := radix_dvd lvl
  induction kids generalizing rm with
  | nil => cases isIn
  | cons fst tl ih =>
    obtain ⟨hasRoom, good, oths⟩ := segs
    rcases mem_cons.mp isIn with rfl | mem
    · refine ⟨0, fun x free => ?_⟩
      have := good.lt_room free
      rw [joined, Nat.zero_add, if_pos (by omega)]
      exact free
    · obtain ⟨leaves, isFree⟩ := ih oths mem
      refine ⟨each + leaves, fun x free => ?_⟩
      rw [joined, if_neg (by omega), show 32 * (each + leaves) + x - radix lvl =
        32 * leaves + x by omega]
      exact isFree x free

end Runs

section Rules

theorem covers_rule : Rule Covers where
  mono := fun cov less cnt run => le_trans (cov cnt run) less
  subset := fun cov isPart cnt run => cov cnt (run.subset isPart)
  large := fun high cnt run => le_trans run.le high
  none := by
    intro hint set no cnt run
    obtain ⟨beg, _, all⟩ := run
    by_contra tooLong
    have := all 0 (by omega)
    rw [no] at this
    cases this
  joins := by
    intro lvl hint kids all cnt run
    by_cases nothing : cnt = 0
    · omega
    · obtain ⟨child, isIn, inChild⟩ := run.of_joined (by omega)
      exact all child isIn cnt inChild
  splits := by
    intro lvl rm hint kids segs cov child isIn cnt run
    obtain ⟨leaves, free⟩ := joined_of_child segs isIn
    obtain ⟨beg, inLeaf, all⟩ := run
    refine cov cnt ⟨32 * leaves + beg, by omega, fun k less => ?_⟩
    rw [add_assoc]
    exact free _ (all k less)

theorem highest_rule : Rule Highest where
  mono := fun highest less some_ => le_trans (highest some_) less
  subset := by
    rintro hint set part highest isPart ⟨x, free⟩
    exact highest ⟨x, isPart x free⟩
  large := fun high _ => high
  none := by
    rintro hint set no ⟨x, free⟩
    rw [no] at free
    cases free
  joins := by
    rintro lvl hint kids all ⟨x, free⟩
    have run : HasRun (joined (isFree lvl) (radix lvl) kids) 1 :=
      ⟨x, by omega, fun k less => by
        obtain rfl : k = 0 := by omega
        exact free⟩
    obtain ⟨child, isIn, beg, _, inChild⟩ := run.of_joined (by omega)
    exact all child isIn ⟨beg, inChild 0 (by omega)⟩
  splits := by
    rintro lvl rm hint kids segs highest child isIn ⟨x, free⟩
    obtain ⟨leaves, isFree⟩ := joined_of_child segs isIn
    exact highest ⟨_, isFree x free⟩

variable {enough : Nat → (Nat → Bool) → Prop} {lvl rm : Nat}

theorem Hinted.root {scan : Node lvl} (hnt : Hinted enough lvl scan) :
    enough (bighint lvl scan) (isFree lvl scan) := by
  cases lvl with
  | zero => exact hnt
  | succ lvl => exact hnt.1

theorem isFree_setAllocated (scan : Node lvl) (x : Nat) :
    isFree lvl (setAllocated lvl scan) x = false := by
  cases lvl with
  | zero => exact bitAt_zero x
  | succ lvl => exact if_pos rfl

theorem setAllocated_hinted (rule : Rule enough) (scan : Node lvl) :
    Hinted enough lvl (setAllocated lvl scan) := by
  cases lvl with
  | zero => exact rule.none (isFree_setAllocated scan)
  | succ lvl => exact ⟨rule.none (isFree_setAllocated scan), fun notNone => absurd rfl notNone⟩

theorem setFree_hinted (rule : Rule enough) {scan : Node lvl} :
    Hinted enough lvl (setFree lvl scan) := by
  cases lvl with
  | zero => exact rule.large (le_refl _)
  | succ lvl => exact ⟨rule.large (radix_pos (lvl + 1)), fun _ notAll => absurd rfl notAll⟩

theorem Hinted.opened (rule : Rule enough) {scan : Meta (Node lvl)}
    (good : Good (lvl + 1) scan rm) (hnt : Hinted enough (lvl + 1) scan)
    (notNone : scan.bmu_avail ≠ 0) :
    ∀ child ∈ (if scan.bmu_avail = radix lvl * metaRadix then
      initLoop (bighint lvl) (setFree lvl) scan.children else scan.children),
      Hinted enough lvl child := by
  intro child isIn
  by_cases isAll : scan.bmu_avail = radix lvl * metaRadix
  · rw [if_pos isAll, initLoop_eq_map _ good.1.2.2.2] at isIn
    obtain ⟨hidden, _, rfl⟩ := mem_map.mp isIn
    exact setFree_hinted rule
  · rw [if_neg isAll] at isIn
    exact hnt.2 notNone isAll child isIn

end Rules

section Alloc

variable {lvl cnt : Nat}

/-- An allocation keeps the hints right, and fails only when there is no run. -/
def AllocHint (level count : Nat) : Prop :=
  ∀ (scan : Node level) (room blk : Nat) (after : Node level) (result : Option Nat),
    Good level scan room → Hinted Covers level scan →
    blstAlloc level scan blk count = some (after, result) →
    Hinted Covers level after ∧ (result = none → ¬ HasRun (isFree level scan) count)

/-- A leaf's hint after an allocation, found or not. -/
theorem leafAlloc_hint (pos : 0 < cnt) (fits : cnt ≤ 32) : AllocHint 0 cnt := by
  intro scan rm blk s' res good hnt alloc
  obtain ⟨fnd, isRes, hit, allocs, hint⟩ := blstLeafAlloc_spec scan blk pos fits
  obtain ⟨rfl, rfl⟩ : fnd = s' ∧ isRes = res := by
    rw [blstAlloc, hit] at alloc
    simpa using alloc
  cases isRes with
  | some r =>
    obtain ⟨beg, _, _, gone⟩ := allocs
    refine ⟨?_, fun bad => by cases bad⟩
    show Covers fnd.bm_bighint (bitAt fnd.bmu_bitmap)
    rw [show fnd.bm_bighint = scan.bm_bighint from hint]
    refine covers_rule.subset hnt fun x free => ?_
    rw [gone, withoutRange, Bool.and_eq_true] at free
    exact free.1
  | none =>
    have noRun : ¬ HasRun (bitAt scan.bmu_bitmap) cnt := by
      rcases hint with ⟨noRun, _⟩ | ⟨zero, _⟩
      · exact noRun
      · rintro ⟨beg, _, all⟩
        have := all 0 pos
        rw [zero, bitAt_zero] at this
        cases this
    refine ⟨fun longer run => ?_, fun _ => noRun⟩
    have runBefore : HasRun (bitAt scan.bmu_bitmap) longer :=
      run.subset fun x free => by rwa [isFree, allocs] at free
    rcases hint with ⟨_, isLess⟩ | ⟨zero, isZeroHint⟩
    · rw [isLess]
      by_contra tooLong
      exact noRun (runBefore.shorter (by omega))
    · obtain ⟨beg, _, all⟩ := runBefore
      by_contra tooLong
      have := all 0 (by omega)
      rw [zero, bitAt_zero] at this
      cases this

/-- The sons' hints after the loop that allocates in one of them. -/
theorem allocLoop_hint (subHint : AllocHint lvl cnt)
    {kids s' : List (Node lvl)} {rm blk : Nat} {res : Option Nat}
    (segs : Pieces (radix lvl) (Good lvl) kids rm)
    (hnt : ∀ child ∈ kids, Hinted Covers lvl child)
    (alloc : allocLoop (bighint lvl) (radix lvl)
      (fun child blk => blstAlloc lvl child blk cnt) cnt kids blk =
        some (s', res)) :
    (∀ child ∈ s', Hinted Covers lvl child) ∧
      (res = none → ∀ child ∈ kids, ¬ HasRun (isFree lvl child) cnt) := by
  induction kids generalizing rm blk s' res with
  | nil =>
    obtain ⟨rfl, rfl⟩ : [] = s' ∧ none = res := by
      simpa [allocLoop] using alloc
    exact ⟨hnt, fun _ child isIn => by cases isIn⟩
  | cons child tl ih =>
    obtain ⟨hasRoom, good, oths⟩ := segs
    obtain ⟨hintedFirst, hintedRest⟩ := forall_mem_cons.mp hnt
    have sml := good.shape.bounds.2.2
    rw [allocLoop, if_neg (by omega)] at alloc
    by_cases tried : cnt ≤ bighint lvl child
    · rw [if_pos tried] at alloc
      obtain ⟨⟨first, r⟩, fst, alloc⟩ := bind_eq_some_iff.mp alloc
      obtain ⟨hintedAfter, bad⟩ := subHint child _ blk first r good hintedFirst fst
      cases r with
      | some r =>
        obtain ⟨rfl, rfl⟩ : first :: tl = s' ∧ some r = res := by
          simpa using alloc
        exact ⟨forall_mem_cons.mpr ⟨hintedAfter, hintedRest⟩, fun no => by cases no⟩
      | none =>
        obtain ⟨⟨more, last⟩, isMore, alloc⟩ := bind_eq_some_iff.mp alloc
        obtain ⟨rfl, rfl⟩ : first :: more = s' ∧ last = res := by
          simpa using alloc
        obtain ⟨hintedMore, failedMore⟩ := ih oths hintedRest isMore
        exact ⟨forall_mem_cons.mpr ⟨hintedAfter, hintedMore⟩,
          fun no => forall_mem_cons.mpr ⟨bad rfl, failedMore no⟩⟩
    · rw [if_neg tried] at alloc
      split at alloc
      · cases alloc
      obtain ⟨⟨more, last⟩, isMore, alloc⟩ := bind_eq_some_iff.mp alloc
      obtain ⟨rfl, rfl⟩ : child :: more = s' ∧ last = res := by
        simpa using alloc
      obtain ⟨hintedMore, failedMore⟩ := ih oths hintedRest isMore
      exact ⟨forall_mem_cons.mpr ⟨hintedFirst, hintedMore⟩,
        fun no => forall_mem_cons.mpr
          ⟨fun run => tried (hintedFirst.root cnt run), failedMore no⟩⟩

/-- An inner node's hint after an allocation, given its sons'. -/
theorem metaAlloc_hint (subHint : AllocHint lvl cnt) (pos : 0 < cnt) (fits : cnt ≤ 32)
    (sml : radix (lvl + 1) < terminator) : AllocHint (lvl + 1) cnt := by
  intro scan rm blk s' res good hnt alloc
  have width := radix_succ lvl
  obtain ⟨fnd, isRes, hit, goodAfter, allocs⟩ :=
    blstAlloc_spec pos fits (lvl + 1) sml scan rm blk good
  obtain ⟨rfl, rfl⟩ : fnd = s' ∧ isRes = res := by
    rw [hit] at alloc
    simpa using alloc
  rw [blstAlloc, blstMetaAlloc] at alloc
  by_cases hn : scan.bmu_avail = 0
  · rw [if_pos hn] at alloc
    obtain ⟨rfl, rfl⟩ : ({ scan with bm_bighint := cnt } : Meta (Node lvl)) = fnd ∧
        none = isRes := by
      simpa using alloc
    refine ⟨⟨covers_rule.none fun x => if_pos hn, fun notNone => absurd hn notNone⟩,
      fun _ => ?_⟩
    rintro ⟨beg, _, all⟩
    have := all 0 pos
    rw [isFree, if_pos hn] at this
    cases this
  rw [if_neg hn] at alloc
  obtain ⟨opened, eqSet⟩ := good.opened (by omega) hn
  have hintedOpened := hnt.opened covers_rule good hn
  obtain ⟨⟨more, r⟩, isMore, alloc⟩ := bind_eq_some_iff.mp alloc
  obtain ⟨hintedMore, bad⟩ := allocLoop_hint subHint opened hintedOpened isMore
  cases r with
  | some r =>
    obtain ⟨rfl, rfl⟩ : (⟨sub scan.bmu_avail cnt,
        if scan.bm_bighint > sub scan.bmu_avail cnt then sub scan.bmu_avail cnt
        else scan.bm_bighint, more⟩ : Meta (Node lvl)) = fnd ∧ some r = isRes := by
      simpa using alloc
    refine ⟨⟨fun longer run => ?_, fun _ _ => hintedMore⟩, fun no => by cases no⟩
    obtain ⟨beg, _, _, gone⟩ := allocs
    have prev : longer ≤ scan.bm_bighint := hnt.1 longer (run.subset fun x free => by
      rw [gone, withoutRange, Bool.and_eq_true] at free
      exact free.1)
    have fewer := run.le_countIn fun x free => goodAfter.lt_room free
    rw [← goodAfter.avail] at fewer
    split <;> omega
  | none =>
    obtain ⟨rfl, rfl⟩ : (⟨scan.bmu_avail,
        if scan.bm_bighint ≥ cnt then cnt - 1 else scan.bm_bighint, more⟩ :
          Meta (Node lvl)) = fnd ∧ none = isRes := by
      simpa using alloc
    have noRun : ¬ HasRun (isFree (lvl + 1) scan) cnt := by
      intro run
      obtain ⟨child, isIn, inChild⟩ :=
        (run.subset fun x free => by rwa [eqSet]).of_joined pos
      exact bad rfl child isIn inChild
    refine ⟨⟨fun longer run => ?_, fun _ _ => hintedMore⟩, fun _ => noRun⟩
    have runBefore : HasRun (isFree (lvl + 1) scan) longer :=
      run.subset fun x free => by rwa [allocs] at free
    have prev : longer ≤ scan.bm_bighint := hnt.1 longer runBefore
    have lt : longer < cnt := by
      by_contra tooLong
      exact noRun (runBefore.shorter (by omega))
    dsimp only
    split <;> omega

theorem blstAlloc_hint (pos : 0 < cnt) (fits : cnt ≤ 32) (lvl : Nat)
    (sml : radix lvl < terminator) : AllocHint lvl cnt := by
  induction lvl with
  | zero => exact leafAlloc_hint pos fits
  | succ lvl ih =>
    have width := radix_succ lvl
    exact metaAlloc_hint (ih (by omega)) pos fits sml

end Alloc

end NetBSD.Kern.BlockList
