import NetBSD.Kern.BlistHint

/-!
Owns the hints under freeing and filling, and a blist that is only freed into, whose
hints are as high as can be.
-/

namespace NetBSD.Kern.BlockList

open NetBSD.Arith List Option

section Free

variable {enough : Nat → (Nat → Bool) → Prop} {lvl : Nat}

theorem Split.drop {α : Type} {holds : α → Nat → Nat → Prop} {size : Nat} {segs : List α}
    {a cnt : Nat} (split : Split holds size segs a cnt) (k : Nat) (lt : k * size ≤ a) :
    Split holds size (segs.drop k) (a - k * size) cnt := by
  induction k generalizing segs a with
  | zero => simpa using split
  | succ k ih =>
    cases segs with
    | nil => trivial
    | cons piece tl =>
      rw [Nat.succ_mul] at lt ⊢
      have oths := split.2
      rw [show cnt - (size - a) = cnt by omega] at oths
      have := ih oths (by omega)
      rwa [show a - size - k * size = a - (k * size + size) by omega] at this

theorem Split.of_all {α : Type} {holds : α → Nat → Nat → Prop} {size : Nat} {segs : List α}
    (all : ∀ piece ∈ segs, ∀ a cnt, holds piece a cnt) (a cnt : Nat) :
    Split holds size segs a cnt := by
  induction segs generalizing a cnt with
  | nil => trivial
  | cons piece tl ih =>
    obtain ⟨fst, oths⟩ := forall_mem_cons.mp all
    exact ⟨fun _ => fst _ _, ih oths _ _⟩

/-- The free blocks of a node are at most those of the nodes below, unless it is all free. -/
theorem joined_of_isFree {scan : Meta (Node lvl)}
    (notAll : scan.bmu_avail ≠ radix (lvl + 1)) {x : Nat}
    (free : isFree (lvl + 1) scan x = true) :
    joined (isFree lvl) (radix lvl) scan.children x = true := by
  rw [isFree] at free
  split at free
  · cases free
  · exact free

def FreeHint (enough : Nat → (Nat → Bool) → Prop) (level : Nat) : Prop :=
  ∀ (scan : Node level) (room blk a count : Nat) (after : Node level), Good level scan room →
    a + count ≤ room → Hinted enough level scan → Keeps level scan a count →
    blstFree level scan (blk + a) count blk = some after → Hinted enough level after

/-- The running hint bounds every son the loop has freed in. -/
theorem freeLoop_hint (rule : Rule enough) (subHint : FreeHint enough lvl)
    {kids s' : List (Node lvl)} {rm index blk a cnt hint final : Nat}
    (segs : Pieces (radix lvl) (Good lvl) kids rm) (lt : a < radix lvl)
    (fits : a + cnt ≤ rm)
    (hnt : ∀ child ∈ kids, Hinted enough lvl child ∧ enough hint (isFree lvl child))
    (keeps : Split (Keeps lvl) (radix lvl) kids a cnt)
    (freed : freeLoop (bighint lvl) (radix lvl) (blstFree lvl) kids index blk (blk + a)
      cnt hint = some (s', final)) :
    hint ≤ final ∧
      ∀ child ∈ s', Hinted enough lvl child ∧ enough final (isFree lvl child) := by
  induction kids generalizing rm index blk a cnt hint s' final with
  | nil =>
    rw [freeLoop] at freed
    split at freed
    · cases freed
    · obtain ⟨rfl, rfl⟩ : [] = s' ∧ hint = final := by simpa using freed
      exact ⟨le_refl _, hnt⟩
  | cons child tl ih =>
    rw [freeLoop] at freed
    split at freed
    · obtain ⟨hasRoom, good, oths⟩ := segs
      obtain ⟨⟨hintedFirst, _⟩, hintedRest⟩ := forall_mem_cons.mp hnt
      rw [part_eq_min] at freed
      split at freed
      · cases freed
      obtain ⟨first, fst, freed⟩ := bind_eq_some_iff.mp freed
      obtain ⟨⟨more, last⟩, isMore, freed⟩ := bind_eq_some_iff.mp freed
      obtain ⟨rfl, rfl⟩ : first :: more = s' ∧ last = final := by simpa using freed
      have hintedAfter := subHint child _ blk a _ first good (by omega) hintedFirst
        (keeps.1 lt) fst
      -- the hint is raised to that of the child
      have raised : hint ≤ (if hint < bighint lvl first then bighint lvl first else hint) ∧
          bighint lvl first ≤
            (if hint < bighint lvl first then bighint lvl first else hint) := by
        split <;> omega
      generalize (if hint < bighint lvl first then bighint lvl first else hint) = nextHint
        at isMore raised
      have hintedNext : ∀ child ∈ tl,
          Hinted enough lvl child ∧ enough nextHint (isFree lvl child) :=
        fun child isIn => ⟨(hintedRest child isIn).1, rule.mono (hintedRest child isIn).2 raised.1⟩
      obtain ⟨atLeast, hintedMore⟩ : nextHint ≤ last ∧ ∀ child ∈ more,
          Hinted enough lvl child ∧ enough last (isFree lvl child) := by
        by_cases ends : cnt ≤ radix lvl - a
        · rw [freeLoop_stop _ _ _ _ _ _ (by omega)] at isMore
          obtain ⟨rfl, rfl⟩ : tl = more ∧ nextHint = last := by simpa using isMore
          exact ⟨le_refl _, hintedNext⟩
        have keepsRest := keeps.2
        rw [show a - radix lvl = 0 by omega,
          show cnt - (radix lvl - a) = cnt - min (radix lvl - a) cnt by omega]
          at keepsRest
        rw [show blk + a + min (radix lvl - a) cnt = blk + radix lvl + 0 by omega] at isMore
        exact ih oths (by omega) (by omega) hintedNext keepsRest isMore
      refine ⟨by omega, forall_mem_cons.mpr ⟨⟨hintedAfter, ?_⟩, hintedMore⟩⟩
      exact rule.mono hintedAfter.root (by omega)
    · obtain ⟨rfl, rfl⟩ : child :: tl = s' ∧ hint = final := by simpa using freed
      exact ⟨le_refl _, hnt⟩

theorem freeChildren_hint (rule : Rule enough) (subHint : FreeHint enough lvl)
    {kids s' : List (Node lvl)} {rm blk a cnt avail hint final : Nat}
    (segs : Pieces (radix lvl) (Good lvl) kids rm)
    (fits : a + cnt ≤ rm)
    (hnt : ∀ child ∈ kids, Hinted enough lvl child ∧ enough hint (isFree lvl child))
    (keeps : Split (Keeps lvl) (radix lvl) kids a cnt)
    (notAll : avail ≠ radix (lvl + 1))
    (freed : freeLoop (bighint lvl) (radix lvl) (blstFree lvl)
      (kids.drop (a / radix lvl)) (a / radix lvl) (blk + a / radix lvl * radix lvl)
      (blk + a) cnt hint = some (s', final)) :
    Hinted enough (lvl + 1)
      (⟨avail, final, kids.take (a / radix lvl) ++ s'⟩ : Meta (Node lvl)) := by
  have pos : 0 < radix lvl := lt_of_lt_of_le (by decide) (radix_pos lvl)
  have isPosition := Nat.div_add_mod' a (radix lvl)
  have less := Nat.mod_lt a pos
  have bnd : a / radix lvl ≤ kids.length := segs.div_le (by omega)
  generalize a / radix lvl = k at *
  generalize a % radix lvl = offset at *
  have keepsBack := keeps.drop k (by omega)
  rw [show a - k * radix lvl = offset by omega] at keepsBack
  rw [show blk + a = blk + k * radix lvl + offset by omega] at freed
  obtain ⟨atLeast, hintedAfter⟩ := freeLoop_hint rule subHint (segs.split k bnd).1 less
    (by omega) (fun child isIn => hnt child (mem_of_mem_drop isIn)) keepsBack freed
  have all : ∀ child ∈ kids.take k ++ s',
      Hinted enough lvl child ∧ enough final (isFree lvl child) := by
    intro child isIn
    rcases mem_append.mp isIn with prev | inAfter
    · obtain ⟨hintedChild, cov⟩ := hnt child (mem_of_mem_take prev)
      exact ⟨hintedChild, rule.mono cov atLeast⟩
    · exact hintedAfter child inAfter
  refine ⟨?_, fun _ _ child isIn => (all child isIn).1⟩
  exact rule.subset (rule.joins fun child isIn => (all child isIn).2) fun x free =>
    joined_of_isFree notAll free

theorem keeps_setAllocated (scan : Node lvl) (a cnt : Nat) :
    Keeps lvl (setAllocated lvl scan) a cnt := by
  cases lvl with
  | zero => trivial
  | succ lvl => exact .inl rfl

/-- Freeing in an inner node keeps its hint and its sons high enough. -/
theorem metaFree_hint (rule : Rule enough) (subHint : FreeHint enough lvl)
    (sml : 2 * radix (lvl + 1) < terminator) : FreeHint enough (lvl + 1) := by
  intro scan rm blk a cnt s' good fits hnt keeps freed
  have isTerminator : terminator = 4294967295 := rfl
  have bnds := good.shape.bounds
  have large := radix_pos (lvl + 1)
  rw [blstFree, blstMetaFree, startFree] at freed
  have width : radix lvl * metaRadix = radix (lvl + 1) := rfl
  rw [width] at freed
  by_cases hn : scan.bmu_avail = 0
  · rw [if_pos hn] at freed
    dsimp only at freed
    by_cases isAll : cnt = radix (lvl + 1)
    · rw [if_pos isAll] at freed
      obtain rfl := some.inj freed
      refine ⟨rule.large ?_, fun _ notAll => absurd isAll notAll⟩
      show 32 ≤ cnt
      omega
    rw [if_neg isAll, if_neg (by omega), if_pos isAll, initLoop_eq_map _ good.shape.2.2.2,
      Nat.add_sub_cancel_left] at freed
    obtain ⟨⟨more, final⟩, isMore, freed⟩ := bind_eq_some_iff.mp freed
    obtain rfl := some.inj freed
    refine freeChildren_hint rule subHint (joined_setAllocated good.shape.2.2.2).1 fits ?_ ?_
      isAll isMore
    · intro child isIn
      obtain ⟨hidden, _, rfl⟩ := mem_map.mp isIn
      exact ⟨setAllocated_hinted rule hidden, rule.none (isFree_setAllocated hidden)⟩
    · refine Split.of_all (fun child isIn a cnt => ?_) a cnt
      obtain ⟨hidden, _, rfl⟩ := mem_map.mp isIn
      exact keeps_setAllocated hidden a cnt
  have le : scan.bmu_avail ≤ rm := good.avail ▸ countIn_le
  rw [if_neg hn] at freed
  dsimp only at freed
  rw [add_eq (by omega)] at freed
  by_cases isAll : scan.bmu_avail + cnt = radix (lvl + 1)
  · rw [if_pos isAll] at freed
    obtain rfl := some.inj freed
    refine ⟨?_, fun _ notAll => absurd isAll notAll⟩
    rcases keeps with zero | wasAll | fine
    · exact absurd zero hn
    · obtain rfl : cnt = 0 := by omega
      exact hnt.1
    · rw [if_pos isAll] at fine
      exact rule.large fine
  rw [if_neg isAll] at freed
  split at freed
  · cases freed
  have notAll : scan.bmu_avail ≠ radix (lvl + 1) := by omega
  rw [Nat.add_sub_cancel_left] at freed
  obtain ⟨⟨more, final⟩, isMore, freed⟩ := bind_eq_some_iff.mp freed
  obtain rfl := some.inj freed
  obtain ⟨_, zero | ⟨wasAll, _⟩ | ⟨_, _, _, segs⟩⟩ := good
  · exact absurd zero hn
  · exact absurd wasAll notAll
  · have same : ∀ x, joined (isFree lvl) (radix lvl) scan.children x = true →
        isFree (lvl + 1) scan x = true := by
      intro x free
      rwa [isFree, if_neg hn, if_neg notAll]
    have cov := rule.splits segs (rule.subset hnt.1 same)
    have fine := (keeps.resolve_left hn).resolve_left notAll
    rw [if_neg isAll] at fine
    exact freeChildren_hint rule subHint segs fits
      (fun child isIn => ⟨hnt.2 hn notAll child isIn, cov child isIn⟩) fine isAll
      isMore

theorem blstFree_hint (rule : Rule enough) (lvl : Nat) (sml : 2 * radix lvl < terminator) :
    FreeHint enough lvl := by
  induction lvl with
  | zero =>
    intro scan rm blk a cnt s' good fits hnt keeps freed
    obtain ⟨mask, _, freed⟩ := bind_eq_some_iff.mp freed
    split at freed
    · cases freed
    · obtain rfl := some.inj freed
      exact rule.large (le_refl 32)
  | succ lvl ih =>
    have width := radix_succ lvl
    exact metaFree_hint rule (ih (by omega)) sml

end Free

section Fill

variable {enough : Nat → (Nat → Bool) → Prop} {lvl : Nat}

def FillHint (enough : Nat → (Nat → Bool) → Prop) (level : Nat) : Prop :=
  ∀ (scan : Node level) (room blk a count : Nat) (after : Node level) (nblks : Nat),
    Good level scan room → a + count ≤ room → 0 < count → 32 ∣ blk → Hinted enough level scan →
    blstFill level scan (blk + a) count blk = some (after, nblks) → Hinted enough level after

theorem fillLoop_hint (subHint : FillHint enough lvl) {kids s' : List (Node lvl)}
    {rm index blk a cnt bighint nblks : Nat}
    (segs : Pieces (radix lvl) (Good lvl) kids rm) (lt : a < radix lvl)
    (fits : a + cnt ≤ rm) (pos : 0 < cnt) (algn : 32 ∣ blk)
    (hnt : ∀ child ∈ kids, Hinted enough lvl child)
    (full : fillLoop (radix lvl) (blstFill lvl) bighint kids index blk (blk + a) cnt =
      some (s', nblks)) :
    ∀ child ∈ s', Hinted enough lvl child := by
  induction kids generalizing rm index blk a cnt s' nblks with
  | nil =>
    rw [fillLoop] at full
    split at full
    · cases full
    · obtain ⟨rfl, _⟩ : [] = s' ∧ 0 = nblks := by simpa using full
      exact hnt
  | cons child tl ih =>
    rw [fillLoop] at full
    split at full
    · rw [part_eq_min] at full
      split at full
      · cases full
      obtain ⟨hasRoom, good, oths⟩ := segs
      obtain ⟨hintedFirst, hintedRest⟩ := forall_mem_cons.mp hnt
      obtain ⟨⟨first, n⟩, fst, full⟩ := bind_eq_some_iff.mp full
      obtain ⟨⟨more, m⟩, isMore, full⟩ := bind_eq_some_iff.mp full
      obtain ⟨rfl, _⟩ : first :: more = s' ∧ add n m = nblks := by simpa using full
      have hintedAfter := subHint child _ blk a _ first n good (by omega) (by omega) algn
        hintedFirst fst
      refine forall_mem_cons.mpr ⟨hintedAfter, ?_⟩
      by_cases ends : cnt ≤ radix lvl - a
      · rw [fillLoop_stop _ _ _ _ _ _ (by omega)] at isMore
        obtain ⟨rfl, _⟩ : tl = more ∧ 0 = m := by simpa using isMore
        exact hintedRest
      · rw [show blk + a + min (radix lvl - a) cnt = blk + radix lvl + 0 by omega] at isMore
        exact ih oths (by omega) (by omega) (by omega)
          (Nat.dvd_add algn (radix_dvd lvl)) hintedRest isMore
    · obtain ⟨rfl, _⟩ : child :: tl = s' ∧ 0 = nblks := by simpa using full
      exact hnt

/-- A fill leaves the hint of an inner node high enough. -/
theorem metaFill_hint (rule : Rule enough) (subHint : FillHint enough lvl)
    (sml : radix (lvl + 1) < terminator) : FillHint enough (lvl + 1) := by
  intro scan rm blk a cnt s' nblks good fits pos algn hnt full
  have width := radix_succ lvl
  obtain ⟨fnd, hit, _, gone⟩ :=
    blstFill_spec (lvl + 1) sml scan rm blk a cnt good fits pos algn
  obtain ⟨rfl, _⟩ : fnd = s' ∧ countIn (isFree (lvl + 1) scan) a cnt = nblks := by
    rw [hit] at full
    simpa using full
  have fewer : ∀ x, isFree (lvl + 1) fnd x = true → isFree (lvl + 1) scan x = true := by
    intro x free
    rw [gone, withoutRange, Bool.and_eq_true] at free
    exact free.1
  rw [blstFill, blstMetaFill] at full
  split at full
  · obtain ⟨rfl, _⟩ : (⟨0, cnt, scan.children⟩ : Meta (Node lvl)) = fnd ∧
        scan.bmu_avail = nblks := by
      simpa using full
    exact ⟨rule.none fun x => if_pos rfl, fun notNone => absurd rfl notNone⟩
  rename_i special
  obtain ⟨_, notNone⟩ := not_or.mp special
  split at full
  · cases full
  obtain ⟨opened, _⟩ := good.opened (by omega) notNone
  have hintedOpened := hnt.opened rule good notNone
  generalize (if scan.bmu_avail = radix lvl * metaRadix then
    initLoop (bighint lvl) (setFree lvl) scan.children else scan.children) = children
    at opened hintedOpened full
  rw [Nat.add_sub_cancel_left] at full
  obtain ⟨⟨more, n⟩, isMore, full⟩ := bind_eq_some_iff.mp full
  obtain ⟨rfl, _⟩ : (⟨sub scan.bmu_avail n, scan.bm_bighint,
      children.take (a / radix lvl) ++ more⟩ : Meta (Node lvl)) = fnd ∧ n = nblks := by
    simpa using full
  have wide : 0 < radix lvl := lt_of_lt_of_le (by decide) (radix_pos lvl)
  have isPosition := Nat.div_add_mod' a (radix lvl)
  have less := Nat.mod_lt a wide
  have bnd : a / radix lvl ≤ children.length := opened.div_le (by omega)
  refine ⟨rule.subset hnt.1 fewer, fun _ _ child isIn => ?_⟩
  rcases mem_append.mp isIn with prev | inMore
  · exact hintedOpened child (mem_of_mem_take prev)
  · rw [show blk + a = blk + a / radix lvl * radix lvl + a % radix lvl by omega] at isMore
    exact fillLoop_hint subHint (opened.split _ bnd).1 less (by omega) pos
      (Nat.dvd_add algn (Nat.dvd_mul_left_of_dvd (radix_dvd lvl) _))
      (fun child isIn => hintedOpened child (mem_of_mem_drop isIn)) isMore child inMore

theorem blstFill_hint (rule : Rule enough) (lvl : Nat) (sml : radix lvl < terminator) :
    FillHint enough lvl := by
  induction lvl with
  | zero =>
    intro scan rm blk a cnt s' nblks good fits pos algn hnt full
    obtain ⟨mask, _, full⟩ := bind_eq_some_iff.mp full
    obtain ⟨rfl, _⟩ : ({ scan with bmu_bitmap := scan.bmu_bitmap &&& ~~~mask } : Leaf) = s' ∧
        countLoop 33 (scan.bmu_bitmap &&& mask) 0 = nblks := by
      simpa using full
    refine rule.subset hnt fun x isSet => ?_
    rw [isFree, bitAt_and, Bool.and_eq_true] at isSet
    exact isSet.1
  | succ lvl ih =>
    have width := radix_succ lvl
    exact metaFill_hint rule (ih (by omega)) sml

end Fill

section Highest

variable {lvl rm : Nat}

theorem Highest.covers {hint : Nat} {set : Nat → Bool} (highest : Highest hint set) :
    Covers hint set := by
  intro cnt run
  by_cases nothing : cnt = 0
  · omega
  · obtain ⟨beg, inLeaf, all⟩ := run
    have := highest ⟨beg + 0, all 0 (by omega)⟩
    omega

theorem Hinted.covers {scan : Node lvl} (hnt : Hinted Highest lvl scan) :
    Hinted Covers lvl scan := by
  induction lvl with
  | zero => exact Highest.covers hnt
  | succ lvl ih =>
    exact ⟨hnt.1.covers, fun notNone notAll child isIn =>
      ih (hnt.2 notNone notAll child isIn)⟩

theorem Hinted.keeps {scan : Node lvl} (good : Good lvl scan rm)
    (hnt : Hinted Highest lvl scan) (a cnt : Nat) : Keeps lvl scan a cnt := by
  induction lvl generalizing rm a cnt with
  | zero => trivial
  | succ lvl ih =>
    have isAvail := good.avail
    by_cases hn : scan.bmu_avail = 0
    · exact .inl hn
    by_cases isAll : scan.bmu_avail = radix (lvl + 1)
    · exact .inr (.inl isAll)
    refine .inr (.inr ?_)
    split
    · refine hnt.1 ?_
      by_contra none
      have noBlock : countIn (isFree (lvl + 1) scan) 0 rm = 0 :=
        countIn_eq_zero fun k _ => Bool.eq_false_iff.mpr fun free => none ⟨_, free⟩
      omega
    obtain ⟨_, eq0 | ⟨wasAll, _⟩ | ⟨_, _, _, segs⟩⟩ := good
    · exact absurd eq0 hn
    · exact absurd wasAll isAll
    · refine Split.of_all (fun child isIn a cnt => ?_) a cnt
      obtain ⟨childRoom, goodChild⟩ := segs.exists_of_mem isIn
      exact ih goodChild (hnt.2 hn isAll child isIn) a cnt

end Highest

section Fresh

structure Fresh (bl : Blist) : Prop where
  right : Right bl
  hinted : Hinted Highest bl.bl_level bl.bl_root

theorem Right.small_twice {bl : Blist} (right : Right bl) : 2 * radix bl.bl_level < terminator := by
  have := radix_mono right.level
  have isTerminator : terminator = 4294967295 := rfl
  rw [radix_six] at this
  omega

theorem blistFree_hint {enough : Nat → (Nat → Bool) → Prop} (rule : Rule enough)
    {bl s' : Blist} (right : Right bl) {a cnt : Nat} (fits : a + cnt ≤ bl.bl_blocks)
    (hnt : Hinted enough bl.bl_level bl.bl_root)
    (keeps : Keeps bl.bl_level bl.bl_root a cnt) (freed : blistFree bl a cnt = some s') :
    Hinted enough s'.bl_level s'.bl_root := by
  obtain ⟨root, isRoot, aft⟩ := bind_eq_some_iff.mp freed
  obtain rfl := some.inj aft
  rw [← zero_add a] at isRoot
  exact blstFree_hint rule bl.bl_level right.small_twice bl.bl_root bl.bl_blocks 0 a cnt root
    right.good fits hnt keeps isRoot

theorem blistFill_hint {enough : Nat → (Nat → Bool) → Prop} (rule : Rule enough)
    {bl s' : Blist} (right : Right bl) {a cnt nblks : Nat} (fits : a + cnt ≤ bl.bl_blocks)
    (pos : 0 < cnt) (hnt : Hinted enough bl.bl_level bl.bl_root)
    (full : blistFill bl a cnt = some (s', nblks)) :
    Hinted enough s'.bl_level s'.bl_root := by
  obtain ⟨⟨root, n⟩, isRoot, aft⟩ := bind_eq_some_iff.mp full
  obtain ⟨rfl, _⟩ := Prod.mk.inj (some.inj aft)
  rw [← zero_add a] at isRoot
  exact blstFill_hint rule bl.bl_level right.small bl.bl_root bl.bl_blocks 0 a cnt root n
    right.good fits pos (Nat.dvd_zero 32) hnt isRoot

theorem blistAlloc_hint {bl s' : Blist} (right : Right bl) {cnt : Nat} {res : Option Nat}
    (pos : 0 < cnt) (fits : cnt ≤ 32) (cov : Hinted Covers bl.bl_level bl.bl_root)
    (alloc : blistAlloc bl cnt = some (s', res)) :
    Hinted Covers s'.bl_level s'.bl_root ∧ (res = none → ¬ HasRun bl.free cnt) := by
  obtain ⟨⟨root, blk⟩, isRoot, aft⟩ := bind_eq_some_iff.mp alloc
  have hint := blstAlloc_hint pos fits bl.bl_level right.small bl.bl_root bl.bl_blocks 0 root
    blk right.good cov isRoot
  cases blk with
  | none =>
    obtain ⟨rfl, rfl⟩ := Prod.mk.inj (some.inj aft)
    exact hint
  | some blk =>
    obtain ⟨rfl, rfl⟩ := Prod.mk.inj (some.inj aft)
    exact ⟨hint.1, fun no => by cases no⟩

theorem Fresh.free {bl : Blist} (fresh : Fresh bl) {a cnt : Nat} (fits : a + cnt ≤ bl.bl_blocks)
    (alloc : ∀ k < cnt, bl.free (a + k) = false) (pos : 0 < cnt) :
    ∃ s', blistFree bl a cnt = some s' ∧ Fresh s' ∧ s'.bl_blocks = bl.bl_blocks ∧
      ∀ x, s'.free x = withRange bl.free a cnt x := by
  obtain ⟨s', aft, next, blks, free⟩ :=
    blistFree_spec fresh.right fits alloc fun _ => by omega
  refine ⟨s', aft, ⟨next, ?_⟩, blks, free⟩
  exact blistFree_hint highest_rule fresh.right fits fresh.hinted
    (fresh.hinted.keeps fresh.right.good a cnt) aft

theorem blistCreate_fresh {blks : Nat} (pos : 0 < blks) (few : blks ≤ 536870912) :
    ∃ bl, blistCreate blks = some bl ∧ Fresh bl ∧ bl.bl_blocks = blks ∧
      ∀ x, bl.free x = false := by
  obtain ⟨bl, isBl, right, isBlocks, no⟩ := blistCreate_spec pos few
  refine ⟨bl, isBl, ⟨right, ?_⟩, isBlocks, no⟩
  obtain ⟨lvl, isLevel, created⟩ := bind_eq_some_iff.mp isBl
  obtain rfl := some.inj created
  cases lvl with
  | zero => exact highest_rule.none bitAt_zero
  | succ lvl => exact ⟨highest_rule.none fun x => if_pos rfl, fun notNone => absurd rfl notNone⟩

end Fresh

end NetBSD.Kern.BlockList
