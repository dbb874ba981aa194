import NetBSD.Kern.LockfPlace
import NetBSD.Machine.Trace

/-!
Owns the meaning of a file's lock list as a map from bytes to the locks held on
them, and what non-blocking requests do to that map.
-/

namespace NetBSD.Kern.VfsLockf

open Function List Lockf

variable {φ : Type} {lock l : Lockf} {locks tl : List Lockf}

def Holds (locks : List Lockf) (byte : Int) (owner : Owner) (type : LockType) : Prop :=
  ∃ l ∈ locks, l.lfId = owner ∧ l.lfType = type ∧ l.Covers byte

/-- The ranges have a byte in common. -/
def Overlaps (left right : Lockf) : Prop := ∃ byte, left.Covers byte ∧ right.Covers byte

/-- Another owner's lock stands in the way of a request. -/
def Conflicts (lock l : Lockf) : Prop :=
  l.lfId ≠ lock.lfId ∧ (lock.lfType = .wrlck ∨ l.lfType = .wrlck) ∧ Overlaps l lock

variable {spare : Nat}

section

variable (ranged : l.Ranged) (lrng : lock.Ranged)

include ranged lrng

theorem overlaps_iff : Overlaps l lock ↔ lock.lfStart ≤ l.last ∧ l.lfStart ≤ lock.last := by
  have orderL := ranged.ordered
  have orderLock := lrng.ordered
  unfold Overlaps Covers
  constructor
  · rintro ⟨byte, inL, inLock⟩
    omega
  · intro both
    by_cases fst : l.lfStart ≤ lock.lfStart
    · exact ⟨lock.lfStart, by omega, by omega⟩
    · exact ⟨l.lfStart, by omega, by omega⟩

theorem not_apart_iff : apart l lock = false ↔ Overlaps l lock := by
  have apartIff := apart_iff ranged lrng
  unfold Precedes at apartIff
  rw [overlaps_iff ranged lrng, ← Bool.not_eq_true, apartIff]
  omega

/-! ### The list of a file -/

/-- What holds of the list of a file between two requests. Locks of open files cover the whole
file. -/
structure Consistent (locks : List Lockf) : Prop where
  ranged : ∀ l ∈ locks, l.Ranged
  sorted : OwnSorted locks
  compatible : ∀ left ∈ locks, ∀ right ∈ locks, left.lfId ≠ right.lfId → Overlaps left right →
    left.lfType = .rdlck ∧ right.lfType = .rdlck
  whole : ∀ l ∈ locks, ∀ fp, l.lfId = .file fp → l.lfStart = 0 ∧ l.lfEnd = -1

theorem ranged_of_mem_remains {m : Lockf} (mem : m ∈ remains spare lock l) :
    m.Ranged ∧ l.lfStart ≤ m.lfStart ∧ m.last ≤ l.last := by
  obtain ⟨_, _, _, ⟨_, rfl⟩ | ⟨isHit, _, shape⟩⟩ := mem_remains mem
  · exact ⟨ranged, le_refl _, le_refl _⟩
  obtain ⟨_, left, right⟩ := (hit_iff ranged lrng).mp isHit
  have startL := ranged.nonneg
  have limitL := ranged.bounded
  have lastL := last_cases l
  have lastM := last_cases m
  rcases shape with ⟨prev, beg, isEnd, _⟩ | ⟨s', beg, isEnd, _⟩
  · exact ⟨⟨by omega, by omega, by omega⟩, by omega, by omega⟩
  · exact ⟨⟨by omega, by omega, by omega⟩, by omega, by omega⟩

/-- What remains of a lock covers what the request does not. -/
theorem covers_remains (byte : Int) : (∃ m ∈ remains spare lock l, m.Covers byte) ↔
      l.Covers byte ∧ ¬ (l.lfId = lock.lfId ∧ lock.Covers byte) := by
  have startL := ranged.nonneg
  have lastL := last_cases l
  have hitIff := hit_iff ranged lrng
  unfold Covers
  cases isHit : hit lock l with
  | false =>
    rw [isHit] at hitIff
    simp only [remains, isHit, Bool.false_eq_true, if_false, mem_singleton, exists_eq_left]
    simp only [Bool.false_eq_true, false_iff] at hitIff
    constructor
    · intro inL
      refine ⟨inL, fun own => hitIff ⟨own.1, ?_, ?_⟩⟩ <;> omega
    · exact And.left
  | true =>
    obtain ⟨own, left, right⟩ := hitIff.mp isHit
    simp only [own, true_and]
    constructor
    · rintro ⟨m, mem, inM⟩
      obtain ⟨_, _, _, ⟨hm, _⟩ | ⟨_, _, shape⟩⟩ := mem_remains mem
      · rw [isHit] at hm
        exact absurd hm (by simp)
      · have lastM := last_cases m
        rcases shape with ⟨prev, beg, isEnd, _⟩ | ⟨s', beg, isEnd, _⟩ <;> omega
    rintro ⟨inL, out⟩
    rw [remains, if_pos isHit]
    by_cases prev : byte < lock.lfStart
    · rw [leftOf, if_pos (by omega)]
      refine ⟨_, mem_append_left _ (mem_singleton_self _), inL.1, ?_⟩
      simp only [last]
      omega
    · rw [rightOf, if_pos (by omega)]
      refine ⟨_, mem_append_right _ (mem_singleton_self _), ?_, inL.2⟩
      simp only
      omega

end

theorem holds_remains (ranged : ∀ l ∈ tl, l.Ranged) (lrng : lock.Ranged) (byte : Int)
    (owner : Owner) (type : LockType) : Holds (tl.flatMap (remains spare lock)) byte owner type ↔
      Holds tl byte owner type ∧ ¬ (owner = lock.lfId ∧ lock.Covers byte) := by
  constructor
  · rintro ⟨m, mem, own, isType, inM⟩
    obtain ⟨l, hrest, piece⟩ := mem_flatMap.mp mem
    obtain ⟨sameId, eqType, _⟩ := mem_remains piece
    obtain ⟨inL, out⟩ :=
      (covers_remains (ranged l hrest) lrng byte).mp ⟨m, piece, inM⟩
    rw [← own, sameId]
    exact ⟨⟨l, hrest, rfl, by rw [← eqType, isType], inL⟩, out⟩
  rintro ⟨⟨l, hrest, own, isType, inL⟩, out⟩
  rw [← own] at out
  obtain ⟨m, piece, inM⟩ :=
    (covers_remains (ranged l hrest) lrng byte).mpr ⟨inL, out⟩
  obtain ⟨sameId, eqType, _⟩ := mem_remains piece
  exact ⟨m, mem_flatMap.mpr ⟨l, hrest, piece⟩, by rw [sameId, own],
    by rw [eqType, isType], inM⟩

section Consistent

/-- Only a request for the whole file comes from an open file. -/
def Lockf.Whole (lock : Lockf) : Prop := ∀ fp, lock.lfId = .file fp → lock.lfStart = 0 ∧ lock.lfEnd = -1

theorem Overlaps.mono {left right left' right' : Lockf} (ovl : Overlaps left right)
    (startLeft : left'.lfStart ≤ left.lfStart) (lastLeft : left.last ≤ left'.last)
    (startRight : right'.lfStart ≤ right.lfStart) (lastRight : right.last ≤ right'.last) :
    Overlaps left' right' := by
  obtain ⟨byte, inL, mem⟩ := ovl
  unfold Covers at inL mem
  exact ⟨byte, ⟨by omega, by omega⟩, ⟨by omega, by omega⟩⟩

theorem Overlaps.symm {left right : Lockf} (ovl : Overlaps left right) : Overlaps right left := by
  obtain ⟨byte, inL, mem⟩ := ovl
  exact ⟨byte, mem, inL⟩

theorem ownSorted_remains (ranged : ∀ l ∈ tl, l.Ranged) (lrng : lock.Ranged)
    (sort : OwnSorted tl) : OwnSorted (tl.flatMap (remains spare lock)) := by
  unfold OwnSorted
  rw [pairwise_flatMap]
  constructor
  · intro l mem
    unfold remains
    split
    · have startL := (ranged l mem).nonneg
      have orderLock := lrng.ordered
      rw [pairwise_append]
      refine ⟨?_, ?_, ?_⟩
      · unfold leftOf
        split <;> simp
      · unfold rightOf
        split <;> simp
      · intro x inL y inR _
        unfold leftOf at inL
        unfold rightOf at inR
        split at inL
        · split at inR
          · obtain rfl := mem_singleton.mp inL
            obtain rfl := mem_singleton.mp inR
            simp only [Precedes]
            rw [last]
            simp only
            omega
          · simp at inR
        · simp at inL
    · simp
  · refine sort.imp_of_mem ?_
    intro left right inL inR order x pieceX y pieceY sameId
    have idX := (mem_remains pieceX).1
    have idY := (mem_remains pieceY).1
    have subX := ranged_of_mem_remains (ranged left inL) lrng pieceX
    have subY := ranged_of_mem_remains (ranged right inR) lrng pieceY
    have next := order (by rw [← idX, ← idY, sameId])
    unfold Precedes at next ⊢
    omega

theorem Consistent.remains (cst : Consistent tl) (lrng : lock.Ranged)
    (whole : lock.Whole) : Consistent (tl.flatMap (remains spare lock)) := by
  refine ⟨?_, ownSorted_remains cst.ranged lrng cst.sorted, ?_, ?_⟩
  · intro m mem
    obtain ⟨l, hrest, piece⟩ := mem_flatMap.mp mem
    exact (ranged_of_mem_remains (cst.ranged l hrest) lrng piece).1
  · intro left inL right inR differ ovl
    obtain ⟨l, lInRest, pieceL⟩ := mem_flatMap.mp inL
    obtain ⟨r, rInRest, pieceR⟩ := mem_flatMap.mp inR
    obtain ⟨idL, typeL, _⟩ := mem_remains pieceL
    obtain ⟨idR, typeR, _⟩ := mem_remains pieceR
    have subL := ranged_of_mem_remains (cst.ranged l lInRest) lrng pieceL
    have subR := ranged_of_mem_remains (cst.ranged r rInRest) lrng pieceR
    rw [typeL, typeR]
    exact cst.compatible l lInRest r rInRest (by rwa [← idL, ← idR])
      (ovl.mono subL.2.1 subL.2.2 subR.2.1 subR.2.2)
  · intro m mem fp file
    obtain ⟨l, hrest, piece⟩ := mem_flatMap.mp mem
    obtain ⟨sameId, _, _, ⟨_, rfl⟩ | ⟨isHit, _, shape⟩⟩ := mem_remains piece
    · exact cst.whole m hrest fp file
    have ranged := cst.ranged l hrest
    have own := ((hit_iff ranged lrng).mp isHit).1
    have wholeL := cst.whole l hrest fp (by rw [← sameId, file])
    have wholeLock := whole fp (by rw [← own, ← sameId, file])
    have lastL := last_cases l
    have lastLock := last_cases lock
    rcases shape with ⟨prev, _⟩ | ⟨s', _⟩ <;> omega

theorem Consistent.insert {left right : List Lockf} (cst : Consistent (left ++ right))
    (ranged : l.Ranged) (prev : ∀ m ∈ left, m.lfId = l.lfId → m.Precedes l)
    (s' : AllBehind l right) (whole : l.Whole) (free : ∀ m ∈ left ++ right, ¬ Conflicts l m) :
    Consistent (left ++ l :: right) := by
  have memIff (m : Lockf) : m ∈ left ++ l :: right ↔ m = l ∨ m ∈ left ++ right := by
    simp only [mem_append, mem_cons]
    tauto
  -- a lock of another owner that overlaps the new one is shared as the new one is
  have shared (m : Lockf) (mem : m ∈ left ++ right) (differ : m.lfId ≠ l.lfId)
      (ovl : Overlaps m l) : m.lfType = .rdlck ∧ l.lfType = .rdlck := by
    have noConflict := free m mem
    unfold Conflicts at noConflict
    cases typeM : m.lfType <;> cases typeL : l.lfType <;> simp_all
  refine ⟨?_, ?_, ?_, ?_⟩
  · intro m mem
    rcases (memIff m).mp mem with rfl | mem
    · exact ranged
    · exact cst.ranged m mem
  · have parts := pairwise_append.mp cst.sorted
    refine pairwise_append.mpr ⟨parts.1, pairwise_cons.mpr ⟨?_, parts.2.1⟩, ?_⟩
    · intro m mem sameId
      exact s' m mem sameId.symm
    · intro x inL y inR sameId
      rcases mem_cons.mp inR with rfl | inR
      · exact prev x inL sameId
      · exact parts.2.2 x inL y inR sameId
  · intro x inX y inY differ ovl
    rcases (memIff x).mp inX with rfl | oldX
    · rcases (memIff y).mp inY with rfl | oldY
      · exact absurd rfl differ
      · exact (shared y oldY (Ne.symm differ) ovl.symm).symm
    · rcases (memIff y).mp inY with rfl | oldY
      · exact shared x oldX differ ovl
      · exact cst.compatible x oldX y oldY differ ovl
  · intro m mem
    rcases (memIff m).mp mem with rfl | mem
    · exact whole
    · exact cst.whole m mem

end Consistent

/-! ### Searching for a conflict -/

def blocks (lock l : Lockf) : Prop :=
  (l.lfId ≠ lock.lfId ∧ apart l lock = false) ∧ (lock.lfType = .wrlck ∨ l.lfType = .wrlck)

/-- The search among others ends at an overlap, or there is none. -/
theorem lfFindoverlap_others (lrng : lock.Ranged) (ranged : ∀ l ∈ tl, l.Ranged)
    (prev : List Lockf) :
    (∃ skip, lfFindoverlap .others lock prev tl = .noOverlap skip [] ∧
        ∀ l ∈ tl, ¬ (l.lfId ≠ lock.lfId ∧ apart l lock = false)) ∨
      ∃ ovcase skip ovl s' pre,
        lfFindoverlap .others lock prev tl = .found ovcase skip ovl s' ∧
        tl = pre ++ ovl :: s' ∧
        (∀ l ∈ pre, ¬ (l.lfId ≠ lock.lfId ∧ apart l lock = false)) ∧
        ovl.lfId ≠ lock.lfId ∧ apart ovl lock = false := by
  induction tl generalizing prev with
  | nil => exact Or.inl ⟨prev, rfl, by simp⟩
  | cons l tl ih =>
    have tail := ih (forall_mem_cons.mp ranged).2 (prev ++ [l])
    by_cases touched : l.lfId ≠ lock.lfId ∧ apart l lock = false
    · have both := (overlaps_iff (ranged l mem_cons_self) lrng).mp
        ((not_apart_iff (ranged l mem_cons_self) lrng).mp touched.2)
      obtain ⟨ovcase, isCase⟩ : ∃ ovcase, ovcaseOf l lock = some ovcase := by
        rcases ovcaseOf_cases (ranged l mem_cons_self) lrng both.1 both.2 with
          ⟨isCase, _⟩ | ⟨isCase, _⟩ | ⟨isCase, _⟩ | ⟨isCase, _⟩ | ⟨isCase, _⟩ <;>
          exact ⟨_, isCase⟩
      refine Or.inr ⟨ovcase, prev, l, tl, [], ?_, rfl, by simp, touched.1, touched.2⟩
      simp [lfFindoverlap, touched.1, touched.2, isCase]
    have skips : lfFindoverlap .others lock prev (l :: tl) =
        lfFindoverlap .others lock (prev ++ [l]) tl := by
      by_cases own : l.lfId = lock.lfId
      · simp [lfFindoverlap, own]
      · have isApart : apart l lock = true := by
          by_contra together
          exact touched ⟨own, by simpa using together⟩
        simp [lfFindoverlap, isApart]
    rw [skips]
    rcases tail with ⟨skip, fnd, no⟩ | ⟨ovcase, skip, ovl, s', pre, fnd,
      split, no, isTouched⟩
    · refine Or.inl ⟨skip, fnd, ?_⟩
      exact forall_mem_cons.mpr ⟨touched, no⟩
    refine Or.inr ⟨ovcase, skip, ovl, s', l :: pre, fnd, by rw [split]; rfl, ?_,
      isTouched⟩
    exact forall_mem_cons.mpr ⟨touched, no⟩

theorem lfGetblock_spec (lrng : lock.Ranged) {fuel : Nat} (ranged : ∀ l ∈ tl, l.Ranged)
    (fueled : tl.length ≤ fuel) :
    lfGetblock lock fuel tl = some none ∧ (∀ l ∈ tl, ¬ blocks lock l) ∨
      ∃ block ∈ tl, lfGetblock lock fuel tl = some (some block) ∧ blocks lock block := by
  induction fuel generalizing tl with
  | zero =>
    obtain rfl := length_eq_zero_iff.mp (Nat.le_zero.mp fueled)
    exact Or.inl ⟨rfl, by simp⟩
  | succ fuel ih =>
    rcases lfFindoverlap_others lrng ranged [] with ⟨skip, fnd, no⟩ |
      ⟨ovcase, skip, ovl, s', pre, fnd, split, no, isTouched⟩
    · exact Or.inl ⟨by simp [lfGetblock, fnd], fun l mem blk => no l mem blk.1⟩
    have hrest : ovl ∈ tl := by simp [split]
    by_cases exclusive : lock.lfType = .wrlck ∨ ovl.lfType = .wrlck
    · exact Or.inr ⟨ovl, hrest, by simp [lfGetblock, fnd, exclusive], isTouched, exclusive⟩
    have lt : s'.length ≤ fuel := by
      have len := congrArg List.length split
      simp only [length_append, length_cons] at len
      omega
    have unfolded : lfGetblock lock (fuel + 1) tl = lfGetblock lock fuel s' := by
      simp [lfGetblock, fnd, exclusive]
    rw [unfolded]
    rcases ih (fun l mem => ranged l (by simp [split, mem])) lt
      with ⟨ans, noneAfter⟩ | ⟨block, inAfter, ans, blk⟩
    · refine Or.inl ⟨ans, ?_⟩
      intro l mem blk
      rw [split, mem_append, mem_cons] at mem
      rcases mem with inF | rfl | inAfter
      · exact no l inF blk.1
      · exact exclusive blk.2
      · exact noneAfter l inAfter blk
    · exact Or.inr ⟨block, by simp [split, inAfter], ans, blk⟩

theorem blocks_iff (ranged : l.Ranged) (lrng : lock.Ranged) :
    blocks lock l ↔ Conflicts lock l := by
  unfold blocks Conflicts
  rw [not_apart_iff ranged lrng]
  tauto

/-! ### What a granted request does -/

/-- Adding a lock puts a lock of its range and type between what it leaves of the list, or finds
an own lock that covers it. -/
theorem Placed.parts {sls sleepers' : List (Sleeper φ)} {res : List Lockf}
    (placed : Placed lock spare tl sls res sleepers') (cst : Consistent tl)
    (lrng : lock.Ranged) :
    (res = tl ∧ ∃ ovl ∈ tl, ovl.lfId = lock.lfId ∧ ovl.lfType = lock.lfType ∧
        ovl.lfStart ≤ lock.lfStart ∧ lock.last ≤ ovl.last) ∨
      ∃ left right new, res = left ++ new :: right ∧
        left ++ right = tl.flatMap (remains spare lock) ∧
        (∀ l ∈ left, l.lfId = lock.lfId → l.Precedes lock) ∧ AllBehind lock right ∧
        new.lfId = lock.lfId ∧ new.lfType = lock.lfType ∧ new.lfStart = lock.lfStart ∧
        new.lfEnd = lock.lfEnd := by
  cases placed with
  | linked left right parts prev s' =>
    exact Or.inr ⟨left, right, _, rfl, parts, prev, s', rfl, rfl, rfl, rfl⟩
  | unchanged ovl mem own eqType beg path =>
    exact Or.inl ⟨rfl, ovl, mem, own, eqType, beg, path⟩
  | retyped left right ovl parts own eqS eqEnd =>
    have sameLast : ovl.last = lock.last := by rw [last, last, eqEnd]
    have ranged : ∀ l ∈ left ++ ovl :: right, l.Ranged := by
      rw [← parts]
      exact cst.ranged
    have sort : OwnSorted (left ++ ovl :: right) := by
      rw [← parts]
      exact cst.sorted
    have order := pairwise_append.mp sort
    have prev : ∀ l ∈ left, l.lfId = lock.lfId → l.Precedes lock := by
      intro l mem ownL
      have next := order.2.2 l mem ovl mem_cons_self (by rw [ownL, own])
      unfold Precedes at next ⊢
      omega
    have s' : AllBehind lock right :=
      AllBehind.of_sorted order.2.1 own (by omega)
    have leftMiss : ∀ l ∈ left, hit lock l = false := by
      intro l mem
      by_contra isHit
      obtain ⟨ownL, left, right⟩ :=
        (hit_iff (ranged l (by simp [mem])) lrng).mp (by simpa using isHit)
      have next := prev l mem ownL
      unfold Precedes at next
      omega
    have rightMiss := s'.not_hit lrng (fun l mem => ranged l (by simp [mem]))
    have orderLock := lrng.ordered
    have isHit : hit lock ovl = true :=
      (hit_iff (ranged ovl (by simp)) lrng).mpr ⟨own, by omega, by omega⟩
    refine Or.inr ⟨left, right, _, rfl, ?_, prev, s', own, rfl, eqS, eqEnd⟩
    rw [parts, flatMap_append, flatMap_cons, flatMap_remains_of_not_hit _ leftMiss,
      flatMap_remains_of_not_hit _ rightMiss,
      remains_inside _ isHit (by omega) (by omega), nil_append]

theorem Consistent.holds_unique (cst : Consistent locks) {byte : Int} {owner : Owner}
    {fst snd : LockType} (left : Holds locks byte owner fst)
    (right : Holds locks byte owner snd) : fst = snd := by
  obtain ⟨l, inL, idL, rfl, coversL⟩ := left
  obtain ⟨r, inR, idR, rfl, coversR⟩ := right
  have same : l = r := by
    by_contra differ
    unfold Covers at coversL coversR
    rcases pairwise_iff_getElem.mp cst.sorted with order
    obtain ⟨i, iBound, rfl⟩ := getElem_of_mem inL
    obtain ⟨j, jBound, rfl⟩ := getElem_of_mem inR
    rcases lt_trichotomy i j with less | equal | greater
    · have next := order i j iBound jBound less (by rw [idL, idR])
      unfold Precedes at next
      omega
    · subst equal
      exact differ rfl
    · have next := order j i jBound iBound greater (by rw [idL, idR])
      unfold Precedes at next
      omega
  rw [same]

theorem holds_insert {left right : List Lockf} (byte : Int) (owner : Owner) (type : LockType) :
    Holds (left ++ l :: right) byte owner type ↔ Holds (left ++ right) byte owner type ∨
        l.lfId = owner ∧ l.lfType = type ∧ l.Covers byte := by
  simp only [Holds, mem_append, mem_cons]
  constructor
  · rintro ⟨m, inL | rfl | mem, tl⟩
    · exact Or.inl ⟨m, Or.inl inL, tl⟩
    · exact Or.inr tl
    · exact Or.inl ⟨m, Or.inr mem, tl⟩
  · rintro (⟨m, inL | mem, tl⟩ | tl)
    · exact ⟨m, Or.inl inL, tl⟩
    · exact ⟨m, Or.inr (Or.inr mem), tl⟩
    · exact ⟨l, Or.inr (Or.inl rfl), tl⟩

section Granted

variable {spare : Nat} {sls sleepers' : List (Sleeper φ)} {result : List Lockf}
  (placed : Placed lock spare tl sls result sleepers') (cst : Consistent tl)
  (lrng : lock.Ranged)

include placed cst lrng

/-- Inside the range the new type, outside it what was. -/
theorem Placed.holds_iff (byte : Int) (owner : Owner) (type : LockType) :
    Holds result byte owner type ↔ if owner = lock.lfId ∧ lock.Covers byte then type = lock.lfType
      else Holds tl byte owner type := by
  rcases placed.parts cst lrng with ⟨rfl, ovl, mem, own, eqType, beg,
    path⟩ | ⟨left, right, new, rfl, parts, _, _, sameId, eqType, eqS, eqEnd⟩
  · split
    · rename_i bnd
      have held : Holds result byte owner lock.lfType := by
        refine ⟨ovl, mem, by rw [own, bnd.1], eqType, ?_⟩
        have cov := bnd.2
        unfold Covers at cov ⊢
        omega
      constructor
      · intro holds
        exact cst.holds_unique holds held
      · intro isType
        rw [isType]
        exact held
    · rfl
  have sameCovers : new.Covers byte ↔ lock.Covers byte := by
    unfold Covers last
    rw [eqS, eqEnd]
  rw [holds_insert, parts, holds_remains cst.ranged lrng, sameId, eqType, sameCovers]
  split
  · rename_i bnd
    constructor
    · rintro (⟨_, out⟩ | ⟨_, isType, _⟩)
      · exact absurd bnd out
      · exact isType.symm
    · intro isType
      exact Or.inr ⟨bnd.1.symm, isType.symm, bnd.2⟩
  rename_i out
  constructor
  · rintro (⟨held, _⟩ | ⟨isOwner, _, cov⟩)
    · exact held
    · exact absurd ⟨isOwner.symm, cov⟩ out
  · intro held
    exact Or.inl ⟨held, out⟩

theorem Placed.keepsConsistent (whole : lock.Whole) (free : ∀ l ∈ tl, ¬ Conflicts lock l) :
    Consistent result := by
  rcases placed.parts cst lrng with ⟨rfl, _⟩ |
    ⟨left, right, new, rfl, parts, prev, s', sameId, eqType, eqS, eqEnd⟩
  · exact cst
  have sameLast : new.last = lock.last := by rw [last, last, eqEnd]
  have kept : Consistent (tl.flatMap (remains spare lock)) :=
    cst.remains lrng whole
  rw [← parts] at kept
  apply kept.insert
  · have beg := lrng.nonneg
    have order := lrng.ordered
    have limit := lrng.bounded
    exact ⟨by omega, by omega, by omega⟩
  · intro m mem ownM
    have next := prev m mem (by rw [ownM, sameId])
    unfold Precedes at next ⊢
    omega
  · intro m mem ownM
    have next := s' m mem (by rw [ownM, sameId])
    unfold Precedes at next ⊢
    omega
  · intro fp file
    rw [eqS, eqEnd]
    exact whole fp (by rw [← sameId, file])
  · intro m mem clash
    rw [parts] at mem
    obtain ⟨l, hrest, piece⟩ := mem_flatMap.mp mem
    obtain ⟨idM, typeM, _⟩ := mem_remains piece
    have sub := ranged_of_mem_remains (cst.ranged l hrest) lrng piece
    obtain ⟨differ, exclusive, ovl⟩ := clash
    rw [idM, sameId] at differ
    rw [eqType, typeM] at exclusive
    exact free l hrest ⟨differ, exclusive, ovl.mono sub.2.1 sub.2.2 (by omega) (by omega)⟩

end Granted

/-!
### Sequences of requests

Sequences of non-blocking requests: each changes the map from bytes to
locks exactly on its range, or is refused because of a conflict, as long as none
cuts a lock up to the end of the file at the largest byte.
-/

open NetBSD.Machine

variable [DecidableEq φ]

/-- A non-blocking `F_SETLK` or `F_UNLCK` request, with the structures that `lf_advlock` has
allocated for it. -/
structure Request (φ : Type) where
  unlocks : Bool
  file : φ
  lock : Lockf
  spare : Option Lockf

def Request.run (request : Request φ) (world : World φ) : Option (Outcome × World φ) :=
  lfOperate (fun _ => false) world (if request.unlocks then .unlck else .setlk) request.file
    request.lock false request.spare

def requestStep (world : World φ) (request : Request φ) : Option (World φ) :=
  (request.run world).map Prod.snd

/-- What `lf_advlock` and its callers promise: a range of bytes, which is the whole file for
`flock`, and a spare lock for byte ranges. -/
structure Request.Proper (request : Request φ) : Prop where
  ranged : request.lock.Ranged
  whole : request.lock.Whole
  spared : ∀ pid, request.lock.lfId = .proc pid → request.spare ≠ none

/-- The request does not cut an own lock up to the end of the file at the largest byte: only a
lock of the same type that covers the request may be there, or a conflict. -/
def Request.Fits (request : Request φ) (locks : List Lockf) : Prop :=
  ∀ l ∈ locks, Cuts request.lock l → request.unlocks = false ∧
      (l.lfStart ≤ request.lock.lfStart ∧ l.lfType = request.lock.lfType ∨
        ∃ m ∈ locks, Conflicts request.lock m)

/-- What a request may do: it is granted and changes the map on its own range for its owner only,
or it is refused for a conflict and changes nothing. -/
structure Request.Obeyed (request : Request φ) (world : World φ) (outcome : Outcome)
    (after : World φ) : Prop where
  decided : outcome = .ok ∨ outcome = .eagain
  refused_iff : outcome = .eagain ↔
    request.unlocks = false ∧ ∃ l ∈ world.heads request.file, Conflicts request.lock l
  refused : outcome = .eagain → after.heads = world.heads
  granted : outcome = .ok → ∀ byte owner type, Holds (after.heads request.file) byte owner type ↔
      if owner = request.lock.lfId ∧ request.lock.Covers byte then
        request.unlocks = false ∧ type = request.lock.lfType
      else Holds (world.heads request.file) byte owner type
  elsewhere : ∀ file, file ≠ request.file → after.heads file = world.heads file

/-- A search through the own locks that ends early misses nothing. -/
def NoMissedOverlap (locks : List Lockf) : Prop :=
  ∀ lock : Lockf, lock.Ranged → ∀ front rest, locks = front ++ rest → ∀ before after,
    lfFindoverlap .self lock front rest = .noOverlap before after →
      ∀ l ∈ rest, l.lfId = lock.lfId → ¬ Overlaps l lock

theorem not_hit_of_noOverlap (lrng : lock.Ranged) (ranged : ∀ l ∈ tl, l.Ranged)
    (sort : OwnSorted tl) {pre prev s' : List Lockf}
    (fnd : lfFindoverlap .self lock pre tl = .noOverlap prev s') :
    ∀ l ∈ tl, hit lock l = false := by
  induction tl generalizing pre with
  | nil => simp
  | cons l tl ih =>
    obtain ⟨rangedL, tailRanged⟩ := forall_mem_cons.mp ranged
    rcases search_cases rangedL lrng with ⟨skip, hm⟩ | ⟨own, later, hm⟩ | isHit
    · rw [lfFindoverlap_skip rangedL lrng skip] at fnd
      exact forall_mem_cons.mpr ⟨hm, ih tailRanged (pairwise_cons.mp sort).2 fnd⟩
    · have tail := AllBehind.of_sorted sort own (by
        have order := rangedL.ordered
        unfold Precedes at later
        omega)
      exact forall_mem_cons.mpr ⟨hm, tail.not_hit lrng tailRanged⟩
    · obtain ⟨_, left, right⟩ := (hit_iff rangedL lrng).mp isHit
      rcases ovcaseOf_cases rangedL lrng left right with
        ⟨isCase, _⟩ | ⟨isCase, _⟩ | ⟨isCase, _⟩ | ⟨isCase, _⟩ | ⟨isCase, _⟩ <;>
        (rw [lfFindoverlap_found isHit isCase] at fnd; exact Search.noConfusion fnd)

theorem Consistent.noMissedOverlap (cst : Consistent locks) : NoMissedOverlap locks := by
  intro lock lrng pre tl split prev s' fnd l mem own ovl
  have ranged : ∀ m ∈ tl, m.Ranged :=
    fun m hrest => cst.ranged m (by simp [split, hrest])
  have sort : OwnSorted tl := by
    have whole := cst.sorted
    rw [split] at whole
    exact (pairwise_append.mp whole).2.1
  have hm := not_hit_of_noOverlap lrng ranged sort fnd l mem
  have both := (overlaps_iff (ranged l mem) lrng).mp ovl
  rw [(hit_iff (ranged l mem) lrng).mpr ⟨own, both⟩] at hm
  exact absurd hm (by simp)

theorem enough_of_proper {spare : Option Lockf} (cst : Consistent locks)
    (whole : lock.Whole) (spared : ∀ pid, lock.lfId = .proc pid → spare ≠ none)
    (lrng : lock.Ranged) : EnoughFor spare lock locks := by
  intro hn l mem isHit cuts
  have own := ((hit_iff (cst.ranged l mem) lrng).mp isHit).1
  cases isOwner : lock.lfId with
  | proc pid => exact spared pid isOwner hn
  | file fp =>
    have wholeL := cst.whole l mem fp (by rw [own, isOwner])
    have wholeLock := whole fp isOwner
    omega

omit [DecidableEq φ] in
theorem freeSpare_heads (spare : Option Lockf) (w : World φ) :
    (freeSpare spare w).heads = w.heads := by
  cases spare <;> rfl

omit [DecidableEq φ] in
theorem lfClearlock_eq {spare : Option Lockf} (cst : Consistent locks)
    (lrng : lock.Ranged) (suff : EnoughFor spare lock locks)
    (uncut : ∀ l ∈ locks, ¬ Cuts lock l) (env : Env φ) :
    ∃ spare' env', lfClearlock lock spare locks env =
        some (locks.flatMap (remains (spareId spare) lock), spare', env') ∧
      env'.sleepers = wake (hitQueue lock locks) env.sleepers :=
  lfClearLoop_eq lrng cst.ranged cst.sorted uncut suff (Nat.lt_succ_self _) []
    env

theorem consistent_update {heads : φ → List Lockf} {file : φ}
    (cst : ∀ file, Consistent (heads file)) (new : Consistent locks) :
    ∀ oth, Consistent (update heads file locks oth) := by
  intro oth
  by_cases same : oth = file
  · rw [same, update_self]
    exact new
  · rw [update_of_ne same]
    exact cst oth

section Step

variable {request : Request φ} {w : World φ}
  (cst : ∀ file, Consistent (w.heads file)) (proper : request.Proper)
  (fits : request.Fits (w.heads request.file))

include cst proper fits

/-- An unlock frees the bytes of its range and no others. -/
theorem Request.run_unlock (unlocks : request.unlocks = true) :
    ∃ out s', request.run w = some (out, s') ∧
      request.Obeyed w out s' ∧ ∀ file, Consistent (s'.heads file) := by
  have noConflict : ¬ (request.unlocks = false ∧
      ∃ l ∈ w.heads request.file, Conflicts request.lock l) := by
    simp [unlocks]
  by_cases empty : w.heads request.file = []
  · refine ⟨.ok, freeSpare request.spare { w with env := lfFree w.env request.lock }, ?_,
      ⟨Or.inl rfl, ?_, ?_, ?_, ?_⟩, ?_⟩
    · simp [Request.run, lfOperate, unlocks, empty]
    · simp [noConflict]
    · simp
    · intro _ byte owner type
      rw [freeSpare_heads]
      simp [Holds, empty, unlocks]
    · intro file _
      rw [freeSpare_heads]
    · intro file
      rw [freeSpare_heads]
      exact cst file
  have uncut : ∀ l ∈ w.heads request.file, ¬ Cuts request.lock l := by
    intro l mem cut
    have fit := (fits l mem cut).1
    rw [unlocks] at fit
    exact absurd fit (by simp)
  obtain ⟨spare', env', clrd, _⟩ := lfClearlock_eq (cst request.file) proper.ranged
    (enough_of_proper (cst request.file) proper.whole proper.spared proper.ranged) uncut
    w.env
  refine ⟨.ok, freeSpare spare' ⟨update w.heads request.file
      ((w.heads request.file).flatMap (remains (spareId request.spare) request.lock)),
      lfFree env' request.lock, w.fresh⟩, ?_, ⟨Or.inl rfl, ?_, ?_, ?_, ?_⟩, ?_⟩
  · simp [Request.run, lfOperate, unlocks, empty, clrd]
  · simp [noConflict]
  · simp
  · intro _ byte owner type
    simp only [freeSpare_heads, update_self]
    rw [holds_remains (cst request.file).ranged proper.ranged]
    split <;> simp_all
  · intro file oth
    simp only [freeSpare_heads, update_of_ne oth]
  · rw [freeSpare_heads]
    exact consistent_update cst
      ((cst request.file).remains proper.ranged proper.whole)

/-- A lock is granted, refused or put to sleep as the bytes demand. -/
theorem Request.run_lock (locksIt : request.unlocks = false) :
    ∃ out s', request.run w = some (out, s') ∧
      request.Obeyed w out s' ∧ ∀ file, Consistent (s'.heads file) := by
  have ranged := (cst request.file).ranged
  rcases lfGetblock_spec proper.ranged ranged (le_refl _) with ⟨ans, free⟩ |
    ⟨block, inList, ans, isBlock⟩
  · have noConflict : ∀ l ∈ w.heads request.file, ¬ Conflicts request.lock l := by
      intro l mem clash
      exact free l mem ((blocks_iff (ranged l mem) proper.ranged).mpr clash)
    have setFits : SetFits request.lock (w.heads request.file) := by
      intro l mem cut
      rcases (fits l mem cut).2 with cov | ⟨m, inM, clash⟩
      · exact cov
      · exact absurd clash (noConflict m inM)
    obtain ⟨res, spare', env', loop, placed⟩ := lfSetLoop_placed proper.ranged ranged
      (cst request.file).sorted setFits
      (enough_of_proper (cst request.file) proper.whole proper.spared proper.ranged)
      (Nat.lt_succ_self _) [] w.env
    refine ⟨.ok, freeSpare spare' ⟨update w.heads request.file res, env',
      w.fresh⟩, ?_, ⟨Or.inl rfl, ?_, ?_, ?_, ?_⟩, ?_⟩
    · simp [Request.run, lfOperate, lfSetlock, locksIt, ans, loop]
    · constructor
      · intro isEagain
        exact absurd isEagain (by simp)
      · rintro ⟨_, l, mem, clash⟩
        exact absurd clash (noConflict l mem)
    · simp
    · intro _ byte owner type
      simp only [freeSpare_heads, update_self]
      rw [placed.holds_iff (cst request.file) proper.ranged]
      simp [locksIt]
    · intro file oth
      simp only [freeSpare_heads, update_of_ne oth]
    · rw [freeSpare_heads]
      exact consistent_update cst
        (placed.keepsConsistent (cst request.file) proper.ranged proper.whole noConflict)
  · refine ⟨.eagain, freeSpare request.spare { w with env := lfFree w.env request.lock }, ?_,
      ⟨Or.inr rfl, ?_, ?_, ?_, ?_⟩, ?_⟩
    · simp [Request.run, lfOperate, lfSetlock, locksIt, ans]
    · simp only [true_iff]
      exact ⟨locksIt, block, inList, (blocks_iff (ranged block inList) proper.ranged).mp isBlock⟩
    · intro _
      rw [freeSpare_heads]
    · simp
    · intro file _
      rw [freeSpare_heads]
    · intro file
      rw [freeSpare_heads]
      exact cst file

theorem Request.run_obeyed : ∃ out s', request.run w = some (out, s') ∧
      request.Obeyed w out s' ∧ ∀ file, Consistent (s'.heads file) := by
  cases unlocks : request.unlocks with
  | true => exact Request.run_unlock cst proper fits unlocks
  | false => exact Request.run_lock cst proper fits unlocks

end Step

omit [DecidableEq φ] in
theorem consistent_empty (file : φ) : Consistent ((World.empty : World φ).heads file) := by
  refine ⟨?_, List.Pairwise.nil, ?_, ?_⟩ <;> simp [World.empty]

theorem consistent_consume {requests : List (Request φ)} (prop : ∀ r ∈ requests, r.Proper)
    (fits : ∀ front r, front ++ [r] <+: requests → ∀ got,
      consume requestStep front World.empty = some got → r.Fits (got.heads r.file)) :
    ∃ got, consume requestStep requests World.empty = some got ∧
      ∀ file, Consistent (got.heads file) := by
  apply consume_invariant requestStep (fun w => ∀ file, Consistent (w.heads file))
    (fun w r => r.Proper ∧ r.Fits (w.heads r.file)) _ requests consistent_empty
  · intro front r pre got eaten
    exact ⟨prop r (pre.subset (by simp)), fits front r pre got eaten⟩
  · rintro w r cst ⟨properR, fitsR⟩
    obtain ⟨out, s', ran, _, kept⟩ := Request.run_obeyed cst properR fitsR
    exact ⟨s', by simp [requestStep, ran], kept⟩

/-- Every sequence of non-blocking requests of which none cuts an own lock up to the end of the
file at the largest byte: in every state that is reached the list is consistent and a search that
ends early misses no overlap, and the next request changes the map exactly as it should. -/
theorem requests_obeyed {requests : List (Request φ)} (proper : ∀ r ∈ requests, r.Proper)
    (fits : ∀ front r, front ++ [r] <+: requests → ∀ reached,
      consume requestStep front World.empty = some reached → r.Fits (reached.heads r.file)) :
    ∀ front, front <+: requests → ∃ w, consume requestStep front World.empty = some w ∧
      (∀ file, Consistent (w.heads file) ∧ NoMissedOverlap (w.heads file)) ∧
      ∀ r, front ++ [r] <+: requests → ∃ outcome after,
        r.run w = some (outcome, after) ∧ r.Obeyed w outcome after := by
  intro front pre
  obtain ⟨w, eaten, cst⟩ := consistent_consume
    (fun r mem => proper r (pre.subset mem))
    (by
      intro old r inF reached eaten
      exact fits old r (inF.trans pre) reached eaten)
  refine ⟨w, eaten, fun file => ⟨cst file, (cst file).noMissedOverlap⟩, ?_⟩
  intro r next
  obtain ⟨outcome, after, ran, obeyed, _⟩ := Request.run_obeyed cst
    (proper r (next.subset (by simp))) (fits front r next w eaten)
  exact ⟨outcome, after, ran, obeyed⟩

def byteLock (ident pid : Nat) (type : LockType) (start stop : Int) : Lockf :=
  ⟨ident, type, start, stop, .proc pid, [], 0⟩

def byteRequest (unlocks : Bool) (lock : Lockf) : Request Unit :=
  ⟨unlocks, (), lock, some (byteLock (lock.ident + 1) 0 .rdlck 0 0)⟩

theorem byteRequest_proper {unlocks : Bool} {ident pid : Nat} {type : LockType} {beg stop : Int}
    (nonneg : 0 ≤ beg) (ord : stop = -1 ∧ beg ≤ offMax ∨ beg ≤ stop ∧ stop ≤ offMax) :
    (byteRequest unlocks (byteLock ident pid type beg stop)).Proper := by
  have lastLock := last_cases (byteLock ident pid type beg stop)
  simp only [byteLock] at lastLock
  refine ⟨⟨nonneg, ?_, ?_⟩, ?_, ?_⟩
  · simp only [byteRequest, byteLock]
    omega
  · simp only [byteRequest, byteLock]
    omega
  · intro fp file
    exact absurd file (by simp [byteRequest, byteLock])
  · intro pid _
    simp [byteRequest]

def splitRequests : List (Request Unit) :=
  [byteRequest false (byteLock 0 1 .wrlck 0 9), byteRequest true (byteLock 2 1 .wrlck 3 5)]

theorem requests_obeyed_splitLock :
    ∃ w, consume requestStep splitRequests World.empty = some w ∧
      Consistent (w.heads ()) := by
  have limit : offMax = 9223372036854775807 := by decide
  have prop : ∀ r ∈ splitRequests, r.Proper := by
    intro r mem
    simp only [splitRequests, mem_cons, not_mem_nil, or_false] at mem
    rcases mem with rfl | rfl <;> exact byteRequest_proper (by omega) (by omega)
  obtain ⟨w, eaten, cst, _⟩ := requests_obeyed prop (by
      intro front r pre got _ l _ cut
      have mem := pre.subset (mem_append_right front (mem_singleton_self r))
      have atEnd := cut.2.1
      simp only [splitRequests, mem_cons, not_mem_nil, or_false] at mem
      rcases mem with rfl | rfl <;> simp [byteRequest, byteLock, limit] at atEnd)
    _ prefix_rfl
  exact ⟨w, eaten, (cst ()).1⟩

/-- Unlocking from byte 1 to the largest byte leaves the owner of the whole file with a lock on
every byte. -/
theorem unlock_toLargestByte : (byteRequest true (byteLock 2 1 .wrlck 1 offMax)).Proper ∧
      ∃ w outcome after,
        consume requestStep [byteRequest false (byteLock 0 1 .wrlck 0 (-1))] World.empty =
          some w ∧
        (byteRequest true (byteLock 2 1 .wrlck 1 offMax)).run w = some (outcome, after) ∧
        ¬ (byteRequest true (byteLock 2 1 .wrlck 1 offMax)).Obeyed w outcome after := by
  refine ⟨byteRequest_proper (by omega) (by decide), _, _, _, rfl, rfl, ?_⟩
  intro obeyed
  have changed := obeyed.granted rfl 5 (.proc 1) .wrlck
  refine absurd (changed.mp ⟨⟨3, .wrlck, off (offMax + 1), -1, .proc 1, [], 0⟩, ?_, rfl, rfl, ?_⟩) ?_
  · decide
  · decide
  · rw [if_pos (by decide)]
    decide

end NetBSD.Kern.VfsLockf
