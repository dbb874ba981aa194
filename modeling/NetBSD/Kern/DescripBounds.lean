import NetBSD.Kern.DescripRun

/-!
Owns the words of the two bitmaps that `fd_alloc` looks at. The high map has bits for whole words of
32, so the search may come to the first word behind a low map that does not fill them.
-/

namespace NetBSD.Kern.Descrip

open NetBSD.Arith NetBSD.Machine List

section Model

/-- The words that `nextZeroLoop` reads. -/
def nextZeroLoopReads (bitmap : Nat → UInt32) : Nat → Nat → List Nat
  | 0, _ => []
  | words + 1, off =>
    if bitmap off ≠ 0xffffffff then [off] else off :: nextZeroLoopReads bitmap words (off + 1)

/-- The words that `fd_next_zero` reads. -/
def nextZeroReads (bitmap : Nat → UInt32) (want bits : Nat) : List Nat :=
  if want > bits then []
  else
    let off := want / 32
    let i := want % 32
    if i = 0 then nextZeroLoopReads bitmap (ndloslots bits - off) off
    else
      let sub := bitmap off ||| (0xffffffff >>> UInt32.ofNat (32 - i))
      if sub ≠ 0xffffffff then [off]
      else off :: nextZeroLoopReads bitmap (ndloslots bits - (off + 1)) (off + 1)

/-- The words of the high map and of the low map that the loop of `fd_alloc` looks at. With a number
found, `fd_used` looks at the words for it. -/
def allocReads (fdp : Filedesc) (last : Nat) : Nat → Nat → Option (List Nat × List Nat)
  | 0, _ => none
  | fuel + 1, want =>
    let i := if want < fdp.fd_freefile then fdp.fd_freefile else want
    let off := i / 32
    let himap := nextZeroReads fdp.fd_himap off (ndloslots last)
    match fdNextZero fdp.fd_himap off (ndloslots last) with
    | none => some (himap, [])
    | some hi =>
      let i := if hi > off then 0 else i % 32
      let lomap := (nextZeroReads (fun word => fdp.lomapWord (hi + word)) i 32).map (hi + ·)
      match fdNextZero (fun word => fdp.lomapWord (hi + word)) i 32 with
      | none => (allocReads fdp last fuel ((hi + 1) * 32)).map fun (himap', lomap') =>
          (himap ++ himap', lomap ++ lomap')
      | some bit =>
        let i := bit + hi * 32
        if i ≥ last then some (himap, lomap)
        else some (himap ++ [i / 32 / 32], lomap ++ [i / 32])

/-- The words of `fd_lomap`, which is part of the structure when the high map has one word. -/
def lomapSlots (n : Nat) : Nat := if ndhislots n ≤ 1 then 32 else ndloslots n

/-- `fd_alloc` looks at words of its maps only. -/
def InBounds (fdp : Filedesc) (want lim : Nat) : Prop :=
  let last := min fdp.dt_nfiles lim
  ∃ himap lomap, allocReads fdp last (ndloslots last + 2) want = some (himap, lomap) ∧
    (∀ word ∈ himap, word < ndhislots fdp.dt_nfiles) ∧
    ∀ word ∈ lomap, word < lomapSlots fdp.dt_nfiles

/-- No number from the start of the search on is free, and the search comes to the word behind the
low map: the last word of the high map that it may read has a bit for it, and it gets past the word
where it starts. -/
structure ReachesEnd (fdp : Filedesc) (last start : Nat) : Prop where
  apart : 1 < ndhislots fdp.dt_nfiles
  short : ndloslots fdp.dt_nfiles < ndloslots (ndloslots last) * 32
  full : ∀ fd, start ≤ fd → fd < fdp.dt_nfiles → fdp.isused fd = true
  passes : start / 32 < ndloslots last ∨ start / 32 = ndloslots last ∧
    (ndloslots last = ndloslots fdp.dt_nfiles ∨ fdp.fd_lomap (start / 32) = 0xffffffff)

end Model

section Reads

variable {bitmap : Nat → UInt32} {want bits : Nat}

theorem nextZeroLoopReads_lt (words off : Nat) :
    ∀ word ∈ nextZeroLoopReads bitmap words off, word < off + words := by
  induction words generalizing off with
  | zero => exact fun word isIn => absurd isIn not_mem_nil
  | succ words ih =>
    intro word isIn
    rw [nextZeroLoopReads] at isIn
    split at isIn
    · rw [mem_singleton.mp isIn]
      omega
    · cases mem_cons.mp isIn with
      | inl fst => omega
      | inr mem =>
        have := ih (off + 1) word mem
        omega

theorem nextZeroReads_lt : ∀ word ∈ nextZeroReads bitmap want bits, word < ndloslots bits := by
  intro word isIn
  unfold nextZeroReads at isIn
  split at isIn
  · cases isIn
  rename_i bnd
  have inLoop (off : Nat) (isIn : word ∈ nextZeroLoopReads bitmap (ndloslots bits - off) off) :
      word < ndloslots bits := by
    have lt := nextZeroLoopReads_lt _ _ word isIn
    by_cases empty : ndloslots bits - off = 0
    · rw [empty] at isIn
      cases isIn
    · omega
  dsimp only at isIn
  split at isIn
  · exact inLoop _ isIn
  have here : want / 32 < ndloslots bits := by
    unfold ndloslots
    omega
  split at isIn
  · exact mem_singleton.mp isIn ▸ here
  · cases mem_cons.mp isIn with
    | inl fst => exact fst ▸ here
    | inr mem => exact inLoop _ mem

end Reads

section Search

variable {fdp : Filedesc} {last beg want fuel hi : Nat}

theorem ndloslots_mono {m n : Nat} (le : m ≤ n) : ndloslots m ≤ ndloslots n := by
  unfold ndloslots
  omega

theorem le_of_fdNextZero {bitmap : Nat → UInt32} {bits n : Nat}
    (fnd : fdNextZero bitmap want bits = some n) : want ≤ bits := by
  by_contra far
  rw [fdNextZero, if_pos (by omega)] at fnd
  cases fnd

theorem nextZeroReads_word (bitmap : Nat → UInt32) {i : Nat} (lt : i < 32) :
    nextZeroReads bitmap i 32 = [0] := by
  have fst : i / 32 = 0 := by omega
  have isOne : ndloslots 32 = 1 := rfl
  unfold nextZeroReads
  rw [if_neg (by omega), fst, isOne]
  simp only [Nat.sub_self, nextZeroLoopReads, ite_self]

theorem TableSize.aligned {n : Nat} (size : TableSize n) (apart : 1 < ndhislots n) :
    ndloslots n * 32 = n := by
  unfold ndhislots ndloslots at *
  rcases size with rfl | ⟨k, rfl⟩
  · exact absurd apart (by decide)
  unfold ndextent at *
  have large : 4 ≤ k := by
    by_contra sml
    have : 2 ^ k ≤ 2 ^ 3 := Nat.pow_le_pow_right (by decide) (by omega)
    omega
  obtain ⟨m, rfl⟩ := Nat.exists_eq_add_of_le large
  rw [pow_add]
  omega

section

variable (cst : Consistent fdp)

include cst

theorem Consistent.himap_behind {word : Nat}
    (tail : ndloslots fdp.dt_nfiles ≤ word) : mapBit fdp.fd_himap word = false := by
  rw [Bool.eq_false_iff]
  intro isSet
  have used : fdp.isused (word * 32) = true :=
    cst.isused_of_himap (by rwa [Nat.mul_div_cancel _ (by decide)])
  have := cst.inside _ used
  unfold ndloslots at tail
  omega

theorem Consistent.himap_full {word : Nat}
    (full : ∀ i < 32, fdp.isused (word * 32 + i) = true) : mapBit fdp.fd_himap word = true :=
  (cst.himap word).mpr (word_full_iff.mpr full)

/-- Where the search of the high map finds nothing, it does not come to the end. -/
theorem Consistent.stops (lt : last ≤ fdp.dt_nfiles)
    (notFound : fdNextZero fdp.fd_himap (beg / 32) (ndloslots last) = none) :
    ¬ ReachesEnd fdp last beg := by
  rintro ⟨_, short, _, pss⟩
  have fits := ndloslots_mono lt
  have search := fdNextZero_spec fdp.fd_himap (show beg / 32 ≤ ndloslots last by omega)
  rw [notFound] at search
  exact absurd (search (ndloslots fdp.dt_nfiles) (by omega) short)
    (Bool.eq_false_iff.mp (cst.himap_behind (le_refl _)))

/-- Where it finds a word behind the low map, it comes to the end. -/
theorem Consistent.atEnd (lt : last ≤ fdp.dt_nfiles)
    (apart : 1 < ndhislots fdp.dt_nfiles) (tail : ndloslots fdp.dt_nfiles ≤ hi)
    (fnd : fdNextZero fdp.fd_himap (beg / 32) (ndloslots last) = some hi) :
    ReachesEnd fdp last beg := by
  have bnd := le_of_fdNextZero fnd
  have search := fdNextZero_spec fdp.fd_himap bnd
  rw [fnd] at search
  obtain ⟨_, isBelow, _, fullWords⟩ := search
  have hsz := cst.size.aligned apart
  refine ⟨apart, by omega, fun fd fst low => cst.isused_of_himap
    (fullWords _ (by omega) (by omega)), ?_⟩
  by_cases lst : beg / 32 = ndloslots last
  · refine .inr ⟨lst, ?_⟩
    by_cases same : ndloslots last = ndloslots fdp.dt_nfiles
    · exact .inl same
    · have fits := ndloslots_mono lt
      exact .inr ((cst.himap _).mp (fullWords _ (le_refl _) (by omega)))
  · exact .inl (by omega)

/-- A word without a free number from the start of the search on is the first one: the search goes
on behind it. -/
theorem Consistent.retries (clr : mapBit fdp.fd_himap hi = false) (fst : hi = beg / 32)
    (prev : hi < ndloslots fdp.dt_nfiles)
    (cov : ∀ fd, beg ≤ fd → fd < (hi + 1) * 32 → fdp.isused fd = true) :
    ReachesEnd fdp last ((hi + 1) * 32) ↔ ReachesEnd fdp last beg := by
  have notFull : fdp.fd_lomap hi ≠ 0xffffffff := fun full =>
    Bool.eq_false_iff.mp clr ((cst.himap hi).mpr full)
  constructor
  · rintro ⟨apart, short, full, pss⟩
    refine ⟨apart, short, fun fd first low => ?_, .inl (by omega)⟩
    by_cases isLow : fd < (hi + 1) * 32
    · exact cov fd first isLow
    · exact full fd (not_lt.mp isLow) low
  rintro ⟨apart, short, full, pss⟩
  have hsz := cst.size.aligned apart
  rw [← fst] at pss
  have lt : hi < ndloslots last := by
    rcases pss with lt | ⟨lst, same | isFull⟩
    · exact lt
    · omega
    · exact absurd isFull notFull
  refine ⟨apart, short, fun fd first low => full fd (by omega) low, ?_⟩
  rw [Nat.mul_div_cancel _ (by decide)]
  by_cases lst : hi + 1 = ndloslots last
  · refine .inr ⟨lst, ?_⟩
    by_cases same : ndloslots last = ndloslots fdp.dt_nfiles
    · exact .inl same
    · exact .inr (word_full_iff.mpr fun i sml => full _ (by omega) (by omega))
  · exact .inl (by omega)

end

theorem lomapWord_inside (lt : hi < ndloslots fdp.dt_nfiles) :
    fdp.lomapWord hi = fdp.fd_lomap hi := by
  rw [Filedesc.lomapWord, if_pos (.inr lt)]

/-- The words read stay in the maps unless the search reaches their end. -/
theorem allocReads_spec (cst : Consistent fdp) (lt : last ≤ fdp.dt_nfiles)
    (some_ : 1 ≤ fuel) (suff : ndloslots last + 2 ≤ fuel + want / 32) :
    ∃ himap lomap, allocReads fdp last fuel want = some (himap, lomap) ∧
      (∀ word ∈ himap, word < ndhislots fdp.dt_nfiles) ∧
      ((∀ word ∈ lomap, word < lomapSlots fdp.dt_nfiles) ↔
        ¬ ReachesEnd fdp last (max want fdp.fd_freefile)) := by
  induction fuel generalizing want with
  | zero => omega
  | succ fuel ih =>
    have startIs : (if want < fdp.fd_freefile then fdp.fd_freefile else want) =
        max want fdp.fd_freefile := by
      split <;> omega
    rw [allocReads, startIs]
    have isAbove := le_max_left want fdp.fd_freefile
    have aft := le_max_right want fdp.fd_freefile
    generalize max want fdp.fd_freefile = beg at *
    have slots : ndloslots (ndloslots last) ≤ ndhislots fdp.dt_nfiles :=
      ndloslots_mono (ndloslots_mono lt)
    have highReads := fun off word isIn => lt_of_lt_of_le
      (@nextZeroReads_lt fdp.fd_himap off (ndloslots last) word isIn) slots
    cases found : fdNextZero fdp.fd_himap (beg / 32) (ndloslots last) with
    | none =>
      exact ⟨_, _, rfl, highReads _, iff_of_true (fun _ isIn => absurd isIn not_mem_nil)
        (cst.stops lt found)⟩
    | some hi =>
      have bnd := le_of_fdNextZero found
      have search := fdNextZero_spec fdp.fd_himap bnd
      rw [found] at search
      obtain ⟨hiAbove, hiBelow, hiClear, _⟩ := search
      dsimp only
      generalize isFrom : (if hi > beg / 32 then 0 else beg % 32) = from_
      have fromInside : from_ < 32 := by
        rw [← isFrom]
        split <;> omega
      have inner := fdNextZero_spec (fun word => fdp.lomapWord (hi + word)) fromInside.le
      rw [show ndloslots 32 * 32 = 32 from rfl] at inner
      have bitOf (isWord : hi < ndloslots fdp.dt_nfiles) (k : Nat) :=
        @mapBit_lomapWord fdp hi k (lomapWord_inside isWord)
      rw [nextZeroReads_word _ fromInside, map_singleton, add_zero]
      cases stopped : fdNextZero (fun word => fdp.lomapWord (hi + word)) from_ 32 with
      | none =>
        rw [stopped] at inner
        obtain ⟨himap, lomap, reads, high, low⟩ := @ih ((hi + 1) * 32) (by omega) (by omega)
        rw [reads]
        refine ⟨_, _, rfl, forall_mem_append.mpr ⟨highReads _, high⟩, ?_⟩
        rw [forall_mem_append, forall_mem_singleton, low, max_eq_left (by omega)]
        by_cases apart : 1 < ndhislots fdp.dt_nfiles
        · rw [lomapSlots, if_neg (by omega)]
          by_cases isWord : hi < ndloslots fdp.dt_nfiles
          · -- only the first word can have free numbers below the start
            have fst : hi = beg / 32 := by
              by_contra late
              rw [if_pos (by omega)] at isFrom
              exact absurd (cst.himap_full fun k sml => (bitOf isWord k sml).symm.trans
                (inner k (by omega) sml)) (Bool.eq_false_iff.mp hiClear)
            rw [if_neg (by omega)] at isFrom
            rw [and_iff_right isWord, cst.retries hiClear fst isWord]
            intro fd first low
            have isSet := inner (fd - hi * 32) (by omega) (by omega)
            rwa [bitOf isWord _ (by omega), Nat.add_sub_cancel' (by omega)] at isSet
          · exact iff_of_false (fun both => isWord both.1) (not_not.mpr
              (cst.atEnd lt apart (not_lt.mp isWord) found))
        · rw [lomapSlots, if_pos (by omega)]
          exact iff_of_true ⟨by omega, fun path => apart path.apart⟩
            fun path => apart path.apart
      | some bit =>
        rw [stopped] at inner
        obtain ⟨bitAbove, bitInside, clr, _⟩ := inner
        have atHi : hi < lomapSlots fdp.dt_nfiles ↔ ¬ ReachesEnd fdp last beg := by
          by_cases apart : 1 < ndhislots fdp.dt_nfiles
          · rw [lomapSlots, if_neg (by omega)]
            by_cases isWord : hi < ndloslots fdp.dt_nfiles
            · refine iff_of_true isWord fun path => ?_
              have hsz := cst.size.aligned apart
              rw [bitOf isWord bit bitInside, path.full _ ?_ (by omega)] at clr
              · cases clr
              · rw [← isFrom] at bitAbove
                split at bitAbove <;> omega
            · exact iff_of_false isWord (not_not.mpr
                (cst.atEnd lt apart (not_lt.mp isWord) found))
          · rw [lomapSlots, if_pos (by omega)]
            exact iff_of_true (by omega) fun path => apart path.apart
        dsimp only
        split
        · exact ⟨_, _, rfl, highReads _, by rw [forall_mem_singleton, atHi]⟩
        have used : (bit + hi * 32) / 32 < ndloslots fdp.dt_nfiles := by
          unfold ndloslots
          omega
        have isHigh : (bit + hi * 32) / 32 / 32 < ndhislots fdp.dt_nfiles := by
          omega
        have isLow : (bit + hi * 32) / 32 < lomapSlots fdp.dt_nfiles := by
          unfold lomapSlots ndhislots
          split <;> omega
        refine ⟨_, _, rfl, forall_mem_append.mpr ⟨highReads _,
          forall_mem_singleton.mpr isHigh⟩, ?_⟩
        rw [forall_mem_append, forall_mem_singleton, forall_mem_singleton, atHi,
          and_iff_left isLow]

end Search

/-- In every state that any events lead to, the reads of a call are within the maps exactly when its
search does not come to the end. -/
theorem fdAlloc_inBounds_iff (events : List Event) : ∃ reached,
    consume step events fdInit = some reached ∧ ∀ want lim, InBounds reached want lim ↔
      ¬ ReachesEnd reached (min reached.dt_nfiles lim) (max want reached.fd_freefile) := by
  obtain ⟨reached, eaten, done⟩ : ∃ reached, consume step events fdInit = some reached ∧
      Settled False reached :=
    consume_invariant step (Settled False) (fun _ _ => True) (fun fdp event done _ =>
      step_settled done event False.elim) events
      ⟨fdInit_good.consistent, False.elim⟩ (fun _ _ _ _ _ => trivial)
  refine ⟨reached, eaten, fun want lim => ?_⟩
  obtain ⟨himap, lomap, reads, high, low⟩ := @allocReads_spec reached _ want _ done.consistent
    (Nat.min_le_left _ lim) (Nat.le_add_left 1 _) (Nat.le_add_right _ _)
  rw [← low]
  constructor
  · rintro ⟨_, _, reads', _, low⟩
    obtain ⟨_, rfl⟩ := Prod.mk.inj (Option.some.inj (reads.symm.trans reads'))
    exact low
  · exact fun low => ⟨himap, lomap, reads, high, low⟩

/-- In an empty table of 1600 numbers, the number behind the last one is asked for. -/
theorem fdAlloc_reads_behind : ∃ reached, consume step (List.replicate 6 .tryexpand) fdInit =
    some reached ∧ ¬ InBounds reached 1600 3404 := by
  refine ⟨_, rfl, ?_⟩
  rintro ⟨himap, lomap, reads, _, low⟩
  have hread := congrArg (Option.map Prod.snd) reads
  have lst : some [50] = some lomap := hread
  obtain rfl := Option.some.inj lst
  exact absurd (low 50 (mem_singleton_self 50)) (by decide)

end NetBSD.Kern.Descrip
