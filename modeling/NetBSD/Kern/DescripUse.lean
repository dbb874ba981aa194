import NetBSD.Kern.Descrip

/-!
Owns the operations on a consistent descriptor table but the copy: each of them
keeps the table consistent, changes the set of descriptors in use by exactly the
one it is about, and keeps the numbers below `fd_freefile` in use.
-/

namespace NetBSD.Kern.Descrip

open NetBSD.Arith Function Filedesc

section LastSet

/-- The search from above ends at the last descriptor in use. -/
theorem fdLastSet_spec (fdp : Filedesc) {last : Nat}
    (lomap : ∀ fd, fdp.isused fd = fdp.allocated fd)
    (below_ : ∀ fd, fdp.isused fd = true → fd < last) : IsLast fdp (fdLastSet fdp last) := by
  have search := lastWord_spec fdp.fd_lomap ((last + 31) / 32)
  have zeroWord : ∀ fd, fdp.fd_lomap (fd / 32) = 0 → fdp.isused fd = false := by
    intro fd zero
    have clear := word_zero_iff.mp zero (fd % 32) (Nat.mod_lt _ (by omega))
    rwa [show fd / 32 * 32 + fd % 32 = fd by omega] at clear
  unfold fdLastSet
  cases found : lastWord fdp.fd_lomap ((last + 31) / 32) with
  | none =>
    rw [found] at search
    refine ⟨by simp, fun fd used => ?_, fun absurd => by simp at absurd⟩
    have sml := below_ fd used
    rw [zeroWord fd (search _ (by omega))] at used
    cases used
  | some off =>
    rw [found] at search
    obtain ⟨lt, nz, s'⟩ := search
    obtain ⟨k, kInside, kUsed⟩ : ∃ k < 32, fdp.isused (off * 32 + k) = true := by
      by_contra none
      push Not at none
      refine nz (word_zero_iff.mpr fun i iInside => ?_)
      simpa [Filedesc.isused] using none i iInside
    have kBelow := below_ _ kUsed
    obtain ⟨sml, isAllocated, greatest⟩ := lastAllocated_spec fdp
      (show off * 32 + k ≤ min ((off + 1) * 32 - 1) (last - 1) by omega) (lomap _ ▸ kUsed)
    refine ⟨by simp only; omega, fun fd used => ?_, fun _ => ?_⟩
    · have fdBelow := below_ fd used
      have inWord : fd / 32 ≤ off := by
        by_contra later
        rw [zeroWord fd (s' _ (by omega) (by omega))] at used
        cases used
      have := greatest fd (by omega) (lomap fd ▸ used)
      simp only
      omega
    · rw [lomap]
      simpa using isAllocated

end LastSet

section Change

variable {fdp : Filedesc} {fd : Nat} {ff : Fdfile}

theorem allocated_of_dt_ff (isFf : fdp.dt_ff fd = some ff) : fdp.allocated fd = ff.ff_allocated := by
  simp [allocated, isFf]

theorem allocated_update (fdp : Filedesc) (fd : Nat) (ff : Fdfile) (m : Nat) :
    allocated { fdp with dt_ff := update fdp.dt_ff fd (some ff) } m =
      if m = fd then ff.ff_allocated else fdp.allocated m := by
  by_cases same : m = fd
  · subst same
    simp [allocated]
  · simp [allocated, same]

theorem HighMap.set {lomap himap : Nat → UInt32} (high : HighMap lomap himap)
    (notUsed : mapBit lomap fd = false) :
    mapBit himap (fd / 32) = false ∧ HighMap (setBit lomap fd)
      (if setBit lomap fd (fd / 32) = 0xffffffff then setBit himap (fd / 32) else himap) := by
  have notFull : lomap (fd / 32) ≠ 0xffffffff := by
    intro full
    have isSet := word_full_iff.mp full (fd % 32) (Nat.mod_lt _ (by omega))
    rw [show fd / 32 * 32 + fd % 32 = fd by omega, notUsed] at isSet
    cases isSet
  have highClear : mapBit himap (fd / 32) = false := by
    rw [Bool.eq_false_iff]
    exact fun isSet => notFull ((high _).mp isSet)
  refine ⟨highClear, fun word => ?_⟩
  by_cases same : word = fd / 32
  · subst same
    split
    · simp [mapBit_setBit, *]
    · rename_i stillNotFull
      exact iff_of_false (by simp [highClear]) stillNotFull
  · rw [setBit_of_ne same, ← high word]
    split
    · simp [mapBit_setBit, same]
    · rfl

/-- A table with one more descriptor in use. -/
structure Uses (fdp after : Filedesc) (fd : Nat) : Prop where
  consistent : Consistent after
  isused : ∀ m, after.isused m = (fdp.isused m || decide (m = fd))
  freefile : after.fd_freefile = fdp.fd_freefile
  nfiles : after.dt_nfiles = fdp.dt_nfiles
  dt_ff : after.dt_ff = update fdp.dt_ff fd (some ⟨true, none⟩)

/-- Marking a fresh descriptor puts it in use and changes nothing else. -/
theorem fdUsed_spec (good : Consistent fdp) (isFf : fdp.dt_ff fd = some .fresh)
    (lt : fd < fdp.dt_nfiles) : ∃ s', fdUsed fdp fd = some s' ∧ Uses fdp s' fd := by
  have notUsed : mapBit fdp.fd_lomap fd = false := by
    have := good.lomap fd
    rwa [allocated_of_dt_ff isFf] at this
  obtain ⟨highClear, high⟩ := good.himap.set notUsed
  have isused : ∀ m, mapBit (setBit fdp.fd_lomap fd) m = (fdp.isused m || decide (m = fd)) :=
    fun m => mapBit_setBit
  generalize hi : (if setBit fdp.fd_lomap fd (fd / 32) = 0xffffffff then
    setBit fdp.fd_himap (fd / 32) else fdp.fd_himap) = himap at high
  have uses : Uses fdp ⟨fdp.dt_nfiles, update fdp.dt_ff fd (some ⟨true, none⟩),
      setBit fdp.fd_lomap fd, himap, fdp.fd_freefile,
      if (fd : Int) > fdp.fd_lastfile then fd else fdp.fd_lastfile⟩ fd := by
    refine ⟨⟨good.size, ?_, ?_, ?_, ?_, high, ?_⟩, isused, rfl, rfl, rfl⟩
    · intro m sml
      by_cases same : m = fd
      · simp [same]
      · simpa [same] using good.builtin m sml
    · intro m
      have := good.lomap m
      simp only [Filedesc.isused, isused]
      by_cases same : m = fd
      · subst same
        simp [allocated]
      · simpa [allocated, Filedesc.isused, same] using this
    · intro m other oth hf
      by_cases same : m = fd
      · subst same
        simp only [update_self, Option.some.injEq] at oth
        simp [← oth] at hf
      · simp only [update_of_ne same] at oth
        exact good.file m other oth hf
    · intro m used
      simp only [Filedesc.isused, isused, Bool.or_eq_true, decide_eq_true_eq] at used
      rcases used with prev | rfl
      · exact good.inside m prev
      · exact lt
    · obtain ⟨low, highest, last⟩ := good.lastfile
      refine ⟨by simp only; split <;> omega, fun m used => ?_, fun nonneg => ?_⟩
      · simp only [Filedesc.isused, isused, Bool.or_eq_true, decide_eq_true_eq] at used
        rcases used with prev | rfl
        · have := highest m prev
          simp only
          split <;> omega
        · simp only
          split <;> omega
      simp only [Filedesc.isused, isused]
      split
      · simp
      · rename_i notLater
        simp only [notLater] at nonneg
        rw [show mapBit fdp.fd_lomap fdp.fd_lastfile.toNat = true from last nonneg]
        simp
  refine ⟨_, ?_, uses⟩
  unfold fdUsed
  rw [isFf]
  simp only [Fdfile.fresh, notUsed, Bool.false_eq_true, ne_eq, not_true_eq_false, or_self,
    ↓reduceIte, highClear, ← hi]
  split <;> rfl

/-- A table with one descriptor less in use. -/
structure Frees (fdp after : Filedesc) (fd : Nat) : Prop where
  consistent : Consistent after
  isused : ∀ m, after.isused m = (fdp.isused m && !decide (m = fd))
  freefile : after.fd_freefile = min fd fdp.fd_freefile
  nfiles : after.dt_nfiles = fdp.dt_nfiles
  dt_ff : after.dt_ff = update fdp.dt_ff fd (some .fresh)

/-- Giving a descriptor back clears its bits and lowers the hint. -/
theorem fdUnused_spec (good : Consistent fdp) (isFf : fdp.dt_ff fd = some ⟨true, none⟩) :
    ∃ s', fdUnused fdp fd = some s' ∧ Frees fdp s' fd := by
  have hu : mapBit fdp.fd_lomap fd = true := by
    have := good.lomap fd
    rwa [allocated_of_dt_ff isFf] at this
  obtain ⟨low, highest, lst⟩ := good.lastfile
  have sml := highest fd hu
  have isused : ∀ m, mapBit (clearBit fdp.fd_lomap fd) m = (fdp.isused m && !decide (m = fd)) :=
    fun m => mapBit_clearBit
  have notFullAfter : clearBit fdp.fd_lomap fd (fd / 32) ≠ 0xffffffff := by
    intro full
    have isSet := word_full_iff.mp full (fd % 32) (Nat.mod_lt _ (by omega))
    rw [show fd / 32 * 32 + fd % 32 = fd by omega, isused] at isSet
    simp at isSet
  generalize hi : (if fdp.fd_lomap (fd / 32) = 0xffffffff then clearBit fdp.fd_himap (fd / 32)
    else fdp.fd_himap) = himap
  have high : ∀ word, mapBit himap word = true ↔ clearBit fdp.fd_lomap fd word = 0xffffffff := by
    intro word
    by_cases same : word = fd / 32
    · subst same
      refine iff_of_false ?_ notFullAfter
      rw [← hi]
      split
      · simp [mapBit_clearBit]
      · rename_i notFull
        exact fun isSet => notFull ((good.himap _).mp isSet)
    · rw [clearBit_of_ne same, ← good.himap word, ← hi]
      split
      · simp [mapBit_clearBit, same]
      · rfl
  have lomap : ∀ m, mapBit (clearBit fdp.fd_lomap fd) m = allocated
      { fdp with dt_ff := update fdp.dt_ff fd (some .fresh) } m := by
    intro m
    rw [isused, allocated_update, good.lomap]
    by_cases same : m = fd
    · simp [same, Fdfile.fresh]
    · simp [same]
  have frees : ∀ last, IsLast ⟨fdp.dt_nfiles, update fdp.dt_ff fd (some .fresh),
      clearBit fdp.fd_lomap fd, himap, min fd fdp.fd_freefile, last⟩ last →
      Frees fdp ⟨fdp.dt_nfiles, update fdp.dt_ff fd (some .fresh),
        clearBit fdp.fd_lomap fd, himap, min fd fdp.fd_freefile, last⟩ fd := by
    intro last lastRight
    refine ⟨⟨good.size, ?_, lomap, ?_, ?_, high, lastRight⟩, isused, rfl, rfl, rfl⟩
    · intro m sml
      by_cases same : m = fd
      · simp [same]
      · simpa [same] using good.builtin m sml
    · intro m other oth hf
      by_cases same : m = fd
      · subst same
        simp only [update_self, Option.some.injEq] at oth
        simp [← oth, Fdfile.fresh] at hf
      · simp only [update_of_ne same] at oth
        exact good.file m other oth hf
    · intro m used
      simp only [Filedesc.isused, isused, Bool.and_eq_true] at used
      exact good.inside m used.1
  have free : (if fd < fdp.fd_freefile then fd else fdp.fd_freefile) = min fd fdp.fd_freefile := by
    split <;> omega
  have asserted : ¬ (False ∨ False ∨ mapBit fdp.fd_lomap fd = false ∨
      (0 ≤ fdp.fd_lastfile ∧ (fd : Int) > fdp.fd_lastfile) ∨
      (fdp.fd_lomap (fd / 32) = 0xffffffff ∧ mapBit fdp.fd_himap (fd / 32) = false)) := by
    rintro (absurd | absurd | notUsed | ⟨_, later⟩ | ⟨full, clr⟩)
    · exact absurd
    · exact absurd
    · rw [hu] at notUsed
      cases notUsed
    · omega
    · rw [(good.himap _).mpr full] at clr
      cases clr
  unfold fdUnused
  rw [isFf]
  simp only [ne_eq, not_true_eq_false, Bool.true_eq_false, asserted, ↓reduceIte, hi, free]
  split
  · rename_i isLastFd
    refine ⟨_, rfl, frees _ (fdLastSet_spec ⟨fdp.dt_nfiles, _, _, himap, _, fdp.fd_lastfile⟩ lomap
      fun m used => ?_)⟩
    simp only [Filedesc.isused, isused, Bool.and_eq_true, Bool.not_eq_true',
      decide_eq_false_iff_not] at used
    have := highest m used.1
    omega
  refine ⟨_, rfl, frees _ ⟨low, fun m used => ?_, fun nonneg => ?_⟩⟩
  · simp only [Filedesc.isused, isused, Bool.and_eq_true] at used
    exact highest m used.1
  · simp only [Filedesc.isused, isused]
    have diff : fdp.fd_lastfile.toNat ≠ fd := by omega
    rw [show mapBit fdp.fd_lomap fdp.fd_lastfile.toNat = true from lst nonneg]
    simp [diff]

end Change

section Calls

variable {careful : Prop} {fdp : Filedesc} {fd : Nat}

/-- A table that is consistent and whose `fd_freefile` is right. -/
structure Good (fdp : Filedesc) : Prop where
  consistent : Consistent fdp
  right : FreefileRight fdp

/-- A consistent table, whose `fd_freefile` is right if the copies before were careful. -/
structure Settled (careful : Prop) (fdp : Filedesc) : Prop where
  consistent : Consistent fdp
  right : careful → FreefileRight fdp

theorem Uses.settled {s' : Filedesc} (uses : Uses fdp s' fd)
    (right : careful → FreefileRight fdp) : Settled careful s' := by
  refine ⟨uses.consistent, fun isCareful m sml => ?_⟩
  rw [uses.freefile] at sml
  rw [uses.isused, right isCareful m sml]
  rfl

theorem Frees.settled {s' : Filedesc} (frees : Frees fdp s' fd)
    (right : careful → FreefileRight fdp) : Settled careful s' := by
  refine ⟨frees.consistent, fun isCareful m sml => ?_⟩
  rw [frees.freefile] at sml
  have diff : m ≠ fd := by omega
  rw [frees.isused, right isCareful m (by omega)]
  simp [diff]

theorem Consistent.setFile (good : Consistent fdp) {old new : Fdfile}
    (isOld : fdp.dt_ff fd = some old) (same : new.ff_allocated = old.ff_allocated)
    (file : new.ff_file ≠ none → new.ff_allocated = true) :
    Consistent { fdp with dt_ff := update fdp.dt_ff fd (some new) } := by
  refine ⟨good.size, fun m sml => ?_, fun m => ?_, fun m ff isFf hasFile => ?_,
    good.inside, good.himap, good.lastfile⟩
  · by_cases isFd : m = fd
    · simp [isFd]
    · simpa [isFd] using good.builtin m sml
  · rw [allocated_update]
    refine (good.lomap m).trans ?_
    split
    · rename_i isFd
      rw [isFd, allocated_of_dt_ff isOld, same]
    · rfl
  · by_cases isFd : m = fd
    · subst isFd
      simp only [update_self, Option.some.injEq] at isFf
      subst isFf
      exact file hasFile
    · simp only [update_of_ne isFd] at isFf
      exact good.file m ff isFf hasFile

theorem provide_used (good : Consistent fdp) (notUsed : fdp.isused fd = false)
    (lt : fd < fdp.dt_nfiles) :
    ∃ provided s', fdp.provide fd = some provided ∧ fdUsed provided fd = some s' ∧
      Uses fdp s' fd := by
  cases isFf : fdp.dt_ff fd with
  | none =>
    have large : ndfdfile ≤ fd := by
      by_contra sml
      exact good.builtin fd (by omega) isFf
    have provided : Consistent
        { fdp with dt_ff := update fdp.dt_ff fd (some .fresh) } := by
      refine ⟨good.size, fun m sml => ?_, fun m => ?_, fun m ff isSome hf => ?_,
        good.inside, good.himap, good.lastfile⟩
      · have isFd : m ≠ fd := by omega
        simpa [isFd] using good.builtin m sml
      · rw [allocated_update]
        split
        · rename_i isFd
          rw [isFd]
          exact notUsed
        · exact good.lomap m
      · by_cases isFd : m = fd
        · subst isFd
          simp only [update_self, Option.some.injEq] at isSome
          simp [← isSome, Fdfile.fresh] at hf
        · simp only [update_of_ne isFd] at isSome
          exact good.file m ff isSome hf
    obtain ⟨s', used, uses⟩ := fdUsed_spec provided (by simp) lt
    refine ⟨_, s', by simp [provide, isFf, large], used, uses.consistent,
      uses.isused, uses.freefile, uses.nfiles, ?_⟩
    rw [uses.dt_ff, update_idem]
  | some ff =>
    have isFresh : ff = .fresh := by
      have notAllocated : ff.ff_allocated = false := by
        rw [← allocated_of_dt_ff isFf, ← good.lomap, notUsed]
      have noFile : ff.ff_file = none := by
        by_contra hf
        rw [good.file fd ff isFf hf] at notAllocated
        cases notAllocated
      cases ff
      simp_all [Fdfile.fresh]
    subst isFresh
    obtain ⟨s', used, uses⟩ := fdUsed_spec good isFf lt
    exact ⟨fdp, s', by simp [provide, isFf], used, uses⟩

/-- What `fd_alloc` does: the least number not in use, or none when there is none. -/
def Allocates (fdp : Filedesc) (want lim : Nat) (after : Filedesc) : Except Errno Nat → Prop
  | .ok i => LeastClear fdp.isused want (min fdp.dt_nfiles lim) (some i) ∧
      ∀ m, after.isused m = (fdp.isused m || decide (m = i))
  | .error error => LeastClear fdp.isused want (min fdp.dt_nfiles lim) none ∧ after = fdp ∧
      error = if fdp.dt_nfiles ≥ lim then .EMFILE else .ENOSPC

/-- `fd_alloc` answers the least free descriptor from `want` on. -/
theorem fdAlloc_spec (done : Settled careful fdp) (want lim : Nat) :
    ∃ s' res, fdAlloc fdp want lim = some (s', res) ∧ Settled careful s' ∧
      (careful → Allocates fdp want lim s' res) := by
  obtain ⟨fnd, loop, least, hint⟩ := allocLoop_spec done.consistent
    (min_le_left fdp.dt_nfiles lim)
    (show 1 ≤ ndloslots (min fdp.dt_nfiles lim) + 2 by omega)
    (show _ ≤ ndloslots (min fdp.dt_nfiles lim) + 2 + want / 32 by omega)
  have lowest (isCareful : careful) := least.extend (le_max_left _ _) fun m _ below =>
    done.right isCareful m (by omega)
  cases fnd with
  | none =>
    refine ⟨fdp, .error (if fdp.dt_nfiles ≥ lim then .EMFILE else .ENOSPC), ?_, done,
      fun isCareful => ⟨lowest isCareful, rfl, rfl⟩⟩
    simp [fdAlloc, loop]
  | some pair =>
    obtain ⟨i, later⟩ := pair
    obtain ⟨above, lt, free, _⟩ := least
    obtain ⟨provided, s', isProvided, used, uses⟩ :=
      provide_used done.consistent free (lt_of_lt_of_le lt (min_le_left _ _))
    refine ⟨_, .ok i, by simp [fdAlloc, loop, isProvided, used]; rfl, ?_,
      fun isCareful => ⟨lowest isCareful, fun m => ?_⟩⟩
    · have settled' := uses.settled done.right
      split
      · rename_i low
        refine ⟨{ settled'.consistent with }, fun isCareful m sml => ?_⟩
        rw [uses.freefile] at low
        have hu := uses.isused m
        by_cases isBelow : m < fdp.fd_freefile
        · rw [done.right isCareful m isBelow] at hu
          exact hu
        · rw [hint i later rfl low m (not_lt.mp isBelow) sml] at hu
          exact hu
      · exact settled'
    · rw [← uses.isused]
      split <;> rfl

theorem fdAffix_spec (done : Settled careful fdp) (isHalf : fdp.dt_ff fd = some ⟨true, none⟩)
    (file : File) :
    ∃ s', fdAffix fdp fd file = some s' ∧ Settled careful s' := by
  have used : fdp.isused fd = true := by
    rw [done.consistent.lomap, allocated_of_dt_ff isHalf]
  refine ⟨{ fdp with dt_ff := update fdp.dt_ff fd (some ⟨true, some file⟩) }, ?_, ?_,
    done.right⟩
  · simp [fdAffix, isHalf, used]
  · exact done.consistent.setFile isHalf rfl fun _ => rfl

theorem fdDetach_spec (done : Settled careful fdp) (fd : Nat) :
    Settled careful (fdDetach fdp fd) ∧ (fdDetach fdp fd).dt_ff fd =
      (fdp.dt_ff fd).map (fun ff => { ff with ff_file := none }) := by
  unfold fdDetach
  cases isFf : fdp.dt_ff fd with
  | none => exact ⟨done, isFf⟩
  | some ff => exact ⟨⟨done.consistent.setFile isFf rfl (by simp), done.right⟩, by simp⟩

theorem TableSize.expand {n : Nat} (size : TableSize n) :
    TableSize (if n < ndextent then ndextent else 2 * n) ∧
      n < (if n < ndextent then ndextent else 2 * n) := by
  have pos : ∀ k, 1 ≤ 2 ^ k := fun k => Nat.one_le_two_pow
  rcases size with rfl | ⟨k, rfl⟩
  · exact ⟨.inr ⟨0, rfl⟩, by decide⟩
  have := pos k
  have notSmall : ¬ ndextent * 2 ^ k < ndextent := by
    unfold ndextent
    omega
  rw [if_neg notSmall]
  refine ⟨.inr ⟨k + 1, ?_⟩, ?_⟩
  · unfold ndextent
    omega
  · unfold ndextent
    omega

/-- A grown table is settled, and larger. -/
theorem fdTryexpand_spec (done : Settled careful fdp) : Settled careful (fdTryexpand fdp) ∧
    fdp.dt_nfiles < (fdTryexpand fdp).dt_nfiles := by
  obtain ⟨size, larger⟩ := done.consistent.size.expand
  have isLow : (fun word => if word < ndloslots fdp.dt_nfiles then fdp.fd_lomap word else 0) =
      fdp.fd_lomap := by
    funext word
    split
    · rfl
    rename_i far
    refine (word_zero_iff.mpr fun i lt => ?_).symm
    rw [Bool.eq_false_iff]
    intro used
    have := done.consistent.inside _ used
    unfold ndloslots at far
    omega
  have hi : (fun word => if word < ndhislots fdp.dt_nfiles then fdp.fd_himap word else 0) =
      fdp.fd_himap := by
    funext word
    split
    · rfl
    rename_i far
    refine (word_zero_iff.mpr fun i lt => ?_).symm
    rw [Bool.eq_false_iff]
    intro isSet
    have used : fdp.isused ((word * 32 + i) * 32) = true :=
      done.consistent.isused_of_himap
        (by rwa [show (word * 32 + i) * 32 / 32 = word * 32 + i by omega])
    have := done.consistent.inside _ used
    unfold ndhislots ndloslots at far
    omega
  have expanded : Settled careful ⟨if fdp.dt_nfiles < ndextent then ndextent else 2 * fdp.dt_nfiles,
      fun i => if i < fdp.dt_nfiles then fdp.dt_ff i else none, fdp.fd_lomap, fdp.fd_himap,
      fdp.fd_freefile, fdp.fd_lastfile⟩ := by
    refine ⟨⟨size, fun m sml => ?_, fun m => ?_, fun m ff isFf => ?_, fun m used => ?_,
      done.consistent.himap, done.consistent.lastfile⟩, done.right⟩
    · have lt : m < fdp.dt_nfiles := by
        rcases done.consistent.size with hsz | ⟨k, hsz⟩
        · rw [hsz]
          unfold ndfdfile at sml
          unfold ndfile
          omega
        · have := Nat.one_le_two_pow (n := k)
          rw [hsz]
          unfold ndfdfile at sml
          unfold ndextent
          omega
      simpa [lt] using done.consistent.builtin m sml
    · have same := done.consistent.lomap m
      by_cases lt : m < fdp.dt_nfiles
      · simpa [Filedesc.isused, allocated, lt] using same
      · have notUsed : fdp.isused m = false := by
          rw [Bool.eq_false_iff]
          exact fun used => lt (done.consistent.inside m used)
        simpa [Filedesc.isused, allocated, lt] using notUsed
    · intro hf
      by_cases lt : m < fdp.dt_nfiles
      · simp only [lt] at isFf
        exact done.consistent.file m ff isFf hf
      · simp [lt] at isFf
    · exact lt_trans (done.consistent.inside m used) larger
  have hx : fdTryexpand fdp = ⟨if fdp.dt_nfiles < ndextent then ndextent
      else 2 * fdp.dt_nfiles, fun i => if i < fdp.dt_nfiles then fdp.dt_ff i else none,
      fdp.fd_lomap, fdp.fd_himap, fdp.fd_freefile, fdp.fd_lastfile⟩ := by
    unfold fdTryexpand
    simp only [isLow, hi, ite_self]
  rw [hx]
  exact ⟨expanded, larger⟩

theorem expandTo_spec (done : Settled careful fdp) (newfd : Nat) {fuel : Nat} (some_ : 1 ≤ fuel)
    (suff : newfd + 2 ≤ fuel + fdp.dt_nfiles) :
    ∃ s', expandTo newfd fuel fdp = some s' ∧ Settled careful s' ∧
      newfd < s'.dt_nfiles := by
  induction fuel generalizing fdp with
  | zero => omega
  | succ fuel ih =>
    unfold expandTo
    by_cases lt : newfd < fdp.dt_nfiles
    · exact ⟨fdp, by simp [lt], done, lt⟩
    · obtain ⟨settled', larger⟩ := fdTryexpand_spec done
      simp only [not_lt.mp lt]
      exact ih settled' (by omega) (by omega)

/-- `fd_dup2` leaves the table settled, whether it grew or not. -/
theorem fdDup2_spec (done : Settled careful fdp) (file : File) (newfd : Nat) :
    ∃ s', fdDup2 fdp file newfd = some s' ∧ Settled careful s' := by
  obtain ⟨wide, expanded, settled', lt⟩ := expandTo_spec done newfd
    (show 1 ≤ newfd + 2 by omega) (show newfd + 2 ≤ newfd + 2 + fdp.dt_nfiles by omega)
  have takes : ∀ table, Settled careful table → table.isused newfd = false →
      newfd < table.dt_nfiles → ∃ s', (table.provide newfd).bind (fun fdp =>
        (fdUsed fdp newfd).bind fun fdp => fdAffix fdp newfd file) = some s' ∧
          Settled careful s' := by
    intro table settledTable notUsed fits
    obtain ⟨provided, used, isProvided, hu, uses⟩ :=
      provide_used settledTable.consistent notUsed fits
    obtain ⟨s', affixed, settledAfter⟩ := fdAffix_spec (uses.settled settledTable.right)
      (show used.dt_ff newfd = some ⟨true, none⟩ by rw [uses.dt_ff, update_self]) file
    exact ⟨s', by simp [isProvided, hu, affixed], settledAfter⟩
  unfold fdDup2
  simp only [expanded, Option.bind_eq_bind, Option.bind_some]
  cases hu : wide.isused newfd with
  | false => simpa using takes wide settled' hu lt
  | true =>
    by_cases half : (wide.dt_ff newfd).bind Fdfile.ff_file = none
    · exact ⟨wide, by simp [half], settled'⟩
    have alloc := settled'.consistent.lomap newfd
    rw [hu] at alloc
    obtain ⟨ff, isFf⟩ : ∃ ff, wide.dt_ff newfd = some ff := by
      cases isFf : wide.dt_ff newfd with
      | none => simp [isFf] at half
      | some ff => exact ⟨ff, rfl⟩
    rw [allocated_of_dt_ff isFf] at alloc
    obtain ⟨detached, isDetached⟩ := fdDetach_spec settled' newfd
    obtain ⟨freed, fresh, frees⟩ := fdUnused_spec detached.consistent
      (show (fdDetach wide newfd).dt_ff newfd = some ⟨true, none⟩ by
        rw [isDetached, isFf, Option.map_some, ← alloc])
    have sameSize : freed.dt_nfiles = wide.dt_nfiles := by
      rw [frees.nfiles]
      unfold fdDetach
      split <;> rfl
    have notUsed : freed.isused newfd = false := by
      rw [frees.isused]
      simp
    simpa [half, fresh] using takes freed (frees.settled detached.right) notUsed (by omega)

end Calls

end NetBSD.Kern.Descrip
