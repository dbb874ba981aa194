import NetBSD.Kern.SysvSemRun

/-!
Owns the layout of the semaphores in `sem`. The sets are packed: their ranges are apart
and cover the array up to `semtot`. `sys_semget` appends a range, `IPC_RMID` closes the
gap that it leaves, and `semrealloc` packs the sets again in the order of their slots.
-/

namespace NetBSD.Kern.SysvSem

open Nat

/-- The sets are packed into the semaphores below a number. -/
structure Packed (sema : Nat → Semid) (semmni semtot : Nat) : Prop where
  slots : ∀ i, (sema i).alloc = true → i < semmni
  positive : ∀ i, (sema i).alloc = true → 0 < (sema i).sem_nsems
  inside : ∀ i, (sema i).alloc = true → (sema i)._sem_base + (sema i).sem_nsems ≤ semtot
  apart : ∀ i j, (sema i).alloc = true → (sema j).alloc = true → i ≠ j →
    (sema i)._sem_base + (sema i).sem_nsems ≤ (sema j)._sem_base ∨
      (sema j)._sem_base + (sema j).sem_nsems ≤ (sema i)._sem_base
  cover : ∀ k, k < semtot → ∃ i, (sema i).alloc = true ∧ (sema i)._sem_base ≤ k ∧
    k < (sema i)._sem_base + (sema i).sem_nsems

variable {sema : Nat → Semid}

theorem Packed.of_le {semmni more semtot : Nat} (packed : Packed sema semmni semtot)
    (le : semmni ≤ more) : Packed sema more semtot :=
  { packed with slots := fun i used => lt_of_lt_of_le (packed.slots i used) le }

/-- The number of semaphores of the sets in the first slots. -/
def sizes (sema : Nat → Semid) : Nat → Nat
  | 0 => 0
  | i + 1 => sizes sema i + if (sema i).alloc then (sema i).sem_nsems else 0

/-- A set stays, with its semaphores as they are. -/
structure Keeps (sema : Nat → Semid) (sem : Nat → Sem) (semaAfter : Nat → Semid)
    (semAfter : Nat → Sem) (i : Nat) : Prop where
  alloc : (semaAfter i).alloc = true
  seq : (semaAfter i).seq = (sema i).seq
  key : (semaAfter i).key = (sema i).key
  nsems : (semaAfter i).sem_nsems = (sema i).sem_nsems
  same : ∀ n, n < (sema i).sem_nsems →
    semAfter ((semaAfter i)._sem_base + n) = sem ((sema i)._sem_base + n)

section Sizes

variable {sema sema' : Nat → Semid}

theorem sizes_congr {n : Nat} (same : ∀ i, i < n → (sema' i).alloc = (sema i).alloc ∧
    ((sema i).alloc = true → (sema' i).sem_nsems = (sema i).sem_nsems)) :
    sizes sema' n = sizes sema n := by
  induction n with
  | zero => rfl
  | succ n ih =>
    obtain ⟨sameAlloc, sameSize⟩ := same n (lt_succ_self n)
    rw [sizes, sizes, ih fun i less => same i (lt_succ_of_lt less), sameAlloc]
    split
    · rename_i alloc
      rw [sameSize alloc]
    · rfl

theorem sizes_change {n ix : Nat} (less : ix < n) (free : (sema ix).alloc = false)
    (used : (sema' ix).alloc = true)
    (same : ∀ i, i ≠ ix → (sema' i).alloc = (sema i).alloc ∧
      ((sema i).alloc = true → (sema' i).sem_nsems = (sema i).sem_nsems)) :
    sizes sema' n = sizes sema n + (sema' ix).sem_nsems := by
  induction n with
  | zero => omega
  | succ n ih =>
    rw [sizes, sizes]
    by_cases here : ix = n
    · subst here
      rw [free, used, sizes_congr fun i below => same i (Nat.ne_of_lt below)]
      rfl
    obtain ⟨sameAlloc, sameSize⟩ := same n fun eq => here eq.symm
    rw [sameAlloc]
    split
    · rename_i alloc
      rw [sameSize alloc]
      omega
    · omega

theorem sizes_free {n m : Nat} (le : n ≤ m) (free : ∀ i, n ≤ i → i < m → (sema i).alloc = false) :
    sizes sema m = sizes sema n := by
  induction m with
  | zero =>
    obtain rfl : n = 0 := by omega
    rfl
  | succ m ih =>
    by_cases here : n = m + 1
    · rw [here]
    · rw [sizes, free m (by omega) (lt_succ_self m), if_neg (by decide), Nat.add_zero,
        ih (by omega) fun i low high => free i low (lt_succ_of_lt high)]

end Sizes

variable {i : Nat}

section Slots

theorem findSet_some {test : Nat → Bool} {fuel beg : Nat}
    (fnd : findSet test fuel beg = some i) : beg ≤ i ∧ i < beg + fuel ∧ test i = true := by
  induction fuel generalizing beg with
  | zero => cases fnd
  | succ fuel ih =>
    rw [findSet] at fnd
    split at fnd
    · rename_i pss
      obtain rfl := Option.some.inj fnd
      exact ⟨le_refl _, by omega, pss⟩
    · obtain ⟨low, high, pss⟩ := ih fnd
      exact ⟨by omega, by omega, pss⟩

theorem findSet_free {semmni : Nat}
    (fnd : findSet (fun semid => !(sema semid).alloc) semmni 0 = some i) :
    i < semmni ∧ (sema i).alloc = false := by
  obtain ⟨_, less, free⟩ := findSet_some fnd
  rw [Bool.not_eq_true'] at free
  exact ⟨by omega, free⟩

theorem le_lastSet {n : Nat} (less : i < n) (used : (sema i).alloc = true) :
    i ≤ lastSet sema n := by
  induction n with
  | zero => omega
  | succ n ih =>
    rw [lastSet]
    split
    · omega
    · rename_i free
      have oth : i ≠ n := fun eq => free (eq ▸ used)
      exact ih (by omega)

theorem lastSet_lt {n : Nat} (pos : 0 < n) : lastSet sema n < n := by
  induction n with
  | zero => omega
  | succ n ih =>
    rw [lastSet]
    split
    · omega
    · by_cases eq0 : n = 0
      · subst eq0
        exact Nat.zero_lt_one
      · have := ih (by omega)
        omega

end Slots

section Append

variable {st : State} {semid : Nat} {key : Int} {nsems : Nat}

/-- A new set takes the semaphores behind the last. -/
theorem Packed.addSet (packed : Packed st.sema st.semmni st.semtot)
    (less : semid < st.semmni) (free : (st.sema semid).alloc = false)
    (pos : 0 < nsems) :
    Packed (addSet st semid key nsems).sema st.semmni (st.semtot + nsems) := by
  have isNew : (SysvSem.addSet st semid key nsems).sema semid =
      ⟨true, ((st.sema semid).seq + 1) % 32768, key, nsems, st.semtot⟩ := if_pos rfl
  have isOld : ∀ i, i ≠ semid → (SysvSem.addSet st semid key nsems).sema i = st.sema i :=
    fun i oth => if_neg oth
  refine ⟨fun i used => ?_, fun i used => ?_, fun i used => ?_, fun i j usedI usedJ oth => ?_,
    fun k below => ?_⟩
  · by_cases new : i = semid
    · omega
    · rw [isOld i new] at used
      exact packed.slots i used
  · by_cases new : i = semid
    · rw [new, isNew]
      exact pos
    · rw [isOld i new] at used ⊢
      exact packed.positive i used
  · by_cases new : i = semid
    · rw [new, isNew]
    · rw [isOld i new] at used ⊢
      exact le_add_right_of_le (packed.inside i used)
  · by_cases newI : i = semid
    · have oldJ : j ≠ semid := fun eq => oth (newI.trans eq.symm)
      rw [isOld j oldJ] at usedJ ⊢
      rw [newI, isNew]
      exact .inr (packed.inside j usedJ)
    rw [isOld i newI] at usedI ⊢
    by_cases newJ : j = semid
    · rw [newJ, isNew]
      exact .inl (packed.inside i usedI)
    · rw [isOld j newJ] at usedJ ⊢
      exact packed.apart i j usedI usedJ oth
  · by_cases old : k < st.semtot
    · obtain ⟨i, used, low, high⟩ := packed.cover k old
      have oth : i ≠ semid := by
        rintro rfl
        rw [free] at used
        cases used
      exact ⟨i, by rw [isOld i oth]; exact ⟨used, low, high⟩⟩
    · refine ⟨semid, ?_⟩
      rw [isNew]
      exact ⟨rfl, by dsimp only; omega, by dsimp only; omega⟩

theorem Packed.keeps_addSet (packed : Packed st.sema st.semmni st.semtot)
    (free : (st.sema semid).alloc = false) (used : (st.sema i).alloc = true) :
    Keeps st.sema st.sem (SysvSem.addSet st semid key nsems).sema
      (SysvSem.addSet st semid key nsems).sem i := by
  have oth : i ≠ semid := by
    rintro rfl
    rw [free] at used
    cases used
  have isOld : (SysvSem.addSet st semid key nsems).sema i = st.sema i := if_neg oth
  refine ⟨by rw [isOld]; exact used, by rw [isOld], by rw [isOld], by rw [isOld], fun n less => ?_⟩
  have lt := packed.inside i used
  rw [isOld]
  exact if_neg (by omega)

end Append

section Remove

variable {st : State} {ix : Nat}

theorem sema_removeSet (packed : Packed st.sema st.semmni st.semtot)
    (used : ((removeSet st ix).sema i).alloc = true) :
    i ≠ ix ∧ (st.sema i).alloc = true ∧ (removeSet st ix).sema i = { st.sema i with
      _sem_base := if (st.sema i)._sem_base > (st.sema ix)._sem_base
        then (st.sema i)._sem_base - (st.sema ix).sem_nsems
        else (st.sema i)._sem_base } := by
  unfold removeSet at used ⊢
  dsimp only at used ⊢
  by_cases gone : i = ix
  · rw [if_pos gone] at used
    cases used
  rw [if_neg gone] at used ⊢
  have wasUsed : (st.sema i).alloc = true := by
    split at used
    · exact used
    · exact used
  refine ⟨gone, wasUsed, ?_⟩
  by_cases tail : (st.sema i)._sem_base > (st.sema ix)._sem_base
  · rw [if_pos tail, if_pos ⟨packed.slots i wasUsed, wasUsed, tail⟩]
  · rw [if_neg tail, if_neg fun all => tail all.2.2]

theorem alloc_removeSet (oth : i ≠ ix) (used : (st.sema i).alloc = true) :
    ((removeSet st ix).sema i).alloc = true := by
  unfold removeSet
  dsimp only
  rw [if_neg oth]
  split
  · exact used
  · exact used

/-- The sets behind a removed one move down and stay packed. -/
theorem Packed.removeSet (packed : Packed st.sema st.semmni st.semtot)
    (wasThere : (st.sema ix).alloc = true) :
    Packed (removeSet st ix).sema st.semmni (st.semtot - (st.sema ix).sem_nsems) := by
  have lt := packed.inside ix wasThere
  have pos := packed.positive ix wasThere
  refine ⟨fun i used => ?_, fun i used => ?_, fun i used => ?_, fun i j usedI usedJ oth => ?_,
    fun k below => ?_⟩
  · exact packed.slots i (sema_removeSet packed used).2.1
  · obtain ⟨_, wasUsed, aft⟩ := sema_removeSet packed used
    rw [aft]
    exact packed.positive i wasUsed
  · obtain ⟨oth, wasUsed, aft⟩ := sema_removeSet packed used
    rw [aft]
    have insideI := packed.inside i wasUsed
    have apart := packed.apart i ix wasUsed wasThere oth
    dsimp only
    split <;> omega
  · obtain ⟨otherI, wasI, isAfterI⟩ := sema_removeSet packed usedI
    obtain ⟨otherJ, wasJ, isAfterJ⟩ := sema_removeSet packed usedJ
    rw [isAfterI, isAfterJ]
    have apart := packed.apart i j wasI wasJ oth
    have apartI := packed.apart i ix wasI wasThere otherI
    have apartJ := packed.apart j ix wasJ wasThere otherJ
    dsimp only
    split <;> split <;> omega
  · -- the semaphore was behind the gap, or before it
    by_cases prev : k < (st.sema ix)._sem_base
    · obtain ⟨i, wasUsed, low, high⟩ := packed.cover k (by omega)
      have oth : i ≠ ix := by
        rintro rfl
        omega
      have used := alloc_removeSet oth wasUsed
      obtain ⟨_, _, aft⟩ := sema_removeSet packed used
      refine ⟨i, used, ?_⟩
      rw [aft]
      rw [if_neg (by omega)]
      exact ⟨low, high⟩
    obtain ⟨i, wasUsed, low, high⟩ := packed.cover (k + (st.sema ix).sem_nsems) (by omega)
    have oth : i ≠ ix := by
      rintro rfl
      omega
    have apart := packed.apart i ix wasUsed wasThere oth
    have used := alloc_removeSet oth wasUsed
    obtain ⟨_, _, aft⟩ := sema_removeSet packed used
    refine ⟨i, used, ?_⟩
    rw [aft]
    dsimp only
    rw [if_pos (by omega)]
    omega

theorem Packed.keeps_removeSet (packed : Packed st.sema st.semmni st.semtot)
    (wasThere : (st.sema ix).alloc = true) (wasUsed : (st.sema i).alloc = true)
    (oth : i ≠ ix) : Keeps st.sema st.sem (SysvSem.removeSet st ix).sema
      (SysvSem.removeSet st ix).sem i := by
  have used := alloc_removeSet oth wasUsed
  obtain ⟨_, _, aft⟩ := sema_removeSet packed used
  refine ⟨used, by rw [aft], by rw [aft], by rw [aft], fun n less => ?_⟩
  have lt := packed.inside i wasUsed
  have pos := packed.positive ix wasThere
  have apart := packed.apart i ix wasUsed wasThere oth
  rw [aft]
  show compact _ _ _ _ _ = _
  unfold compact
  dsimp only
  by_cases tail : (st.sema i)._sem_base > (st.sema ix)._sem_base
  · rw [if_pos tail, if_pos (by omega)]
    congr 1
    omega
  · rw [if_neg tail, if_neg (by omega)]

end Remove

section Copy

variable {old : State}

/-- The sets of the slots below `i` are copied. -/
structure Copied (old : State) (i : Nat) (sema : Nat → Semid) (sem : Nat → Sem) (j : Nat) :
    Prop where
  packed : Packed sema i j
  total : j = sizes old.sema i
  used : ∀ k, (sema k).alloc = true → (old.sema k).alloc = true
  keeps : ∀ k, k < i → (old.sema k).alloc = true → Keeps old.sema old.sem sema sem k

variable {sem : Nat → Sem}

theorem Copied.skip {j : Nat} (copy : Copied old i sema sem j)
    (free : (old.sema i).alloc = false) : Copied old (i + 1) sema sem j where
  packed := copy.packed.of_le (le_succ i)
  total := by
    rw [sizes, free, copy.total]
    rfl
  used := copy.used
  keeps := by
    intro k less hu
    have oth : k ≠ i := by
      rintro rfl
      rw [free] at hu
      cases hu
    exact copy.keeps k (by omega) hu

/-- One more set moved to the new arrays. -/
theorem Copied.next {j : Nat} (copy : Copied old i sema sem j)
    (used : (old.sema i).alloc = true) (pos : 0 < (old.sema i).sem_nsems) :
    Copied old (i + 1) (fun k => if k = i then { old.sema i with _sem_base := j } else sema k)
      (fun k => if j ≤ k ∧ k < j + (old.sema i).sem_nsems
        then old.sem ((old.sema i)._sem_base + (k - j)) else sem k)
      (j + (old.sema i).sem_nsems) := by
  have below := copy.packed.slots
  refine ⟨⟨fun k usedK => ?_, fun k usedK => ?_, fun k usedK => ?_, fun k l usedK usedL other => ?_,
    fun k less => ?_⟩, ?_, fun k usedK => ?_, fun k less usedK => ?_⟩
  · by_cases here : k = i
    · omega
    · rw [if_neg here] at usedK
      exact lt_succ_of_lt (below k usedK)
  · by_cases here : k = i
    · rw [if_pos here]
      exact pos
    · rw [if_neg here] at usedK ⊢
      exact copy.packed.positive k usedK
  · by_cases here : k = i
    · rw [if_pos here]
    · rw [if_neg here] at usedK ⊢
      exact le_add_right_of_le (copy.packed.inside k usedK)
  · by_cases hereK : k = i
    · have notL : l ≠ i := fun eq => other (hereK.trans eq.symm)
      rw [if_neg notL] at usedL ⊢
      rw [if_pos hereK]
      exact .inr (copy.packed.inside l usedL)
    rw [if_neg hereK] at usedK ⊢
    by_cases hereL : l = i
    · rw [if_pos hereL]
      exact .inl (copy.packed.inside k usedK)
    · rw [if_neg hereL] at usedL ⊢
      exact copy.packed.apart k l usedK usedL other
  · by_cases early : k < j
    · obtain ⟨l, usedL, low, high⟩ := copy.packed.cover k early
      have notHere : l ≠ i := Nat.ne_of_lt (below l usedL)
      exact ⟨l, by rw [if_neg notHere]; exact ⟨usedL, low, high⟩⟩
    · refine ⟨i, ?_⟩
      rw [if_pos rfl]
      exact ⟨used, by dsimp only; omega, less⟩
  · rw [sizes, used, copy.total]
    rfl
  · by_cases here : k = i
    · rw [here]
      exact used
    · rw [if_neg here] at usedK
      exact copy.used k usedK
  · by_cases here : k = i
    · subst here
      refine ⟨by rw [if_pos rfl]; exact used, by rw [if_pos rfl], by rw [if_pos rfl],
        by rw [if_pos rfl], fun n lt => ?_⟩
      rw [if_pos rfl]
      dsimp only
      rw [if_pos (by omega), Nat.add_sub_cancel_left]
    have keeps := copy.keeps k (by omega) usedK
    refine ⟨by rw [if_neg here]; exact keeps.alloc, by rw [if_neg here]; exact keeps.seq,
      by rw [if_neg here]; exact keeps.key, by rw [if_neg here]; exact keeps.nsems,
      fun n lt => ?_⟩
    have fits := copy.packed.inside k keeps.alloc
    rw [keeps.nsems] at fits
    rw [if_neg here, if_neg (by omega)]
    exact keeps.same n lt

theorem Copied.copySets (pos : ∀ i, (old.sema i).alloc = true → 0 < (old.sema i).sem_nsems)
    (fuel : Nat) {j : Nat} (copy : Copied old i sema sem j) :
    Copied old (i + fuel) (copySets old fuel i sema sem j).1 (copySets old fuel i sema sem j).2.1
      (copySets old fuel i sema sem j).2.2 := by
  induction fuel generalizing i j sema sem with
  | zero => exact copy
  | succ fuel ih =>
    rw [SysvSem.copySets]
    rw [← Nat.add_assoc, Nat.add_right_comm]
    split
    · rename_i free
      exact ih (copy.skip free)
    · rename_i notFree
      have used := Bool.of_not_eq_false notFree
      exact ih (copy.next used (pos i used))

theorem copied_zero : Copied old 0 (fun _ => ⟨false, 0, 0, 0, 0⟩) (fun _ => ⟨0, 0, 0, 0⟩) 0 where
  packed :=
    { slots := fun i hu => by cases hu
      positive := fun i hu => by cases hu
      inside := fun i hu => by cases hu
      apart := fun i j hu => by cases hu
      cover := fun k less => by cases less }
  total := rfl
  used := fun k hu => by cases hu
  keeps := fun k less => by cases less

end Copy

end NetBSD.Kern.SysvSem
