import Mathlib.Data.Finset.SDiff
import Mathlib.Order.Interval.Finset.Nat
import NetBSD.Msdosfs.FatChain

/-!
Owns `pm_inusemap` as a set of free clusters: what setting and clearing a bit does to the set and
its count, what the searches find, and the set that `fillinusemap` starts with.
-/

namespace NetBSD.Msdosfs

open List

section Bits

variable {map : BitVec 32} {inusemap : List (BitVec 32)} {idx cn : Nat}

theorem getLsbD_bit {i k : Nat} (lt : i < 32) : (1#32 <<< k).getLsbD i = decide (i = k) := by
  rw [BitVec.getLsbD_shiftLeft, decide_eq_true lt, Bool.true_and, BitVec.getLsbD_one,
    Bool.eq_iff_iff]
  simp only [Bool.and_eq_true, Bool.not_eq_true', decide_eq_false_iff_not, decide_eq_true_eq]
  omega

theorem getLsbD_below {i k : Nat} (lt : i < 32) :
    (BitVec.ofNat 32 (2 ^ k - 1)).getLsbD i = decide (i < k) := by
  rw [BitVec.getLsbD_ofNat, decide_eq_true lt, Bool.true_and, Nat.testBit_two_pow_sub_one]

theorem ffs_spec (ne0 : map ≠ 0) : ∃ i < 32, ffs map = i + 1 ∧ map.getLsbD i = true ∧
    ∀ j < i, map.getLsbD j = false := by
  unfold ffs
  cases isFirst : (List.range nInusebits).find? fun i => map.getLsbD i with
  | none =>
    refine absurd (BitVec.eq_of_getLsbD_eq fun i lt => ?_) ne0
    have clear := List.find?_eq_none.mp isFirst i (List.mem_range.mpr lt)
    rw [Bool.not_eq_true] at clear
    rw [clear]
    exact BitVec.getLsbD_zero.symm
  | some i =>
    have isSet := find?_some isFirst
    have lt := mem_range.mp (mem_of_find?_eq_some isFirst)
    refine ⟨i, lt, rfl, isSet, fun j below => ?_⟩
    obtain ⟨_, plc, _, isAt, prev⟩ := find?_eq_some_iff_getElem.mp isFirst
    rw [getElem_range] at isAt
    have clear := prev j (isAt ▸ below)
    rw [getElem_range, Bool.not_eq_true'] at clear
    exact clear

theorem mapWord_set (lt : idx < inusemap.length) (word : BitVec 32) (oth : Nat) :
    mapWord (inusemap.set idx word) oth = if oth = idx then word else mapWord inusemap oth := by
  unfold mapWord
  by_cases same : oth = idx
  · rw [if_pos same, same, getElem?_set_self lt, Option.getD_some]
  · rw [if_neg same, getElem?_set_ne (Ne.symm same)]

def inuse (inusemap : List (BitVec 32)) (cn : Nat) : Bool :=
  (mapWord inusemap (cn / nInusebits)).getLsbD (cn % nInusebits)

theorem inuse_clearBit (lt : cn / nInusebits < inusemap.length) (oth : Nat) :
    inuse (clearBit inusemap cn) oth = (inuse inusemap oth && !decide (oth = cn)) := by
  have isBit : oth % nInusebits < 32 := Nat.mod_lt oth (by decide)
  unfold inuse clearBit
  rw [mapWord_set lt]
  by_cases eqWord : oth / nInusebits = cn / nInusebits
  · rw [if_pos eqWord, ← eqWord, BitVec.getLsbD_and, BitVec.getLsbD_not, getLsbD_bit isBit,
      decide_eq_true isBit, Bool.true_and]
    congr 2
    rw [decide_eq_decide]
    have eqWord : oth / 32 = cn / 32 := eqWord
    show oth % 32 = cn % 32 ↔ oth = cn
    omega
  · rw [if_neg eqWord, decide_eq_false fun same => eqWord (congrArg (· / nInusebits) same),
      Bool.not_false, Bool.and_true]

def setBit (inusemap : List (BitVec 32)) (cn : Nat) : List (BitVec 32) :=
  inusemap.set (cn / nInusebits) (mapWord inusemap (cn / nInusebits) ||| 1#32 <<< (cn % nInusebits))

theorem inuse_setBit (lt : cn / nInusebits < inusemap.length) (oth : Nat) :
    inuse (setBit inusemap cn) oth = (inuse inusemap oth || decide (oth = cn)) := by
  have isBit : oth % nInusebits < 32 := Nat.mod_lt oth (by decide)
  unfold inuse setBit
  rw [mapWord_set lt]
  by_cases eqWord : oth / nInusebits = cn / nInusebits
  · rw [if_pos eqWord, ← eqWord, BitVec.getLsbD_or, getLsbD_bit isBit]
    congr 1
    rw [decide_eq_decide]
    have eqWord : oth / 32 = cn / 32 := eqWord
    show oth % 32 = cn % 32 ↔ oth = cn
    omega
  · rw [if_neg eqWord, decide_eq_false fun same => eqWord (congrArg (· / nInusebits) same),
      Bool.or_false]

end Bits

section Free

variable {geo : Geometry} {inusemap : List (BitVec 32)} {count cn : Nat} {free : Finset Nat}

/-- The map and its count say which clusters are free. -/
structure Usemap (geo : Geometry) (inusemap : List (BitVec 32)) (count : Nat) (free : Finset Nat) : Prop where
  length : inusemap.length = geo.maxcluster / nInusebits + 1
  clear : ∀ cn, inuse inusemap cn = false ↔ cn ∈ free
  inside : ∀ cn ∈ free, clustFirst ≤ cn ∧ cn ≤ geo.maxcluster
  count : count = free.card

theorem Volume.maxcluster_lt (vol : Volume geo) : geo.maxcluster < 4294967286 := by
  have fits := vol.fits
  have le : geo.fatKind.clustRsrvd ≤ 0xfffffff6 := Nat.and_le_left
  omega

theorem Usemap.word_lt (um : Usemap geo inusemap count free) (inFat : cn ≤ geo.maxcluster) :
    cn / nInusebits < inusemap.length := by
  rw [um.length]
  exact Nat.lt_succ_of_le (Nat.div_le_div_right inFat)

theorem Usemap.count_le (um : Usemap geo inusemap count free) : count ≤ geo.maxcluster + 1 := by
  rw [um.count, ← Finset.card_range (geo.maxcluster + 1)]
  exact Finset.card_le_card fun cn hfr =>
    Finset.mem_range.mpr (Nat.lt_succ_of_le (um.inside cn hfr).2)

theorem Usemap.allocOne (vol : Volume geo) (um : Usemap geo inusemap count free) (hfr : cn ∈ free) :
    Usemap geo (setBit inusemap cn) ((count + (2 ^ 64 - 1)) % 2 ^ 64) (free.erase cn) where
  length := length_set.trans um.length
  clear other := by
    rw [inuse_setBit (um.word_lt (um.inside cn hfr).2), Bool.or_eq_false_iff,
      decide_eq_false_iff_not, um.clear, Finset.mem_erase]
    exact And.comm
  inside other isLeft := um.inside other (Finset.mem_of_mem_erase isLeft)
  count := by
    have pos := Finset.card_pos.mpr ⟨cn, hfr⟩
    have sml := vol.maxcluster_lt
    have le := um.count_le
    rw [Finset.card_erase_of_mem hfr, ← um.count]
    rw [← um.count] at pos
    omega

theorem Usemap.freeOne (vol : Volume geo) (um : Usemap geo inusemap count free) (used : cn ∉ free)
    (fst : clustFirst ≤ cn) (inFat : cn ≤ geo.maxcluster) :
    Usemap geo (clearBit inusemap cn) ((count + 1) % 2 ^ 64) (insert cn free) where
  length := length_set.trans um.length
  clear other := by
    rw [inuse_clearBit (um.word_lt inFat), Finset.mem_insert, ← um.clear, Bool.and_eq_false_iff,
      Bool.not_eq_false', decide_eq_true_eq]
    exact or_comm
  inside other isIn := by
    rcases Finset.mem_insert.mp isIn with rfl | isOld
    · exact ⟨fst, inFat⟩
    · exact um.inside other isOld
  count := by
    have sml := vol.maxcluster_lt
    have le := um.count_le
    rw [Finset.card_insert_of_notMem used, ← um.count]
    omega

theorem Usemap.allocs (vol : Volume geo) {n : Nat} {pmp : Msdosfsmount}
    (um : Usemap geo pmp.inusemap pmp.freeclustercount free) (areFree : ∀ j < n, cn + j ∈ free) :
    Usemap geo (usemapAllocs n cn pmp).inusemap (usemapAllocs n cn pmp).freeclustercount
      (free \ Finset.Ico cn (cn + n)) ∧ (usemapAllocs n cn pmp).dev = pmp.dev := by
  induction n generalizing cn pmp free with
  | zero =>
    rw [add_zero, Finset.Ico_self, Finset.sdiff_empty]
    exact ⟨um, rfl⟩
  | succ n ih =>
    have hfr : cn ∈ free := areFree 0 (Nat.succ_pos n)
    have set := um.allocOne vol hfr
    have left : ∀ j < n, cn + 1 + j ∈ free.erase cn := fun j below =>
      Finset.mem_erase.mpr ⟨by omega, by
        have isIn := areFree (j + 1) (Nat.succ_lt_succ below)
        rwa [add_right_comm, add_assoc]⟩
    obtain ⟨tl, sameDev⟩ := @ih (cn + 1) _ (pmp.usemapAlloc cn) set left
    have eqSet : free.erase cn \ Finset.Ico (cn + 1) (cn + 1 + n) =
        free \ Finset.Ico cn (cn + (n + 1)) := by
      ext oth
      simp only [Finset.mem_sdiff, Finset.mem_erase, Finset.mem_Ico]
      by_cases isIn : oth ∈ free
      · simp only [isIn, and_true, true_and]
        omega
      · simp only [isIn, and_false, false_and]
    rw [eqSet] at tl
    exact ⟨tl, sameDev⟩

theorem Usemap.frees (vol : Volume geo) {cs : List Nat} (um : Usemap geo inusemap count free)
    (nodup : cs.Nodup) (areUsed : ∀ cn ∈ cs, cn ∉ free)
    (lt : ∀ cn ∈ cs, clustFirst ≤ cn ∧ cn ≤ geo.maxcluster) :
    Usemap geo (cs.foldl clearBit inusemap) (cs.foldl (fun count _ => (count + 1) % 2 ^ 64) count)
      (free ∪ cs.toFinset) := by
  induction cs generalizing inusemap count free with
  | nil =>
    rw [toFinset_nil, Finset.union_empty]
    exact um
  | cons cn tl ih =>
    obtain ⟨notIn, nodup⟩ := nodup_cons.mp nodup
    obtain ⟨fst, inFat⟩ := lt cn mem_cons_self
    have stillUsed (oth : Nat) (late : oth ∈ tl) : oth ∉ insert cn free := fun isIn => by
      rcases Finset.mem_insert.mp isIn with rfl | hfr
      · exact notIn late
      · exact areUsed oth (mem_cons_of_mem _ late) hfr
    have next := ih (um.freeOne vol (areUsed cn mem_cons_self) fst inFat)
      nodup stillUsed (forall_mem_cons.mp lt).2
    rw [Finset.insert_union, ← Finset.union_insert, ← toFinset_cons] at next
    exact next

end Free

section Search

variable {geo : Geometry} {inusemap : List (BitVec 32)} {count start : Nat}

theorem inuse_add {i : Nat} (start : Nat) (lt : start % nInusebits + i < nInusebits) :
    inuse inusemap (start + i) =
      (mapWord inusemap (start / nInusebits)).getLsbD (start % nInusebits + i) := by
  have lt : start % 32 + i < 32 := lt
  unfold inuse
  have isWord : (start + i) / nInusebits = start / nInusebits := by
    show (start + i) / 32 = start / 32
    omega
  have isBit : (start + i) % nInusebits = start % nInusebits + i := by
    show (start + i) % 32 = start % 32 + i
    omega
  rw [isWord, isBit]

/-- All clusters that the loop counts are free. -/
theorem chainlengthLoop_free {words idx len : Nat} (isAt : start + len = idx * nInusebits)
    (areFree : ∀ j < len, inuse inusemap (start + j) = false) :
    ∀ j < chainlengthLoop inusemap count words idx len, inuse inusemap (start + j) = false := by
  induction words generalizing idx len with
  | zero => exact areFree
  | succ words ih =>
    rw [chainlengthLoop]
    have isAt : start + len = idx * 32 := isAt
    have inWord (i : Nat) (lt : i < 32) :
        inuse inusemap (start + (len + i)) = (mapWord inusemap idx).getLsbD i := by
      have isWord : (start + len) / nInusebits = idx := by
        show (start + len) / 32 = idx
        omega
      have isBit : (start + len) % nInusebits = 0 := by
        show (start + len) % 32 = 0
        omega
      have read := @inuse_add inusemap i (start + len) (by rw [isBit, zero_add]; exact lt)
      rwa [isWord, isBit, zero_add, add_assoc] at read
    by_cases suff : len ≥ count
    · rw [if_pos suff]
      exact areFree
    rw [if_neg suff]
    by_cases ne0 : mapWord inusemap idx ≠ 0
    · rw [if_pos ne0]
      obtain ⟨i, lt, isFfs, _, prev⟩ := ffs_spec ne0
      intro j below
      by_cases isOld : j < len
      · exact areFree j isOld
      · have hfr := (inWord (j - len) (by omega)).trans (prev (j - len) (by omega))
        rwa [Nat.add_sub_of_le (Nat.le_of_not_lt isOld)] at hfr
    rw [if_neg ne0]
    refine ih (show start + (len + 32) = (idx + 1) * 32 by omega) fun j below => ?_
    have below : j < len + 32 := below
    by_cases isOld : j < len
    · exact areFree j isOld
    · have hfr := inWord (j - len) (by omega)
      rw [not_not.mp ne0, Nat.add_sub_of_le (Nat.le_of_not_lt isOld)] at hfr
      exact hfr.trans BitVec.getLsbD_zero

theorem chainlength_free : ∀ j < chainlength geo inusemap start count, inuse inusemap (start + j) = false := by
  have masked (i : Nat) (lt : start % 32 + i < 32) : (mapWord inusemap (start / nInusebits) &&&
        ~~~(BitVec.ofNat 32 (2 ^ (start % nInusebits) - 1))).getLsbD (start % 32 + i) =
        inuse inusemap (start + i) := by
    rw [inuse_add start lt, BitVec.getLsbD_and, BitVec.getLsbD_not, getLsbD_below lt,
      decide_eq_true lt, Bool.true_and,
      decide_eq_false (show ¬ start % 32 + i < start % nInusebits from Nat.not_lt.mpr (Nat.le_add_right _ _)),
      Bool.not_false, Bool.and_true]
    rfl
  unfold chainlength
  by_cases ne0 : mapWord inusemap (start / nInusebits) &&&
      ~~~(BitVec.ofNat 32 (2 ^ (start % nInusebits) - 1)) ≠ 0
  · rw [if_pos ne0]
    obtain ⟨i, lt, isFfs, _, prev⟩ := ffs_spec ne0
    rw [isFfs]
    intro j below
    have below : j < i - start % 32 := lt_of_lt_of_le below (min_le_left _ _)
    rw [← masked j (by omega)]
    exact prev _ (by omega)
  rw [if_neg ne0]
  have areFree : ∀ j < 32 - start % 32, inuse inusemap (start + j) = false := by
    intro j below
    rw [← masked j (by omega), not_not.mp ne0]
    exact BitVec.getLsbD_zero
  by_cases suff : nInusebits - start % nInusebits ≥ count
  · rw [if_pos suff]
    exact fun j below => areFree j (lt_of_lt_of_le below suff)
  · rw [if_neg suff]
    intro j below
    refine chainlengthLoop_free ?_ areFree j (lt_of_lt_of_le below (min_le_left _ _))
    show start + (32 - start % 32) = (start / 32 + 1) * 32
    omega

theorem chainlength_le : chainlength geo inusemap start count ≤ count := by
  unfold chainlength
  dsimp only
  split
  · exact min_le_right _ _
  · split
    · exact le_refl _
    · exact min_le_right _ _

/-- What a search says about the clusters it found. -/
structure Found.Fits (geo : Geometry) (inusemap : List (BitVec 32)) (count : Nat) (found : Found) :
    Prop where
  enough : ∀ cn, found = .enough cn → count ≤ chainlength geo inusemap cn count
  longest : ∀ foundcn foundl, found = .longest foundcn foundl →
    foundl ≤ chainlength geo inusemap foundcn count

theorem fits_enough {cn : Nat} (cnt : count ≤ chainlength geo inusemap cn count) :
    (Found.enough cn).Fits geo inusemap count where
  enough _ same := Found.enough.inj same ▸ cnt
  longest _ _ same := nomatch same

theorem fits_longest {foundcn foundl : Nat}
    (cnt : foundl ≤ chainlength geo inusemap foundcn count) :
    (Found.longest foundcn foundl).Fits geo inusemap count where
  enough _ same := nomatch same
  longest _ _ same := by
    obtain ⟨rfl, rfl⟩ := Found.longest.inj same
    exact cnt

theorem clusterallocLoop_fits {limit rnds cn foundcn foundl : Nat}
    (cnt : foundl ≤ chainlength geo inusemap foundcn count) :
    (clusterallocLoop geo inusemap count limit rnds cn foundcn foundl).Fits geo inusemap count := by
  induction rnds generalizing cn foundcn foundl with
  | zero => exact fits_longest cnt
  | succ rnds ih =>
    rw [clusterallocLoop]
    dsimp only
    split
    · split
      · split
        · exact fits_enough ‹_›
        · split
          · exact ih (le_refl _)
          · exact ih cnt
      · exact ih cnt
    · exact fits_longest cnt

theorem clusterallocSearch_fits {newst : Nat} :
    (clusterallocSearch geo inusemap count newst).Fits geo inusemap count := by
  have fst : (clusterallocLoop geo inusemap count (geo.maxcluster + 1) (geo.maxcluster + 1) newst
    0 0).Fits geo inusemap count := clusterallocLoop_fits (Nat.zero_le _)
  unfold clusterallocSearch
  cases isFirst : clusterallocLoop geo inusemap count (geo.maxcluster + 1) (geo.maxcluster + 1) newst
    0 0 with
  | enough cn => exact fits_enough (fst.enough cn isFirst)
  | longest foundcn foundl => exact clusterallocLoop_fits (fst.longest foundcn foundl isFirst)

end Search

/-!
### Runs of clusters

The allocation of a run of free clusters, and the map that `fillinusemap` makes of a FAT.
-/

section Allocate

variable {geo : Geometry} {pmp : Msdosfsmount} {free : Finset Nat} {usec start count : Nat}

/-- What the allocation of a run does: the clusters were free, they are linked, and their bits are
set. -/
structure Allocated (geo : Geometry) (pmp after : Msdosfsmount) (free : Finset Nat) (cn got : Nat) :
    Prop where
  pos : 0 < got
  areFree : ∀ j < got, cn + j ∈ free
  fat : after.fat geo = linkRun geo.fatKind clustEofe got cn (pmp.fat geo)
  mirrored : Mirrored geo pmp.dev → Mirrored geo after.dev
  usemap : Usemap geo after.inusemap after.freeclustercount (free \ Finset.Ico cn (cn + got))

theorem chainalloc_allocated (vol : Volume geo)
    (um : Usemap geo pmp.inusemap pmp.freeclustercount free) {cn got : Nat} (pos : 0 < got)
    (areFree : ∀ j < got, inuse pmp.inusemap (cn + j) = false) :
    ∃ s', chainalloc geo pmp cn got clustEofe = (.ok (cn, got), s') ∧
      Allocated geo pmp s' free cn got := by
  have areFree (j : Nat) (below : j < got) : cn + j ∈ free := (um.clear _).mp (areFree j below)
  obtain ⟨set, sameDev⟩ := um.allocs vol areFree
  have fst := (um.inside _ (areFree 0 pos)).1
  have inFat := (um.inside _ (areFree (got - 1) (by omega))).2
  obtain ⟨s', isLinked, wrote⟩ := @fatchain_written geo clustEofe vol got cn
    (usemapAllocs got cn pmp) fst (by omega)
  unfold chainalloc
  dsimp only
  rw [isLinked]
  refine ⟨s', rfl, pos, areFree, ?_, ?_, ?_⟩
  · rw [wrote.fat]
    unfold Msdosfsmount.fat
    rw [sameDev]
  · intro mirrored
    exact wrote.mirrored (by rw [sameDev]; exact mirrored)
  · rw [wrote.inusemap, wrote.freeclustercount]
    exact set

/-- An allocation finds free clusters in a row or none at all. -/
theorem clusteralloc_spec (vol : Volume geo)
    (um : Usemap geo pmp.inusemap pmp.freeclustercount free) (pos : 0 < count)
    {res : Except FatError (Nat × Nat)} {s' : Msdosfsmount}
    (isRes : clusteralloc geo usec pmp start count = (res, s')) :
    (res = .error .enospc ∧ s' = pmp) ∨
      ∃ cn got, res = .ok (cn, got) ∧ got ≤ count ∧ Allocated geo pmp s' free cn got := by
  have isRun {cn got : Nat} (isPos : 0 < got) (le : got ≤ count)
      (cnt : got ≤ chainlength geo pmp.inusemap cn count)
      (cl : chainalloc geo pmp cn got clustEofe = (res, s')) :
      ∃ cn got, res = .ok (cn, got) ∧ got ≤ count ∧ Allocated geo pmp s' free cn got := by
    obtain ⟨oth, isAlloc, alloc⟩ := chainalloc_allocated vol um isPos
      fun j below => chainlength_free j (lt_of_lt_of_le below cnt)
    obtain ⟨rfl, rfl⟩ := Prod.mk.inj (cl.symm.trans isAlloc)
    exact ⟨cn, got, rfl, le, alloc⟩
  unfold clusteralloc at isRes
  dsimp only at isRes
  by_cases isNear : start ≠ 0 ∧ (if start ≠ 0 then chainlength geo pmp.inusemap start count else 0) ≥ count
  · rw [if_pos isNear] at isRes
    obtain ⟨notNew, suff⟩ := isNear
    rw [if_pos notNew] at suff
    exact .inr (isRun pos (le_refl _) suff isRes)
  rw [if_neg isNear] at isRes
  have fits := @clusterallocSearch_fits geo pmp.inusemap count
  cases found : clusterallocSearch geo pmp.inusemap count
      (newst geo (if start ≠ 0 then start else usec >>> 10 ||| usec)) with
  | enough cn =>
    rw [found] at isRes
    exact .inr (isRun pos (le_refl _) (fits.enough cn found) isRes)
  | longest foundcn foundl =>
    have cnt := fits.longest foundcn foundl found
    rw [found] at isRes
    dsimp only at isRes
    by_cases hn : foundl = 0
    · rw [if_pos hn] at isRes
      obtain ⟨rfl, rfl⟩ := Prod.mk.inj isRes
      exact .inl ⟨rfl, rfl⟩
    rw [if_neg hn] at isRes
    by_cases hsome : (if start ≠ 0 then chainlength geo pmp.inusemap start count else 0) ≠ 0
    · have notNew : start ≠ 0 := fun isNew => hsome (if_neg (not_not.mpr isNew))
      rw [if_pos hsome, if_pos notNew] at isRes
      rw [if_pos notNew] at hsome
      exact .inr (isRun (pos_of_ne_zero hsome) chainlength_le (le_refl _) isRes)
    · rw [if_neg hsome] at isRes
      exact .inr (isRun (pos_of_ne_zero hn) (le_trans cnt chainlength_le) cnt isRes)

end Allocate

section Fill

variable {geo : Geometry} {pmp : Msdosfsmount}

def freeClusters (geo : Geometry) (fat : Nat → UInt8) : Finset Nat :=
  (Finset.Icc clustFirst geo.maxcluster).filter fun cn => geo.fatKind.entry fat cn = 0

theorem mem_freeClusters {fat : Nat → UInt8} {cn : Nat} : cn ∈ freeClusters geo fat ↔
    (clustFirst ≤ cn ∧ cn ≤ geo.maxcluster) ∧ geo.fatKind.entry fat cn = 0 := by
  unfold freeClusters
  rw [Finset.mem_filter, Finset.mem_Icc]

/-- The block that is held is the one of a cluster, unless the cluster starts another one. -/
def Reading (geo : Geometry) (dev : Nat → UInt8) (cn : Nat) (held : Option Buf) : Prop :=
  ∀ bp, held = some bp → geo.fatKind.fatofs cn % geo.fatblocksize ≠ 0 →
    bp = bread geo dev (geo.fatblock (geo.fatKind.fatofs cn)).1 (geo.fatblock (geo.fatKind.fatofs cn)).2.1

theorem reading_next (vol : Volume geo) {dev : Nat → UInt8} {cn : Nat}
    (inFat : cn ≤ geo.maxcluster) :
    Reading geo dev (cn + 1) (some (bread geo dev (geo.fatblock (geo.fatKind.fatofs cn)).1
      (geo.fatblock (geo.fatKind.fatofs cn)).2.1)) := by
  rintro bp ⟨⟩ notFirst
  have whole := inside_cluster vol inFat
  have le := min_le_left geo.fatblocksize
  have beg := @blockStart_le geo (geo.fatKind.fatofs cn)
  have ascends : geo.fatKind.fatofs cn ≤ geo.fatKind.fatofs (cn + 1) :=
    Nat.div_le_div_right (Nat.mul_le_mul_right _ (Nat.le_succ cn))
  have near : geo.fatKind.fatofs (cn + 1) ≤ geo.fatKind.fatofs cn + geo.fatKind.width := by
    unfold FatKind.fatofs
    cases geo.fatKind with
    | fat12 | fat16 | fat32 =>
      dsimp only [FatKind.fatmult, FatKind.fatdiv, FatKind.width]
      omega
  have sameBlock : geo.fatKind.fatofs (cn + 1) / geo.fatblocksize =
      geo.fatKind.fatofs cn / geo.fatblocksize := by
    unfold Geometry.blockSize at whole
    unfold Geometry.blockStart at whole le beg
    refine Nat.div_eq_of_lt_le (by omega) ?_
    rw [Nat.succ_mul]
    refine lt_of_le_of_ne (by omega) fun next' => notFirst ?_
    rw [next', ← Nat.succ_mul]
    exact Nat.mul_mod_left _ _
  unfold Geometry.fatblock
  rw [sameBlock]

/-- The map is right for the clusters read so far. -/
theorem fillinusemapLoop_spec (vol : Volume geo) {clusters cn : Nat} {held : Option Buf}
    (last : cn + clusters = geo.maxcluster + 1) (fst : clustFirst ≤ cn)
    (reading : Reading geo pmp.dev cn held)
    (um : Usemap geo pmp.inusemap pmp.freeclustercount
      ((freeClusters geo (pmp.fat geo)).filter fun oth => oth < cn)) :
    Usemap geo (fillinusemapLoop geo clusters cn held pmp).inusemap
        (fillinusemapLoop geo clusters cn held pmp).freeclustercount (freeClusters geo (pmp.fat geo)) ∧
      (fillinusemapLoop geo clusters cn held pmp).dev = pmp.dev := by
  induction clusters generalizing cn held pmp with
  | zero =>
    have hw : ((freeClusters geo (pmp.fat geo)).filter fun oth => oth < cn) =
        freeClusters geo (pmp.fat geo) := by
      refine Finset.filter_true_of_mem fun oth hfr => ?_
      have inFat := (mem_freeClusters.mp hfr).1.2
      omega
    rw [hw] at um
    exact ⟨um, rfl⟩
  | succ clusters ih =>
    have inFat : cn ≤ geo.maxcluster := by omega
    obtain ⟨bn, blk, holds, isFat⟩ := @bread_cluster geo pmp vol cn inFat
    have isAt := Nat.add_sub_of_le (@blockStart_le geo (geo.fatKind.fatofs cn))
    have hread := @held_get geo pmp
      (bread geo pmp.dev bn (geo.blockSize (geo.blockStart (geo.fatKind.fatofs cn)))) _ cn _
      (inside_cluster vol inFat) isAt
    rw [isFat] at hread
    have isOffset : geo.fatKind.fatofs cn % geo.fatblocksize =
        geo.fatKind.fatofs cn - geo.blockStart (geo.fatKind.fatofs cn) := Nat.mod_eq_sub_div_mul
    have isBuf : fillinusemapBlock geo pmp.dev held (geo.fatKind.fatofs cn % geo.fatblocksize)
        (geo.fatblock (geo.fatKind.fatofs cn)).1 (geo.fatblock (geo.fatKind.fatofs cn)).2.1 =
        bread geo pmp.dev (geo.fatblock (geo.fatKind.fatofs cn)).1
          (geo.fatblock (geo.fatKind.fatofs cn)).2.1 := by
      cases held with
      | none => rfl
      | some bp =>
        by_cases beg : geo.fatKind.fatofs cn % geo.fatblocksize = 0
        · exact if_pos beg
        · exact (if_neg beg).trans (reading bp rfl beg)
    rw [fillinusemapLoop]
    dsimp only
    rw [isBuf, isOffset]
    have next := @reading_next geo vol pmp.dev cn inFat
    rw [blk] at next ⊢
    rw [hread]
    by_cases hfr : geo.fatKind.entry (pmp.fat geo) cn = 0
    · rw [if_pos hfr]
      have notYet : cn ∉ (freeClusters geo (pmp.fat geo)).filter fun oth => oth < cn := fun isIn =>
        Nat.lt_irrefl cn (Finset.mem_filter.mp isIn).2
      have freed := um.freeOne vol notYet fst inFat
      have eqSet : insert cn ((freeClusters geo (pmp.fat geo)).filter fun oth => oth < cn) =
          (freeClusters geo (pmp.fat geo)).filter fun oth => oth < cn + 1 := by
        ext oth
        rw [Finset.mem_insert, Finset.mem_filter, Finset.mem_filter, Nat.lt_succ_iff_lt_or_eq]
        constructor
        · rintro (rfl | ⟨isIn, below⟩)
          · exact ⟨mem_freeClusters.mpr ⟨⟨fst, inFat⟩, hfr⟩, .inr rfl⟩
          · exact ⟨isIn, .inl below⟩
        · rintro ⟨isIn, below | rfl⟩
          · exact .inr ⟨isIn, below⟩
          · exact .inl rfl
      rw [eqSet] at freed
      exact @ih (pmp.usemapFree cn) (cn + 1) _ (by omega) (Nat.le_succ_of_le fst) next freed
    · rw [if_neg hfr]
      have eqSet : ((freeClusters geo (pmp.fat geo)).filter fun oth => oth < cn) =
          (freeClusters geo (pmp.fat geo)).filter fun oth => oth < cn + 1 := by
        refine Finset.filter_congr fun oth isIn => ⟨Nat.lt_succ_of_lt, fun below => ?_⟩
        refine (Nat.lt_succ_iff_lt_or_eq.mp below).resolve_right fun same => ?_
        exact hfr (same ▸ (mem_freeClusters.mp isIn).2)
      rw [eqSet] at um
      exact ih (by omega) (Nat.le_succ_of_le fst) next um

/-- At the mount the map is that of the FAT. -/
theorem fillinusemap_spec (vol : Volume geo) :
    Usemap geo (fillinusemap geo pmp).inusemap (fillinusemap geo pmp).freeclustercount
        (freeClusters geo (pmp.fat geo)) ∧ (fillinusemap geo pmp).dev = pmp.dev := by
  have allSet (words idx : Nat) :
      mapWord (List.replicate words (BitVec.allOnes 32)) idx = BitVec.allOnes 32 := by
    unfold mapWord
    rw [getElem?_replicate]
    split
    · rfl
    · rfl
  have empty : ((freeClusters geo (pmp.fat geo)).filter fun oth => oth < clustFirst) = ∅ := by
    refine Finset.filter_false_of_mem fun oth hfr => Nat.not_lt.mpr ?_
    exact (mem_freeClusters.mp hfr).1.1
  have start : Usemap geo
      (List.replicate ((geo.maxcluster + nInusebits) / nInusebits) (BitVec.allOnes 32)) 0
      ((freeClusters geo (pmp.fat geo)).filter fun oth => oth < clustFirst) := by
    rw [empty]
    constructor
    · rw [length_replicate]
      exact Nat.add_div_right _ (by decide)
    · intro cn
      have lt : cn % nInusebits < 32 := Nat.mod_lt cn (by decide)
      unfold inuse
      rw [allSet, BitVec.getLsbD_allOnes]
      exact ⟨fun clr => absurd clr (by rw [decide_eq_true lt]; decide), fun isIn => absurd isIn
        (Finset.notMem_empty _)⟩
    · exact fun cn isIn => absurd isIn (Finset.notMem_empty _)
    · rfl
  unfold fillinusemap
  by_cases atLeast : clustFirst ≤ geo.maxcluster + 1
  · exact @fillinusemapLoop_spec geo { pmp with
      inusemap := List.replicate ((geo.maxcluster + nInusebits) / nInusebits) (BitVec.allOnes 32)
      freeclustercount := 0 } vol _ _ _ (Nat.add_sub_of_le atLeast) (le_refl _)
      (fun bp isHeld => nomatch isHeld) start
  have hn : freeClusters geo (pmp.fat geo) = ∅ := by
    refine Finset.eq_empty_of_forall_notMem fun cn hfr => ?_
    have lt := (mem_freeClusters.mp hfr).1
    omega
  rw [Nat.sub_eq_zero_of_le (Nat.le_of_not_le atLeast), hn]
  rw [empty] at start
  exact ⟨start, rfl⟩

end Fill

end NetBSD.Msdosfs
