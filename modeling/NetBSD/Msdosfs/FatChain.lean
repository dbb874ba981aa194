import NetBSD.Msdosfs.Fat

/-!
Owns the copies of the FAT on the device: where the block of an entry lies, and what a written block
changes in each copy.
-/

namespace NetBSD.Msdosfs

open List Geometry FatKind

section Volume

variable (geo : Geometry)

def Geometry.fatsize : Nat := geo.fatsecs * geo.bytesPerSec

/-- What makes a mounted device a FAT volume: the sector size divides the block size, each cluster
has an entry in the FAT and a number below the reserved ones, and a mirrored FAT is read from the
first copy. -/
structure Volume : Prop where
  sectors : geo.bytesPerSec ∣ maxbsize
  holds : ∀ cn ≤ geo.maxcluster, geo.fatKind.fatofs cn + geo.fatKind.width ≤ geo.fatsize
  fits : geo.maxcluster < geo.fatKind.clustRsrvd
  first : geo.fatmirror = true → geo.curfat = 0

def Geometry.copy (dev : Nat → UInt8) (k : Nat) : Nat → UInt8 := fun o =>
  if o < geo.fatsize then dev (geo.fatblk * geo.bytesPerSec + k * geo.fatsize + o) else 0

def Msdosfsmount.fat (pmp : Msdosfsmount) : Nat → UInt8 := geo.copy pmp.dev geo.curfat

/-- All copies of a mirrored FAT are equal. -/
def Mirrored (dev : Nat → UInt8) : Prop :=
  geo.fatmirror = true → ∀ k < geo.fats, geo.copy dev k = geo.copy dev geo.curfat

variable {geo}

theorem copy_bwrite {dev : Nat → UInt8} {bn j start : Nat} {bp : Buf}
    (isAt : bn * geo.bytesPerSec = geo.fatblk * geo.bytesPerSec + j * geo.fatsize + start)
    (lt : start + bp.bcount ≤ geo.fatsize) (k : Nat) : geo.copy (bwrite geo dev bn bp) k =
      if k = j then splice (geo.copy dev k) bp.data start bp.bcount else geo.copy dev k := by
  funext o
  unfold copy bwrite
  by_cases below : o < geo.fatsize
  · rw [if_pos below]
    by_cases same : k = j
    · rw [if_pos same, same]
      unfold splice
      by_cases hins : start ≤ o ∧ o < start + bp.bcount
      · rw [if_pos hins, if_pos (by omega)]
        congr 1
        omega
      · rw [if_neg hins, if_neg (by omega)]
        exact (if_pos below).symm
    rw [if_neg same]
    refine Eq.trans (if_neg fun both => ?_) (if_pos below).symm
    rcases lt_or_gt_of_ne same with isFront | aft
    · have le := Nat.mul_le_mul_right geo.fatsize (show k + 1 ≤ j from isFront)
      rw [Nat.succ_mul] at le
      omega
    · have le := Nat.mul_le_mul_right geo.fatsize (show j + 1 ≤ k from aft)
      rw [Nat.succ_mul] at le
      omega
  · rw [if_neg below]
    by_cases same : k = j
    · rw [if_pos same]
      unfold splice
      rw [if_neg (by omega)]
      exact (if_neg below).symm
    · rw [if_neg same]
      exact (if_neg below).symm

theorem copy_copyFats {dev : Nat → UInt8} {bn j start : Nat} {bp : Buf}
    (isAt : bn * geo.bytesPerSec = geo.fatblk * geo.bytesPerSec + j * geo.fatsize + start)
    (lt : start + bp.bcount ≤ geo.fatsize) (copies k : Nat) :
    geo.copy (copyFats geo bp copies bn dev) k =
      if j < k ∧ k ≤ j + copies then splice (geo.copy dev k) bp.data start bp.bcount
      else geo.copy dev k := by
  induction copies generalizing bn j dev with
  | zero =>
    rw [if_neg (by omega)]
    rfl
  | succ copies ih =>
    have next' : (bn + geo.fatsecs) * geo.bytesPerSec =
        geo.fatblk * geo.bytesPerSec + (j + 1) * geo.fatsize + start := by
      rw [add_mul, isAt, Nat.succ_mul]
      unfold fatsize
      omega
    show geo.copy (copyFats geo bp copies (bn + geo.fatsecs) (bwrite geo dev (bn + geo.fatsecs) bp)) k = _
    rw [ih next', copy_bwrite next' lt]
    by_cases fst : k = j + 1
    · rw [if_neg (by omega), if_pos fst, if_pos (by omega)]
    · rw [if_neg fst]
      by_cases late : j + 1 < k ∧ k ≤ j + 1 + copies
      · rw [if_pos late, if_pos (by omega)]
      · rw [if_neg late, if_neg (by omega)]

end Volume

section Update

variable {geo : Geometry} {pmp : Msdosfsmount}

@[simp] theorem updateFsinfo_dev : (pmp.updateFsinfo geo).dev = pmp.dev := by
  unfold Msdosfsmount.updateFsinfo
  cases pmp.fsinfo with
  | none => rfl
  | some _ => rfl

@[simp] theorem updateFsinfo_inusemap : (pmp.updateFsinfo geo).inusemap = pmp.inusemap := by
  unfold Msdosfsmount.updateFsinfo
  cases pmp.fsinfo with
  | none => rfl
  | some _ => rfl

@[simp] theorem updateFsinfo_freeclustercount :
    (pmp.updateFsinfo geo).freeclustercount = pmp.freeclustercount := by
  unfold Msdosfsmount.updateFsinfo
  cases pmp.fsinfo with
  | none => rfl
  | some _ => rfl

/-- A buffer with a block of the FAT. -/
structure Holds (geo : Geometry) (bp : Buf) (start : Nat) : Prop where
  place : bp.blkno * geo.bytesPerSec =
    geo.fatblk * geo.bytesPerSec + geo.curfat * geo.fatsize + start
  inside : start + bp.bcount ≤ geo.fatsize

/-- The FAT with what a buffer holds of it. -/
def heldFat (geo : Geometry) (pmp : Msdosfsmount) (bp : Buf) (start : Nat) : Nat → UInt8 :=
  splice (pmp.fat geo) bp.data start bp.bcount

/-- What a step that writes the FAT does: the map stays as it is. -/
structure Written (geo : Geometry) (pmp after : Msdosfsmount) (fat : Nat → UInt8) : Prop where
  fat : after.fat geo = fat
  mirrored : Mirrored geo pmp.dev → Mirrored geo after.dev
  inusemap : after.inusemap = pmp.inusemap
  freeclustercount : after.freeclustercount = pmp.freeclustercount

theorem updatefats_written (vol : Volume geo) {bp : Buf} {start : Nat}
    (holds : Holds geo bp start) :
    Written geo pmp (updatefats geo pmp bp bp.blkno) (heldFat geo pmp bp start) := by
  have copy (k : Nat) : geo.copy (updatefats geo pmp bp bp.blkno).dev k =
      if k = geo.curfat ∨ geo.fatmirror = true ∧ 0 < k ∧ k ≤ geo.fats - 1 then
        splice (geo.copy pmp.dev k) bp.data start bp.bcount
      else geo.copy pmp.dev k := by
    show geo.copy (bwrite geo _ bp.blkno bp) k = _
    rw [copy_bwrite holds.place holds.inside, updateFsinfo_dev]
    cases isMirror : geo.fatmirror with
    | false =>
      rw [if_neg Bool.false_ne_true]
      by_cases isCur : k = geo.curfat
      · rw [if_pos isCur, if_pos (.inl isCur)]
      · rw [if_neg isCur, if_neg fun either => either.elim isCur fun both => nomatch both.1]
    | true =>
      rw [if_pos rfl, copy_copyFats holds.place holds.inside, vol.first isMirror]
      by_cases isCur : k = 0
      · rw [if_pos isCur, if_neg (by omega), if_pos (.inl isCur)]
      · rw [if_neg isCur]
        by_cases isCopy : 0 < k ∧ k ≤ 0 + (geo.fats - 1)
        · rw [if_pos isCopy, if_pos (.inr ⟨rfl, by omega⟩)]
        · rw [if_neg isCopy, if_neg fun either => either.elim isCur fun both => isCopy (by omega)]
  have current := (copy geo.curfat).trans (if_pos (.inl rfl))
  constructor
  · exact current
  · intro mirrored isMirror k below
    rw [current, copy]
    by_cases isCur : k = geo.curfat
    · rw [if_pos (.inl isCur), isCur]
    · have fst := vol.first isMirror
      rw [if_pos (.inr ⟨isMirror, by omega⟩), mirrored isMirror k below]
  · exact updateFsinfo_inusemap
  · exact updateFsinfo_freeclustercount

theorem Written.trans {mid s' : Msdosfsmount} {fst last : Nat → UInt8}
    (prev : Written geo pmp mid fst) (tail : Written geo mid s' last) :
    Written geo pmp s' last where
  fat := tail.fat
  mirrored := tail.mirrored ∘ prev.mirrored
  inusemap := tail.inusemap.trans prev.inusemap
  freeclustercount := tail.freeclustercount.trans prev.freeclustercount

end Update

section Blocks

variable {geo : Geometry} {pmp : Msdosfsmount}

def Geometry.blockStart (geo : Geometry)
    (ofs : Nat) : Nat := ofs / geo.fatblocksize * geo.fatblocksize

def Geometry.blockSize (geo : Geometry)
    (start : Nat) : Nat := min geo.fatblocksize (geo.fatsize - start)

theorem Volume.bytesPerSec_pos (vol : Volume geo) : 0 < geo.bytesPerSec :=
  Nat.pos_of_dvd_of_pos vol.sectors (by decide)

theorem Volume.fatblocksec_mul (vol : Volume geo) :
    geo.fatblocksec * geo.bytesPerSec = geo.fatblocksize := by
  apply Nat.div_mul_cancel
  unfold fatblocksize
  cases geo.fatKind with
  | fat12 => exact dvd_mul_left _ _
  | fat16 | fat32 => exact vol.sectors

theorem Volume.fatblocksize_pos (vol : Volume geo) : 0 < geo.fatblocksize := by
  have pos := vol.bytesPerSec_pos
  unfold fatblocksize
  cases geo.fatKind with
  | fat12 => exact mul_pos (by decide) pos
  | fat16 | fat32 => exact Nat.succ_pos _

theorem fatblock_eq (vol : Volume geo) (ofs : Nat) : ∃ bn,
    geo.fatblock ofs = (bn, geo.blockSize (geo.blockStart ofs), ofs - geo.blockStart ofs) ∧
    bn * geo.bytesPerSec =
      geo.fatblk * geo.bytesPerSec + geo.curfat * geo.fatsize + geo.blockStart ofs := by
  have beg : ofs / geo.fatblocksize * geo.fatblocksec * geo.bytesPerSec = geo.blockStart ofs := by
    rw [mul_assoc, vol.fatblocksec_mul]
    rfl
  refine ⟨_, Prod.ext rfl (Prod.ext ?_ ?_), ?_⟩
  · show min geo.fatblocksec (geo.fatsecs - ofs / geo.fatblocksize * geo.fatblocksec) * geo.bytesPerSec = _
    rw [← Nat.mul_min_mul_right, Nat.sub_mul, vol.fatblocksec_mul, beg]
    rfl
  · exact Nat.mod_eq_sub_div_mul
  · show (ofs / geo.fatblocksize * geo.fatblocksec + geo.fatblk + geo.curfat * geo.fatsecs) *
      geo.bytesPerSec = _
    rw [add_mul, add_mul, mul_assoc geo.curfat]
    unfold fatsize
    omega

theorem entry_inside (vol : Volume geo) {q cn : Nat} (inFat : cn ≤ geo.maxcluster)
    (fst : q * geo.fatblocksize ≤ geo.fatKind.fatofs cn)
    (last : geo.fatKind.fatofs cn < q * geo.fatblocksize + geo.fatblocksize) :
    geo.fatKind.fatofs cn - q * geo.fatblocksize + geo.fatKind.width ≤
      geo.blockSize (q * geo.fatblocksize) := by
  have holds := vol.holds cn inFat
  apply Nat.le_min.mpr
  refine ⟨?_, by omega⟩
  revert fst last
  unfold fatblocksize fatofs
  cases geo.fatKind with
  | fat12 =>
    intro fst last
    dsimp only [fatmult, fatdiv, width] at fst last ⊢
    rw [show q * (3 * geo.bytesPerSec) = 3 * (q * geo.bytesPerSec) from mul_left_comm _ _ _]
      at fst last ⊢
    omega
  | fat16 | fat32 =>
    intro fst last
    dsimp only [fatmult, fatdiv, width, maxbsize] at fst last ⊢
    omega

theorem blockStart_le (ofs : Nat) : geo.blockStart ofs ≤ ofs := Nat.div_mul_le_self _ _

theorem lt_blockStart_add (vol : Volume geo) (ofs : Nat) :
    ofs < geo.blockStart ofs + geo.fatblocksize := by
  have atLeast := Nat.lt_mul_div_succ ofs vol.fatblocksize_pos
  rwa [Nat.mul_comm, Nat.succ_mul] at atLeast

theorem bread_cluster (vol : Volume geo) {cn : Nat} (inFat : cn ≤ geo.maxcluster) : ∃ bn,
    geo.fatblock (geo.fatKind.fatofs cn) = (bn, geo.blockSize (geo.blockStart (geo.fatKind.fatofs cn)),
      geo.fatKind.fatofs cn - geo.blockStart (geo.fatKind.fatofs cn)) ∧
    Holds geo (bread geo pmp.dev bn (geo.blockSize (geo.blockStart (geo.fatKind.fatofs cn))))
      (geo.blockStart (geo.fatKind.fatofs cn)) ∧
    heldFat geo pmp (bread geo pmp.dev bn (geo.blockSize (geo.blockStart (geo.fatKind.fatofs cn))))
      (geo.blockStart (geo.fatKind.fatofs cn)) = pmp.fat geo := by
  obtain ⟨bn, blk, isAt⟩ := fatblock_eq vol (geo.fatKind.fatofs cn)
  have beg := @blockStart_le geo (geo.fatKind.fatofs cn)
  have holds := vol.holds cn inFat
  have lt : geo.blockStart (geo.fatKind.fatofs cn) +
      geo.blockSize (geo.blockStart (geo.fatKind.fatofs cn)) ≤ geo.fatsize := by
    unfold blockSize
    omega
  refine ⟨bn, blk, ⟨isAt, lt⟩, ?_⟩
  funext o
  by_cases hins : geo.blockStart (geo.fatKind.fatofs cn) ≤ o ∧
      o < geo.blockStart (geo.fatKind.fatofs cn) + geo.blockSize (geo.blockStart (geo.fatKind.fatofs cn))
  · refine Eq.trans (if_pos hins) ?_
    unfold Msdosfsmount.fat copy bread
    rw [if_pos (by omega)]
    dsimp only
    congr 1
    omega
  · exact if_neg hins

end Blocks

/-!
### The FAT as a whole

What `fatentry`, `fatchain` and `freeclusterchain` do to the FAT as a whole: one entry set, a run of
clusters linked, and the entries of a chain cleared.
-/

section Held

variable {geo : Geometry} {pmp : Msdosfsmount} {bp : Buf} {start cn bo : Nat}

theorem inside_cluster (vol : Volume geo) (inFat : cn ≤ geo.maxcluster) :
    geo.fatKind.fatofs cn - geo.blockStart (geo.fatKind.fatofs cn) + geo.fatKind.width ≤
      geo.blockSize (geo.blockStart (geo.fatKind.fatofs cn)) :=
  entry_inside vol inFat (blockStart_le _) (lt_blockStart_add vol _)

theorem held_get (lt : bo + geo.fatKind.width ≤ bp.bcount)
    (isAt : start + bo = geo.fatKind.fatofs cn) :
    geo.fatKind.getEntry bp.data cn bo = geo.fatKind.entry (heldFat geo pmp bp start) cn := by
  unfold entry heldFat
  rw [← isAt, getEntry_splice geo.fatKind lt]

theorem held_set (lt : bo + geo.fatKind.width ≤ bp.bcount)
    (isAt : start + bo = geo.fatKind.fatofs cn) (v : Nat) :
    heldFat geo pmp { bp with data := geo.fatKind.setEntry bp.data cn bo v } start =
      geo.fatKind.put (heldFat geo pmp bp start) cn v := by
  unfold put heldFat
  rw [← isAt]
  exact splice_setEntry geo.fatKind lt cn v

end Held

section Single

variable {geo : Geometry} {pmp : Msdosfsmount} {cn : Nat}

theorem fatentry_set (vol : Volume geo) (fst : clustFirst ≤ cn) (inFat : cn ≤ geo.maxcluster)
    (v : Nat) : ∃ s', fatentry geo .set pmp cn v = .ok (none, s') ∧
      Written geo pmp s' (geo.fatKind.put (pmp.fat geo) cn v) := by
  obtain ⟨bn, blk, holds, isFat⟩ := @bread_cluster geo pmp vol cn inFat
  have isAt := Nat.add_sub_of_le (@blockStart_le geo (geo.fatKind.fatofs cn))
  unfold fatentry
  rw [if_neg (not_or.mpr ⟨not_lt.mpr fst, not_lt.mpr inFat⟩), blk]
  refine ⟨_, rfl, ?_⟩
  rw [← isFat, ← held_set (inside_cluster vol inFat) isAt]
  exact updatefats_written vol ⟨holds.place, holds.inside⟩

theorem fatentry_getAndSet (vol : Volume geo) (fst : clustFirst ≤ cn)
    (inFat : cn ≤ geo.maxcluster) (v : Nat) : ∃ s', fatentry geo .getAndSet pmp cn v =
        .ok (some (geo.fatKind.entry (pmp.fat geo) cn), s') ∧
      Written geo pmp s' (geo.fatKind.put (pmp.fat geo) cn v) := by
  obtain ⟨bn, blk, holds, isFat⟩ := @bread_cluster geo pmp vol cn inFat
  have isAt := Nat.add_sub_of_le (@blockStart_le geo (geo.fatKind.fatofs cn))
  have lt := inside_cluster vol inFat
  unfold fatentry
  rw [if_neg (not_or.mpr ⟨not_lt.mpr fst, not_lt.mpr inFat⟩), blk, ← isFat,
    ← held_get lt isAt]
  refine ⟨_, rfl, ?_⟩
  rw [← held_set lt isAt]
  exact updatefats_written vol ⟨holds.place, holds.inside⟩

end Single

section Link

variable {geo : Geometry} {fillwith : Nat}

/-- The FAT with a run of clusters linked one to the next, the last with another entry. -/
def linkRun (kind : FatKind) (fillwith : Nat) : Nat → Nat → (Nat → UInt8) → Nat → UInt8
  | 0, _, fat => fat
  | count + 1, start, fat =>
    linkRun kind fillwith count (start + 1)
      (kind.put fat start (if count > 0 then start + 1 else fillwith))

/-- One block's part of a chain is written at once. -/
theorem fatchainBlock_spec (vol : Volume geo) {q : Nat} (fat : Nat → UInt8) {cnt start bo : Nat}
    {data : Nat → UInt8} (isAt : q * geo.fatblocksize + bo = geo.fatKind.fatofs start)
    (below : bo < geo.blockSize (q * geo.fatblocksize)) (inFat : start + cnt ≤ geo.maxcluster + 1)
    {left : (Nat → UInt8) × Nat × Nat}
    (isLeft : fatchainBlock geo (geo.blockSize (q * geo.fatblocksize)) fillwith cnt start bo data = left) :
    (0 < cnt → left.2.2 < cnt) ∧ left.2.1 + left.2.2 = start + cnt ∧
    linkRun geo.fatKind fillwith left.2.2 left.2.1
        (splice fat left.1 (q * geo.fatblocksize) (geo.blockSize (q * geo.fatblocksize))) =
      linkRun geo.fatKind fillwith cnt start
        (splice fat data (q * geo.fatblocksize) (geo.blockSize (q * geo.fatblocksize))) := by
  induction cnt generalizing start bo data with
  | zero =>
    subst isLeft
    exact ⟨fun pos => absurd pos (lt_irrefl 0), rfl, rfl⟩
  | succ cnt ih =>
    have lt : bo + geo.fatKind.width ≤ geo.blockSize (q * geo.fatblocksize) := by
      have whole := entry_inside vol (show start ≤ geo.maxcluster by omega)
        (show q * geo.fatblocksize ≤ geo.fatKind.fatofs start by omega)
        (by unfold blockSize at below; omega)
      rwa [← isAt, Nat.add_sub_cancel_left] at whole
    have isPut (v : Nat) := @splice_setEntry fat data (q * geo.fatblocksize) _ bo geo.fatKind lt
      start v
    rw [isAt] at isPut
    rw [fatchainBlock] at isLeft
    dsimp only at isLeft
    rw [chainEntry_eq] at isLeft
    rw [linkRun, put, ← isPut]
    by_cases isEnd : bo + (geo.fatKind.fatofs (start + 1) - geo.fatKind.fatofs start) ≥
        geo.blockSize (q * geo.fatblocksize)
    · rw [if_pos isEnd] at isLeft
      subst isLeft
      exact ⟨fun _ => Nat.lt_succ_self _, by dsimp only; omega, rfl⟩
    rw [if_neg isEnd] at isLeft
    have ascends : geo.fatKind.fatofs start ≤ geo.fatKind.fatofs (start + 1) :=
      Nat.div_le_div_right (Nat.mul_le_mul_right _ (Nat.le_succ start))
    obtain ⟨less, total, same⟩ := ih (by omega) (by omega) (by omega) isLeft
    refine ⟨fun _ => ?_, by omega, same⟩
    rcases eq_zero_or_pos cnt with rfl | pos
    · rw [fatchainBlock] at isLeft
      rw [← isLeft]
      exact Nat.succ_pos 0
    · exact Nat.lt_succ_of_lt (less pos)

/-- The chain is written block by block. -/
theorem fatchainLoop_written (vol : Volume geo) {rnds cnt start : Nat} {pmp : Msdosfsmount}
    (suff : cnt ≤ rnds) (inFat : start + cnt ≤ geo.maxcluster + 1) :
    Written geo pmp (fatchainLoop geo fillwith rnds start cnt pmp)
      (linkRun geo.fatKind fillwith cnt start (pmp.fat geo)) := by
  induction rnds generalizing cnt start pmp with
  | zero =>
    obtain rfl := Nat.le_zero.mp suff
    exact ⟨rfl, id, rfl, rfl⟩
  | succ rnds ih =>
    rw [fatchainLoop]
    by_cases done : cnt = 0
    · rw [done]
      exact ⟨rfl, id, rfl, rfl⟩
    rw [if_neg done]
    have startIn : start ≤ geo.maxcluster := by omega
    obtain ⟨bn, blk, holds, isFat⟩ := @bread_cluster geo pmp vol start startIn
    have isAt := Nat.add_sub_of_le (@blockStart_le geo (geo.fatKind.fatofs start))
    have lt := inside_cluster vol startIn
    have pos : 0 < geo.fatKind.width := by
      cases geo.fatKind with
      | fat12 | fat16 | fat32 => exact Nat.succ_pos _
    rw [blk]
    dsimp only
    generalize isLeft : fatchainBlock geo _ fillwith cnt start _ _ = left
    obtain ⟨less, total, same⟩ := fatchainBlock_spec vol (pmp.fat geo) isAt
      (Nat.lt_of_lt_of_le (Nat.lt_add_of_pos_right pos) lt) inFat isLeft
    have kept := @updatefats_written geo pmp vol
      ⟨bn, geo.blockSize (geo.blockStart (geo.fatKind.fatofs start)), left.1⟩ _
      ⟨holds.place, holds.inside⟩
    refine kept.trans ?_
    have link := @ih _ _ (updatefats geo pmp
        ⟨bn, geo.blockSize (geo.blockStart (geo.fatKind.fatofs start)), left.1⟩ bn)
      (Nat.le_of_lt_succ (lt_of_lt_of_le (less (pos_of_ne_zero done)) suff))
      (by rw [total]; exact inFat)
    rw [kept.fat] at link
    rw [← isFat]
    exact same ▸ link

theorem fatchain_written (vol : Volume geo) {cnt start : Nat} {pmp : Msdosfsmount}
    (fst : clustFirst ≤ start) (inFat : start + cnt ≤ geo.maxcluster + 1) :
    ∃ s', fatchain geo pmp start cnt fillwith = .ok s' ∧
      Written geo pmp s' (linkRun geo.fatKind fillwith cnt start (pmp.fat geo)) := by
  unfold fatchain
  rw [if_neg (by omega)]
  exact ⟨_, rfl, fatchainLoop_written vol (le_refl _) inFat⟩

theorem entry_linkRun (kind : FatKind) {cnt start : Nat} {fat : Nat → UInt8} (cn : Nat) :
    kind.entry (linkRun kind fillwith cnt start fat) cn = if start ≤ cn ∧ cn < start + cnt then
        (if cn + 1 < start + cnt then cn + 1 else fillwith) % kind.size
      else kind.entry fat cn := by
  induction cnt generalizing start fat with
  | zero =>
    rw [if_neg (by omega)]
    rfl
  | succ cnt ih =>
    rw [linkRun, ih, entry_put]
    by_cases beg : cn = start
    · rw [if_neg (by omega), if_pos beg, if_pos (show start ≤ cn ∧ cn < start + (cnt + 1) by omega)]
      by_cases more : cnt > 0
      · rw [if_pos more, if_pos (by omega), beg]
      · rw [if_neg more, if_neg (by omega)]
    rw [if_neg beg]
    by_cases late : start + 1 ≤ cn ∧ cn < start + 1 + cnt
    · rw [if_pos late, if_pos (show start ≤ cn ∧ cn < start + (cnt + 1) by omega),
        add_right_comm start 1 cnt]
      rfl
    · rw [if_neg late, if_neg (by omega)]

end Link

section Clear

variable {geo : Geometry} {fat : Nat → UInt8}

/-- The clusters from one on up to an end mark. -/
def Linked (geo : Geometry) (fat : Nat → UInt8) : Nat → List Nat → Prop
  | cluster, [] => geo.fatKind.msdosfseof cluster = true
  | cluster, cn :: rest =>
    cluster = cn ∧ clustFirst ≤ cn ∧ cn ≤ geo.maxcluster ∧ Linked geo fat (geo.fatKind.entry fat cn) rest

theorem Linked.congr {oth : Nat → UInt8} {clu : Nat} {cs : List Nat}
    (link : Linked geo fat clu cs)
    (same : ∀ cn ∈ cs, geo.fatKind.entry oth cn = geo.fatKind.entry fat cn) :
    Linked geo oth clu cs := by
  induction cs generalizing clu with
  | nil => exact link
  | cons cn tl ih =>
    obtain ⟨hd, fst, inFat, link⟩ := link
    refine ⟨hd, fst, inFat, ?_⟩
    rw [same cn mem_cons_self]
    exact ih link (forall_mem_cons.mp same).2

theorem clustRsrvd_le_of_eof (kind : FatKind) {clu : Nat}
    (isEof : kind.msdosfseof clu = true) : kind.clustRsrvd ≤ clu := by
  have masked : clu &&& 0xfffffff8 = 0xfffffff8 &&& kind.fatmask := of_decide_eq_true isEof
  have le : clu &&& 0xfffffff8 ≤ clu := Nat.and_le_left
  rw [masked] at le
  refine le_trans ?_ le
  cases kind with
  | fat12 | fat16 | fat32 => decide

def clearRun (kind : FatKind) (cs : List Nat) (fat : Nat → UInt8) : Nat → UInt8 :=
  cs.foldl (fun fat cn => kind.put fat cn 0) fat

theorem entry_clearRun (kind : FatKind) (cs : List Nat) (cn : Nat) :
    kind.entry (clearRun kind cs fat) cn = if cn ∈ cs then 0 else kind.entry fat cn := by
  induction cs generalizing fat with
  | nil => exact (if_neg not_mem_nil).symm
  | cons head tl ih =>
    show kind.entry (clearRun kind tl (kind.put fat head 0)) cn = _
    rw [ih, entry_put, Nat.zero_mod]
    by_cases late : cn ∈ tl
    · rw [if_pos late, if_pos (mem_cons_of_mem _ late)]
    · rw [if_neg late]
      by_cases hd : cn = head
      · rw [if_pos hd, if_pos (mem_cons.mpr (.inl hd))]
      · rw [if_neg hd, if_neg fun isIn => (mem_cons.mp isIn).elim hd late]

def clearBit (inusemap : List (BitVec 32)) (cn : Nat) : List (BitVec 32) :=
  inusemap.set (cn / nInusebits)
    (mapWord inusemap (cn / nInusebits) &&& ~~~(1#32 <<< (cn % nInusebits)))

/-- What freeing the clusters of a chain does. -/
structure Freed (geo : Geometry) (pmp after : Msdosfsmount) (cs : List Nat) (fat : Nat → UInt8) : Prop where
  fat : after.fat geo = clearRun geo.fatKind cs fat
  mirrored : Mirrored geo pmp.dev → Mirrored geo after.dev
  inusemap : after.inusemap = cs.foldl clearBit pmp.inusemap
  freeclustercount : after.freeclustercount =
    cs.foldl (fun count _ => (count + 1) % 2 ^ 64) pmp.freeclustercount

def Holding (geo : Geometry) (pmp : Msdosfsmount) (fat : Nat → UInt8) : Option Buf → Prop
  | none => pmp.fat geo = fat
  | some bp => ∃ start, Holds geo bp start ∧ bp.bcount = geo.blockSize start ∧ heldFat geo pmp bp start = fat

variable {held : Option Buf}

theorem Holding.flush (vol : Volume geo) {pmp : Msdosfsmount}
    (holding : Holding geo pmp fat held) :
    Written geo pmp ((held.map fun bp => updatefats geo pmp bp bp.blkno).getD pmp) fat := by
  cases held with
  | none => exact ⟨holding, id, rfl, rfl⟩
  | some bp =>
    obtain ⟨start, holds, _, rfl⟩ := holding
    exact updatefats_written vol holds

theorem Holding.turn (vol : Volume geo) {pmp : Msdosfsmount} {cn bn : Nat}
    (holding : Holding geo pmp fat held) (inFat : cn ≤ geo.maxcluster)
    (blk : (geo.fatblock (geo.fatKind.fatofs cn)).1 = bn) {mid : Msdosfsmount} {bp : Buf}
    (turned : freeclusterchainBlock geo pmp held bn
      (geo.blockSize (geo.blockStart (geo.fatKind.fatofs cn))) = (mid, bp)) :
    Holds geo bp (geo.blockStart (geo.fatKind.fatofs cn)) ∧
      bp.bcount = geo.blockSize (geo.blockStart (geo.fatKind.fatofs cn)) ∧
      heldFat geo mid bp (geo.blockStart (geo.fatKind.fatofs cn)) = fat ∧
      (Mirrored geo pmp.dev → Mirrored geo mid.dev) ∧ mid.inusemap = pmp.inusemap ∧
      mid.freeclustercount = pmp.freeclustercount := by
  cases held with
  | none =>
    obtain ⟨rfl, rfl⟩ := Prod.mk.inj turned
    obtain ⟨bn', isBlock', holds, isFat⟩ := @bread_cluster geo pmp vol cn inFat
    rw [isBlock'] at blk
    obtain rfl := blk
    exact ⟨holds, rfl, isFat.trans holding, id, rfl, rfl⟩
  | some old =>
    obtain ⟨start, oldHolds, hsz, isOld⟩ := holding
    unfold freeclusterchainBlock at turned
    dsimp only at turned
    by_cases same : old.blkno ≠ bn
    · rw [if_pos same] at turned
      obtain ⟨rfl, rfl⟩ := Prod.mk.inj turned
      have kept := @updatefats_written geo pmp vol old start oldHolds
      obtain ⟨bn', isBlock', holds, isFat⟩ :=
        @bread_cluster geo (updatefats geo pmp old old.blkno) vol cn inFat
      rw [isBlock'] at blk
      obtain rfl := blk
      exact ⟨holds, rfl, isFat.trans (kept.fat.trans isOld), kept.mirrored, kept.inusemap,
        kept.freeclustercount⟩
    rw [if_neg same] at turned
    obtain ⟨rfl, rfl⟩ := Prod.mk.inj turned
    obtain ⟨bn', isBlock', at'⟩ := fatblock_eq vol (geo.fatKind.fatofs cn)
    rw [isBlock'] at blk
    have beg : start = geo.blockStart (geo.fatKind.fatofs cn) := by
      have plc := oldHolds.place
      rw [not_not.mp same, ← blk, at'] at plc
      omega
    subst beg
    exact ⟨oldHolds, hsz, isOld, id, rfl, rfl⟩

/-- The clusters of a chain become free, each once. -/
theorem freeclusterchainLoop_freed (vol : Volume geo) {cs : List Nat} {rnds clu : Nat}
    {pmp : Msdosfsmount} (holding : Holding geo pmp fat held) (link : Linked geo fat clu cs)
    (nodup : cs.Nodup) (suff : cs.length < rnds) :
    Freed geo pmp (freeclusterchainLoop geo rnds pmp clu held) cs fat := by
  induction cs generalizing rnds clu pmp held fat with
  | nil =>
    obtain ⟨rnds, rfl⟩ := Nat.exists_eq_succ_of_ne_zero (Nat.ne_of_gt suff)
    have isEnd : ¬ (clu ≥ clustFirst ∧ clu ≤ geo.maxcluster) := fun both =>
      not_lt.mpr both.2 (lt_of_lt_of_le vol.fits (clustRsrvd_le_of_eof _ link))
    rw [freeclusterchainLoop, if_neg isEnd]
    have kept := holding.flush vol
    exact { kept with }
  | cons cn tl ih =>
    obtain ⟨rnds, rfl⟩ := Nat.exists_eq_succ_of_ne_zero
      (show rnds ≠ 0 by rintro rfl; exact absurd suff (Nat.not_lt_zero _))
    obtain ⟨rfl, fst, inFat, link⟩ := link
    obtain ⟨notIn, nodup⟩ := nodup_cons.mp nodup
    obtain ⟨bn, blk, _⟩ := fatblock_eq vol (geo.fatKind.fatofs clu)
    rw [freeclusterchainLoop, if_pos ⟨fst, inFat⟩, blk]
    dsimp only
    generalize turned : freeclusterchainBlock geo pmp held bn _ = both
    obtain ⟨mid, bp⟩ := both
    obtain ⟨holds, hsz, isFat, mirrored, sameMap, sameCount⟩ :=
      holding.turn vol inFat (congrArg Prod.fst blk) turned
    have isAt := Nat.add_sub_of_le (@blockStart_le geo (geo.fatKind.fatofs clu))
    have lt := inside_cluster vol inFat
    rw [← hsz] at lt
    rw [freeEntry_eq, @held_get geo mid bp _ clu _ lt isAt, isFat]
    have clrd : Holding geo (mid.usemapFree clu) (geo.fatKind.put fat clu 0)
        (some ⟨bp.blkno, bp.bcount, geo.fatKind.setEntry bp.data clu
          (geo.fatKind.fatofs clu - geo.blockStart (geo.fatKind.fatofs clu)) 0⟩) := by
      refine ⟨_, ⟨holds.place, holds.inside⟩, hsz, ?_⟩
      rw [← isFat]
      exact @held_set geo mid bp _ clu _ lt isAt 0
    have stays (oth : Nat) (late : oth ∈ tl) :
        geo.fatKind.entry (geo.fatKind.put fat clu 0) oth = geo.fatKind.entry fat oth := by
      have ne : oth ≠ clu := fun same => notIn (same ▸ late)
      exact entry_put_of_ne _ _ ne 0
    have freed := ih clrd (link.congr stays) nodup (Nat.lt_of_succ_lt_succ suff)
    refine ⟨freed.fat, fun isMirrored => freed.mirrored (mirrored isMirrored), ?_, ?_⟩
    · rw [freed.inusemap, ← sameMap]
      rfl
    · rw [freed.freeclustercount, ← sameCount]
      rfl

end Clear

end NetBSD.Msdosfs
