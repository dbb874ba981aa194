import NetBSD.Ufs.DirhashEdit

/-!
Owns the changes of a directory that touch one record or whole blocks: an entry
removed, a fresh block, unused blocks cut off at the end. Each leaves a directory
that the hash agrees with.
-/

namespace NetBSD.Ufs.UfsDirhash

open NetBSD.Machine List Option

def UnusedFrom (blocks : List (List Direct)) (n : Nat) : Prop :=
  ∀ b block, n ≤ b → blocks[b]? = some block → ∀ dp ∈ block, dp.d_ino = 0

section Change

variable {hash : List UInt8 → Nat} {ip : Inode} {blocks : List (List Direct)}
  {block : List Direct} {name : List UInt8} {dirp dp : Direct} {b n offset prevoff : Nat}

theorem checkBlockAt_spec (directory : Directory ip.blocks) (agrees : Agrees hash ip)
    (lt : offset / dirblksiz < ip.blocks.length) :
    checkBlockAt hash ip offset = some ip := by
  have fnd : ip.blocks[offset / dirblksiz]? = some ip.blocks[offset / dirblksiz] :=
    getElem?_eq_getElem lt
  rw [checkBlockAt, fnd, bind_some, ufsdirhashCheckblock_spec directory agrees fnd]
  rfl

/-! ### An entry removed -/

theorem replaced_wellFormed {pre back records records' : List Direct}
    (wf : BlockWellFormed (pre ++ records ++ back))
    (sound : ∀ dp ∈ records', dp.WellFormed) (same : reclens records' = reclens records) :
    BlockWellFormed (pre ++ records' ++ back) where
  records := by
    intro dp isMem
    rw [mem_append, mem_append] at isMem
    rcases isMem with (isFront | isNew) | isBack
    · exact wf.records dp (mem_append_left _ (mem_append_left _ isFront))
    · exact sound dp isNew
    · exact wf.records dp (mem_append_right _ isBack)
  whole := by
    rw [reclens_append, reclens_append, same, ← reclens_append, ← reclens_append]
    exact wf.whole

section

variable (directory : Directory ip.blocks) (agrees : Agrees hash ip)

include directory agrees

theorem ufsDirremove_first
    {back : List Direct} (fnd : ip.blocks[b]? = some (dp :: back)) (used : dp.d_ino ≠ 0)
    (reclen : Nat) : ∃ ip', ufsDirremove hash ip (b * dirblksiz) 0 reclen = some ip' ∧
      Directory ip'.blocks ∧ Agrees hash ip' := by
  have wf := directory.wellFormed _ (mem_of_getElem? fnd)
  obtain ⟨pos, algn, fits⟩ := wf.records dp mem_cons_self
  have noUse : ({ dp with d_ino := 0 } : Direct).inUse = 0 := if_pos rfl
  have isUse : dp.inUse = dp.dirsiz := if_neg used
  obtain ⟨below, _⟩ := List.getElem?_eq_some_iff.mp fnd
  have newWellFormed : BlockWellFormed ({ dp with d_ino := 0 } :: back) := by
    apply @replaced_wellFormed [] back [dp] [{ dp with d_ino := 0 }] wf
    · intro oth isMem
      rw [mem_singleton.mp isMem]
      exact ⟨pos, algn, noUse ▸ Nat.zero_le _⟩
    · rfl
  obtain ⟨ip', gone, eqBlks, dir', agrees'⟩ := @remove_agrees hash ip ip.blocks
    (dp :: back) ({ dp with d_ino := 0 } :: back) [] _ dp b (b * dirblksiz) directory agrees fnd
    newWellFormed (liveFrom_of_live used) (liveFrom_of_unused rfl)
    (by
      rw [freeBytes_cons, freeBytes_cons]
      change dp.d_reclen - 0 + freeBytes back = _
      omega)
  have quo : b * dirblksiz / dirblksiz = b := Nat.mul_div_cancel b (by decide)
  have remainder : b * dirblksiz % dirblksiz = 0 := Nat.mul_mod_left b dirblksiz
  have atStart : seek (dp :: back) 0 = some ([], dp :: back) := @seek_append [] _ nofun
  unfold ufsDirremove
  dsimp only
  rw [Nat.sub_zero, quo, remainder, fnd, bind_some, atStart, bind_some]
  dsimp only
  rw [gone, bind_some, eqBlks]
  refine ⟨_, checkBlockAt_spec dir' agrees' ?_, dir', agrees'⟩
  rw [quo, length_set]
  exact below

/-- Removing a later entry joins it to the one before. -/
theorem ufsDirremove_second {pre back : List Direct} {prior : Direct}
    (fnd : ip.blocks[b]? = some (pre ++ prior :: dp :: back)) (used : dp.d_ino ≠ 0) : ∃ ip',
      ufsDirremove hash ip (b * dirblksiz + reclens pre + prior.d_reclen) prior.d_reclen
        dp.d_reclen = some ip' ∧ Directory ip'.blocks ∧ Agrees hash ip' := by
  have wf := directory.wellFormed _ (mem_of_getElem? fnd)
  obtain ⟨recs, whole⟩ := wf
  have frontRecords : ∀ dp ∈ pre, dp.WellFormed := (forall_mem_append.mp recs).1
  obtain ⟨priorPositive, priorAligned, priorFits⟩ :=
    recs prior (mem_append_right _ mem_cons_self)
  have dpWellFormed : dp.WellFormed :=
    recs dp (mem_append_right _ (mem_cons_of_mem _ mem_cons_self))
  obtain ⟨pos, algn, fits⟩ := dpWellFormed
  have isUse : dp.inUse = dp.dirsiz := if_neg used
  obtain ⟨below, _⟩ := List.getElem?_eq_some_iff.mp fnd
  have sameUse : ({ prior with d_reclen := prior.d_reclen + dp.d_reclen } : Direct).inUse =
      prior.inUse := rfl
  have newWellFormed : BlockWellFormed
      (pre ++ { prior with d_reclen := prior.d_reclen + dp.d_reclen } :: back) := by
    have split : pre ++ [prior, dp] ++ back = pre ++ prior :: dp :: back := by
      rw [append_assoc]
      rfl
    have joined := @replaced_wellFormed pre back [prior, dp]
      [{ prior with d_reclen := prior.d_reclen + dp.d_reclen }] (split ▸ ⟨recs, whole⟩)
      (fun oth isMem => by
        rw [mem_singleton.mp isMem]
        exact ⟨Nat.add_pos_left priorPositive _, Nat.dvd_add priorAligned algn,
          Nat.le_trans (sameUse ▸ priorFits) (Nat.le_add_right _ _)⟩)
      (by rw [reclens_cons, reclens_cons, reclens_cons, reclens_nil, add_zero, add_zero])
    rwa [append_assoc] at joined
  obtain ⟨ip', gone, eqBlks, dir', agrees'⟩ := @remove_agrees hash ip ip.blocks _
    (pre ++ { prior with d_reclen := prior.d_reclen + dp.d_reclen } :: back)
    (liveFrom (pre ++ [prior]) (b * dirblksiz))
    (liveFrom back (b * dirblksiz + reclens pre + prior.d_reclen + dp.d_reclen)) dp b
    (b * dirblksiz + reclens pre + prior.d_reclen) directory agrees fnd newWellFormed
    (by rw [liveFrom_append, liveFrom_append, liveFrom_cons, liveFrom_of_live used,
      append_assoc])
    (by
      rw [liveFrom_append, liveFrom_append, liveFrom_cons, append_assoc]
      rw [add_assoc (b * dirblksiz + reclens pre)]
      rfl)
    (by
      rw [freeBytes_append, freeBytes_append, freeBytes_cons, freeBytes_cons, freeBytes_cons,
        sameUse, isUse]
      change _ + (prior.d_reclen + dp.d_reclen - _ + _) = _
      omega)
  rw [reclens_append, reclens_cons, reclens_cons] at whole
  have back_ : b * dirblksiz + reclens pre + prior.d_reclen - prior.d_reclen =
      b * dirblksiz + reclens pre := Nat.add_sub_cancel _ _
  have quo : (b * dirblksiz + reclens pre) / dirblksiz = b := by
    unfold dirblksiz at whole ⊢
    omega
  have quotient' : (b * dirblksiz + reclens pre + prior.d_reclen) / dirblksiz = b := by
    unfold dirblksiz at whole ⊢
    omega
  have remainder : (b * dirblksiz + reclens pre) % dirblksiz = reclens pre := by
    unfold dirblksiz at whole ⊢
    omega
  have next : seek (dp :: back) dp.d_reclen = some ([dp], back) := by
    have fnd := @seek_append [dp] back fun oth isMem => by
      rw [mem_singleton.mp isMem]
      exact ⟨pos, algn, isUse ▸ fits⟩
    rwa [reclens_cons, reclens_nil, add_zero] at fnd
  unfold ufsDirremove
  dsimp only
  rw [back_, quo, remainder, fnd, bind_some, seek_append frontRecords,
    bind_some]
  dsimp only
  rw [if_neg (ne_of_gt priorPositive), head?_cons, bind_some, gone,
    bind_some, next, bind_some, eqBlks]
  refine ⟨_, checkBlockAt_spec dir' agrees' ?_, dir', agrees'⟩
  rw [quotient', length_set]
  exact below

/-- A removal keeps directory and hash in agreement. -/
theorem ufsDirremove_spec
    (live : (name, offset) ∈ ip.live) (isPrev : IsPrev ip.blocks offset prevoff)
    (hread : ip.direct offset = some dp) : ∃ ip',
      ufsDirremove hash ip offset (calcCount offset prevoff) dp.d_reclen = some ip' ∧
        Directory ip'.blocks ∧ Agrees hash ip' := by
  obtain ⟨b, pre, dp', back, fnd, used, _, isOffset, quo, remainder, isRead'⟩ :=
    record_of_live directory.wellFormed live
  obtain rfl := some.inj (hread.symm.trans isRead')
  have recs := (directory.wellFormed _ (mem_of_getElem? fnd)).records
  by_cases beg : offset % dirblksiz = 0
  · rw [calcCount, if_pos beg]
    have isNil : pre = [] := by
      rcases pre with _ | ⟨fst, tl⟩
      · rfl
      · have pos := (recs fst mem_cons_self).positive
        rw [reclens_cons] at remainder
        omega
    subst isNil
    rw [reclens_nil, add_zero] at isOffset
    rw [isOffset]
    exact ufsDirremove_first directory agrees fnd used _
  rw [calcCount, if_neg beg]
  rcases isPrev with ⟨atStart, _⟩ | ⟨b', front', prior, dp', back', hit', isOffset', isPrev⟩
  · exact absurd atStart beg
  obtain ⟨records', whole'⟩ := directory.wellFormed _ (mem_of_getElem? hit')
  rw [reclens_append, reclens_cons] at whole'
  obtain rfl : b = b' := by
    unfold dirblksiz at *
    omega
  -- Both name the records before the offset in one block.
  have sought := @seek_append pre (dp :: back) (forall_mem_append.mp recs).1
  have sought' := @seek_append (front' ++ [prior]) (dp' :: back') fun oth isMem => by
    apply records'
    rw [append_cons]
    exact mem_append_left _ isMem
  rw [fnd] at hit'
  have samePlace : reclens (front' ++ [prior]) = reclens pre := by
    rw [reclens_append, reclens_cons, reclens_nil]
    omega
  rw [append_assoc, singleton_append, ← some.inj hit', samePlace, sought]
    at sought'
  obtain ⟨isFront, rst⟩ := Prod.mk.inj (some.inj sought')
  obtain ⟨rfl, rfl⟩ := cons.inj rst
  rw [some.inj hit'] at fnd
  have isCount : offset - prevoff = prior.d_reclen := by omega
  rw [isCount, isOffset']
  exact ufsDirremove_second directory agrees fnd used

end

/-! ### Blocks added -/

theorem unused_wellFormed (name : List UInt8) : BlockWellFormed [⟨0, dirblksiz, name⟩] where
  records := by
    intro dp isMem
    rw [mem_singleton.mp isMem]
    exact ⟨Nat.zero_lt_succ 511, ⟨128, rfl⟩, Nat.zero_le _⟩
  whole := by rw [reclens_cons, reclens_nil, add_zero]

theorem newblk_agrees (directory : Directory blocks) (agrees : Agrees hash ⟨blocks, ip.i_dirhash⟩)
    (name : List UInt8) : ∃ ip', ufsdirhashNewblk ip (blocks.length * dirblksiz) = some ip' ∧
      ip'.blocks = ip.blocks ∧
      dirLive (blocks ++ [[⟨0, dirblksiz, name⟩]]) 0 = dirLive blocks 0 ∧
      Directory (blocks ++ [[⟨0, dirblksiz, name⟩]]) ∧
      Agrees hash ⟨blocks ++ [[⟨0, dirblksiz, name⟩]], ip'.i_dirhash⟩ := by
  have same : dirLive (blocks ++ [[⟨0, dirblksiz, name⟩]]) 0 = dirLive blocks 0 := by
    rw [dirLive_append, dirLive, dirLive, liveFrom_of_unused rfl, liveFrom, append_nil,
      append_nil]
  obtain ⟨ip', grown, eqBlks, keeps⟩ := @ufsdirhashNewblk_keeps hash ip (dirLive blocks 0)
    (freeWords blocks) blocks.length agrees (freeWords (blocks ++ [[⟨0, dirblksiz, name⟩]]))
    (fun b below => by rw [freeWords, freeWords, getElem?_append_left below])
    (by
      rw [freeWords, List.getElem?_append_right (Nat.le_refl _), Nat.sub_self]
      rfl)
  refine ⟨ip', grown, eqBlks, same, ⟨?_, by rw [same]; exact directory.names⟩, ?_⟩
  · intro block isMem
    cases mem_append.mp isMem with
    | inl old => exact directory.wellFormed block old
    | inr last =>
      rw [mem_singleton.mp last]
      exact unused_wellFormed name
  · unfold Agrees Inode.live
    rw [same, length_append]
    exact keeps

theorem growUnused_spec (directory : Directory ip.blocks) (agrees : Agrees hash ip)
    (name : List UInt8) : ∃ ip', growUnused ip name = some ip' ∧
      Directory ip'.blocks ∧ Agrees hash ip' := by
  obtain ⟨ip', grown, eqBlks, _, dir', agrees'⟩ :=
    @newblk_agrees hash { ip with blocks := ip.blocks ++ [[⟨0, dirblksiz, name⟩]] } ip.blocks
      directory agrees name
  change ip'.blocks = ip.blocks ++ [[⟨0, dirblksiz, name⟩]] at eqBlks
  rw [← eqBlks] at dir' agrees'
  exact ⟨ip', grown, dir', agrees'⟩

/-- A grown directory agrees with its hash. -/
theorem ufsDirgrow_spec (directory : Directory ip.blocks) (agrees : Agrees hash ip)
    (used : dirp.d_ino ≠ 0) (fits : dirp.dirsiz ≤ dirblksiz)
    (fresh : dirp.d_name ∉ ip.live.map Prod.fst) : ∃ ip', ufsDirgrow hash ip dirp = some ip' ∧
      Directory ip'.blocks ∧ Agrees hash ip' := by
  have isUse : ({ dirp with d_reclen := dirblksiz } : Direct).inUse = dirp.dirsiz := if_neg used
  obtain ⟨ip₁, grown, eqBlks, sameLive, directory₁, agrees₁⟩ :=
    @newblk_agrees hash { ip with blocks := ip.blocks ++ [[{ dirp with d_reclen := dirblksiz }]] }
      ip.blocks directory agrees []
  have fnd : (ip.blocks ++ [[(⟨0, dirblksiz, []⟩ : Direct)]])[ip.blocks.length]? =
      some [⟨0, dirblksiz, []⟩] := by
    rw [List.getElem?_append_right (Nat.le_refl _), Nat.sub_self]
    rfl
  have isSet : (ip.blocks ++ [[(⟨0, dirblksiz, []⟩ : Direct)]]).set ip.blocks.length
      [{ dirp with d_reclen := dirblksiz }] =
      ip.blocks ++ [[{ dirp with d_reclen := dirblksiz }]] := by
    rw [set_append_right _ _ (Nat.le_refl _), Nat.sub_self]
    rfl
  obtain ⟨ip₂, added, sameBlocks₂, directory₂, agrees₂⟩ :=
    @add_agrees hash ip₁ (ip.blocks ++ [[⟨0, dirblksiz, []⟩]]) [⟨0, dirblksiz, []⟩]
      [{ dirp with d_reclen := dirblksiz }] [] [] { dirp with d_reclen := dirblksiz }
      ip.blocks.length (ip.blocks.length * dirblksiz) directory₁ agrees₁ fnd
      { records := by
          intro dp isMem
          rw [mem_singleton.mp isMem]
          exact ⟨Nat.zero_lt_succ 511, ⟨128, rfl⟩, isUse ▸ fits⟩
        whole := by rw [reclens_cons, reclens_nil, add_zero] }
      (liveFrom_of_unused rfl) (liveFrom_of_live used) (by rw [sameLive]; exact fresh)
      (by
        rw [freeBytes_cons, isUse]
        change dirblksiz - dirp.dirsiz + 0 + dirp.dirsiz = dirblksiz - 0 + 0
        omega)
  rw [isSet] at directory₂ agrees₂
  change ip₁.blocks = ip.blocks ++ [[{ dirp with d_reclen := dirblksiz }]] at eqBlks
  rw [← eqBlks, ← sameBlocks₂] at directory₂ agrees₂
  have lt : ip.i_size / dirblksiz < ip₂.blocks.length := by
    rw [Inode.i_size, Nat.mul_div_cancel _ (by decide), sameBlocks₂, eqBlks, length_append]
    exact Nat.lt_succ_self _
  refine ⟨ip₂, ?_, directory₂, agrees₂⟩
  unfold ufsDirgrow
  dsimp only
  rw [Inode.i_size, grown, bind_some, added]
  exact checkBlockAt_spec directory₂ agrees₂ lt

/-! ### Blocks cut off -/

theorem unused_iff (wf : BlockWellFormed block) :
    freeBytes block = dirblksiz ↔ ∀ dp ∈ block, dp.d_ino = 0 := by
  obtain ⟨recs, whole⟩ := wf
  rw [← whole]
  clear whole
  induction block with
  | nil => exact ⟨nofun, fun _ => rfl⟩
  | cons dp tl ih =>
    have here := recs dp mem_cons_self
    have tail := ih (forall_mem_cons.mp recs).2
    have upTo := freeBytes_le tl
    have fits := here.fits
    rw [freeBytes_cons, reclens_cons, forall_mem_cons, ← tail]
    by_cases fresh : dp.d_ino = 0
    · have noUse : dp.inUse = 0 := if_pos fresh
      omega
    have isUse : dp.inUse = dp.dirsiz := if_neg fresh
    have size := le_dirsiz dp
    constructor
    · intro whole
      omega
    · intro both
      exact absurd both.1 fresh

theorem liveFrom_unused {pos : Nat} (fresh : ∀ dp ∈ block, dp.d_ino = 0) :
    liveFrom block pos = [] := by
  induction block generalizing pos with
  | nil => rfl
  | cons dp tl ih =>
    rw [liveFrom_of_unused (fresh dp mem_cons_self)]
    exact ih (forall_mem_cons.mp fresh).2

theorem dirLive_take (fresh : UnusedFrom blocks n) :
    dirLive (blocks.take n) 0 = dirLive blocks 0 := by
  have whole : dirLive (blocks.take n ++ blocks.drop n) 0 = dirLive blocks 0 := by
    rw [take_append_drop]
  rw [dirLive_append] at whole
  have noNames : ∀ pos, dirLive (blocks.drop n) pos = [] := by
    intro pos
    refine eq_nil_iff_forall_not_mem.mpr fun e isMem => ?_
    obtain ⟨i, block, fnd, live⟩ := mem_dirLive.mp isMem
    rw [getElem?_drop] at fnd
    rw [liveFrom_unused (fresh _ block (Nat.le_add_right n i) fnd)] at live
    cases live
  rw [← whole, noNames, append_nil]

theorem ufsTruncate_spec (directory : Directory ip.blocks) (agrees : Agrees hash ip)
    (fresh : UnusedFrom ip.blocks n) : ∃ ip', ufsTruncate ip (n * dirblksiz) = some ip' ∧
      Directory ip'.blocks ∧ Agrees hash ip' := by
  unfold ufsTruncate
  by_cases cuts : n * dirblksiz ≠ 0 ∧ n * dirblksiz < ip.i_size
  · rw [if_pos cuts]
    have fewer : n ≤ ip.blocks.length :=
      Nat.le_of_lt (Nat.lt_of_mul_lt_mul_right cuts.2)
    obtain ⟨ip', truncated, eqBlks, keeps⟩ := @ufsdirhashDirtrunc_keeps hash ip ip.live
      (freeWords ip.blocks) ip.blocks.length agrees n fewer
      (fun b from_ below => by
        have fnd := getElem?_eq_getElem below
        have wf := directory.wellFormed _ (mem_of_getElem? fnd)
        rw [freeWords_of_getElem? fnd, (unused_iff wf).mpr (fresh b _ from_ fnd)])
    rw [truncated, howmany_mul]
    refine ⟨_, rfl, ⟨?_, ?_⟩, ?_⟩
    · intro block isMem
      change block ∈ ip'.blocks.take n at isMem
      rw [eqBlks] at isMem
      exact directory.wellFormed block (mem_of_mem_take isMem)
    · change ((dirLive (ip'.blocks.take n) 0).map Prod.fst).Nodup
      rw [eqBlks, dirLive_take fresh]
      exact directory.names
    · intro dh isHash
      obtain ⟨idxd, len⟩ := keeps dh isHash
      change Indexed hash dh (dirLive (ip'.blocks.take n) 0) (freeWords (ip'.blocks.take n)) ∧
        dh.dh_dirblks = (ip'.blocks.take n).length
      rw [eqBlks, dirLive_take fresh, length_take_of_le fewer]
      refine ⟨idxd.congr (fun _ => Iff.rfl) fun b below => ?_, len⟩
      rw [freeWords, freeWords, getElem?_take_of_lt (len ▸ below)]
  · rw [if_neg cuts]
    exact ⟨ip, rfl, directory, agrees⟩

/-- Where the unused blocks at the end begin; none is told when the last one is used. -/
def IsEnduseful (blocks : List (List Direct)) : Option Nat → Prop
  | none => ¬ UnusedFrom blocks (blocks.length - 1)
  | some enduseful => ∃ n < blocks.length, enduseful = n * dirblksiz ∧ UnusedFrom blocks n ∧
      ∀ m < n, ¬ UnusedFrom blocks m

theorem endusefulLoop_spec {blkfree : Nat → Nat} (directory : Directory blocks)
    (isBlkfree : ∀ b < blocks.length, blkfree b = freeWords blocks b) (upTo : n ≤ blocks.length)
    (fresh : UnusedFrom blocks n) : UnusedFrom blocks (endusefulLoop blkfree n) ∧
      endusefulLoop blkfree n ≤ n ∧ ∀ m < endusefulLoop blkfree n, ¬ UnusedFrom blocks m := by
  induction n with
  | zero => exact ⟨fresh, le_refl 0, nofun⟩
  | succ n ih =>
    have fnd := getElem?_eq_getElem upTo
    have wf := directory.wellFormed _ (mem_of_getElem? fnd)
    have free := freeWords_mul directory.wellFormed fnd
    rw [← isBlkfree n upTo] at free
    rw [endusefulLoop]
    by_cases inUse : blkfree n ≠ dirblksiz / diralign
    · rw [if_pos inUse]
      refine ⟨fresh, le_refl _, fun m below isUnused => inUse ?_⟩
      have whole := (unused_iff wf).mpr (isUnused n _ (Nat.lt_succ_iff.mp below) fnd)
      unfold diralign dirblksiz at *
      omega
    rw [if_neg inUse]
    rw [not_not.mp inUse] at free
    obtain ⟨isUnused, below, least⟩ := ih (Nat.le_of_succ_le upTo) (by
      intro b block from_ blk
      by_cases last : b = n
      · subst last
        rw [fnd] at blk
        obtain rfl := some.inj blk
        exact (unused_iff wf).mp free.symm
      · exact fresh b block (by omega) blk)
    exact ⟨isUnused, Nat.le_succ_of_le below, least⟩

/-- The blocks behind the answer are all free. -/
theorem ufsdirhashEnduseful_spec {dh : Dirhash} (directory : Directory ip.blocks)
    (isHash : ip.i_dirhash = some dh)
    (idxd : Indexed hash dh ip.live (freeWords ip.blocks))
    (len : dh.dh_dirblks = ip.blocks.length) : ∃ enduseful,
      ufsdirhashEnduseful ip = some enduseful ∧ IsEnduseful ip.blocks enduseful := by
  have pos := idxd.positive
  have isBlkfree := idxd.summarised.blkfree
  rw [len] at pos isBlkfree
  have last : ip.blocks.length - 1 < ip.blocks.length := by omega
  have fnd := getElem?_eq_getElem last
  have wf := directory.wellFormed _ (mem_of_getElem? fnd)
  have free := freeWords_mul directory.wellFormed fnd
  rw [← isBlkfree _ last] at free
  unfold ufsdirhashEnduseful
  simp only [isHash, len]
  rw [if_neg (ne_of_gt pos)]
  by_cases inUse : dh.dh_blkfree (ip.blocks.length - 1) ≠ dirblksiz / diralign
  · rw [if_pos inUse]
    refine ⟨none, rfl, fun isUnused => inUse ?_⟩
    have whole := (unused_iff wf).mpr (isUnused _ _ (le_refl _) fnd)
    rw [whole] at free
    unfold diralign dirblksiz at *
    omega
  rw [if_neg inUse]
  obtain ⟨length, isSucc⟩ : ∃ length, ip.blocks.length = length + 1 :=
    ⟨ip.blocks.length - 1, by omega⟩
  obtain ⟨isUnused, _, least⟩ := endusefulLoop_spec directory isBlkfree (le_refl _) (by
      intro b block from_ blk
      rw [getElem?_eq_none from_] at blk
      cases blk)
  refine ⟨_, rfl, _, ?_, rfl, isUnused, least⟩
  -- The last block is unused, so the loop passes it.
  by_contra far
  refine least (ip.blocks.length - 1) (by omega) fun b block from_ blk => ?_
  have below := (List.getElem?_eq_some_iff.mp blk).1
  obtain rfl : b = ip.blocks.length - 1 := by omega
  rw [fnd] at blk
  obtain rfl := some.inj blk
  rw [not_not.mp inUse] at free
  exact (unused_iff wf).mp free.symm

end Change

end NetBSD.Ufs.UfsDirhash
