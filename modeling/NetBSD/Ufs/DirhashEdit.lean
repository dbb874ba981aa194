import NetBSD.Ufs.DirhashSearch

/-!
Owns the building of the directory hash. The pass over the records extends the
names it has indexed by the next one; the free words of a block are those of the
records passed and all bytes of those to come. The table is made with more slots
than the directory can have names.
-/

namespace NetBSD.Ufs.UfsDirhash

open NetBSD.Machine Function List

theorem Summarised.congr {blkfree : Nat → Nat} {nblk dirblks : Nat} {firstfree : Nat → Option Nat}
    {words words' : Nat → Nat} (summ : Summarised blkfree nblk dirblks firstfree words)
    (same : ∀ b < dirblks, words' b = words b) :
    Summarised blkfree nblk dirblks firstfree words' where
  within := summ.within
  blkfree := fun b below => by rw [same b below, summ.blkfree b below]
  bounded := fun b below => by rw [same b below]; exact summ.bounded b below
  firstfree := fun c upTo =>
    (summ.firstfree c upTo).congr fun b below => by rw [same b below]

theorem Indexed.congr {hash : List UInt8 → Nat} {dh : Dirhash}
    {live live' : List (List UInt8 × Nat)}
    {words words' : Nat → Nat} (idxd : Indexed hash dh live words)
    (sameNames : ∀ e, e ∈ live' ↔ e ∈ live) (sameWords : ∀ b < dh.dh_dirblks, words' b = words b) :
    Indexed hash dh live' words' where
  hashed := idxd.hashed.congr sameNames
  summarised := idxd.summarised.congr sameWords
  __ := idxd

section Sizes

variable {block : List Direct} {blocks : List (List Direct)} {pos : Nat}

theorem le_dirsiz (dp : Direct) : 12 ≤ dp.dirsiz := by
  unfold Direct.dirsiz directsiz
  omega

theorem liveFrom_length (recs : ∀ dp ∈ block, dp.WellFormed) :
    (liveFrom block pos).length * 12 ≤ reclens block := by
  induction block generalizing pos with
  | nil => exact Nat.zero_le _
  | cons dp tl ih =>
    have fits := (recs dp mem_cons_self).fits
    have tail := @ih (pos + dp.d_reclen) (forall_mem_cons.mp recs).2
    rw [reclens_cons]
    by_cases fresh : dp.d_ino = 0
    · rw [liveFrom_of_unused fresh]
      omega
    · have size := le_dirsiz dp
      rw [Direct.inUse, if_neg fresh] at fits
      rw [liveFrom_of_live fresh, length_cons]
      omega

theorem dirLive_length (wellFormed : ∀ block ∈ blocks, BlockWellFormed block) :
    (dirLive blocks pos).length * 12 ≤ blocks.length * dirblksiz := by
  induction blocks generalizing pos with
  | nil => exact Nat.zero_le _
  | cons block tl ih =>
    obtain ⟨recs, whole⟩ := wellFormed block mem_cons_self
    have here := @liveFrom_length block pos recs
    have tail := @ih (pos + dirblksiz) (forall_mem_cons.mp wellFormed).2
    rw [dirLive, length_append, length_cons]
    unfold dirblksiz at *
    omega

end Sizes

section Build

variable {hash : List UInt8 → Nat} {dh : Dirhash} {live : List (List UInt8 × Nat)}
  {words : Nat → Nat} {b pos passed : Nat}

/-- One block's entries go into the hash. -/
theorem buildLoop_spec {tl : List Direct} (idxd : Indexed hash dh live words)
    (lt : b < dh.dh_dirblks) (recs : ∀ dp ∈ tl, dp.WellFormed)
    (tail : b * dirblksiz ≤ pos) (toEnd : pos + reclens tl = b * dirblksiz + dirblksiz)
    (hfr : words b * diralign = passed + reclens tl) (prev : ∀ e ∈ live, e.2 < pos)
    (rm : dh.dh_hused + (liveFrom tl pos).length < dh.dh_hlen) :
    ∃ table hused blkfree firstfree w, buildLoop hash dh tl pos = some (some { dh with
        dh_hash := table, dh_hused := hused, dh_blkfree := blkfree, dh_firstfree := firstfree }) ∧
      Indexed hash { dh with
        dh_hash := table, dh_hused := hused, dh_blkfree := blkfree, dh_firstfree := firstfree }
        (live ++ liveFrom tl pos) (update words b w) ∧
      w * diralign = passed + freeBytes tl ∧
      hused = dh.dh_hused + (liveFrom tl pos).length := by
  induction tl generalizing dh live words pos passed with
  | nil =>
    refine ⟨dh.dh_hash, dh.dh_hused, dh.dh_blkfree, dh.dh_firstfree, words b, rfl, ?_, hfr, ?_⟩
    · rw [liveFrom, append_nil, update_eq_self]
      exact idxd
    · rw [liveFrom, length_nil, Int.natCast_zero, add_zero]
  | cons ep tl ih =>
    obtain ⟨pos', ⟨size, algn⟩, fits⟩ := recs ep mem_cons_self
    have oths : ∀ dp ∈ tl, dp.WellFormed := (forall_mem_cons.mp recs).2
    rw [reclens_cons] at toEnd hfr
    have sound : ¬ (ep.d_reclen = 0 ∨ dirblksiz - pos % dirblksiz < ep.d_reclen) := by
      unfold dirblksiz at tail toEnd ⊢
      omega
    rw [buildLoop, if_neg sound]
    by_cases fresh : ep.d_ino = 0
    · rw [if_neg (not_not.mpr fresh)]
      rw [liveFrom_of_unused fresh] at rm ⊢
      have noUse : ep.inUse = 0 := if_pos fresh
      have sum : passed + freeBytes (ep :: tl) = passed + ep.d_reclen + freeBytes tl := by
        rw [freeBytes_cons, noUse, Nat.sub_zero, Nat.add_assoc]
      rw [sum]
      exact ih idxd lt oths (by omega) (by omega)
        (hfr.trans (by omega)) (fun e isMem => by have := prev e isMem; omega) rm
    have isUse : ep.inUse = ep.dirsiz := if_neg fresh
    rw [isUse] at fits
    rw [liveFrom_of_live fresh, length_cons] at rm
    rw [if_pos fresh]
    obtain ⟨hashed, summ, any, wide⟩ := idxd
    have cnt := hashed.count
    have quo : pos / dirblksiz = b := by
      unfold dirblksiz at tail toEnd ⊢
      omega
    -- The slot is empty, so it is free and counts once more.
    obtain ⟨slot, below, found, stops, reach⟩ := exists_free_slot hashed ep.d_name
      (fun slot => dh.dh_hash slot == .empty) fun i _ emp => by rw [emp]; rfl
    have emp : dh.dh_hash slot = .empty := eq_of_beq stops
    have insd := hashed.insert below (by rw [emp]; rfl) reach
      (fun k isLive => lt_irrefl pos (prev _ isLive)) (by omega)
    rw [if_pos emp] at insd
    obtain ⟨units, isUnits⟩ : ∃ units, ep.dirsiz = units * diralign := by
      obtain ⟨units, isUnits⟩ := inUse_aligned ep
      exact ⟨units, by rw [← isUse, isUnits, mul_comm]⟩
    have quarter : ep.dirsiz / diralign = units := by
      rw [isUnits, Nat.mul_div_cancel _ (by decide)]
    obtain ⟨w, taken⟩ : ∃ w, w + units = words b := by
      refine ⟨words b - units, Nat.sub_add_cancel ?_⟩
      unfold diralign at isUnits hfr
      omega
    obtain ⟨blkfree, firstfree, adjusted, summarised'⟩ := @ufsdirhashAdjfree_spec { dh with
        dh_hused := dh.dh_hused + 1
        dh_hash := update dh.dh_hash slot (.used pos) }
      words pos w (-ep.dirsiz) summ (quo.symm ▸ lt)
      (by
        rw [(tdiv_dirsiz ep).2, quo, quarter, ← taken, Int.natCast_add]
        exact Int.add_neg_cancel_right _ _)
      (Nat.le_trans (taken ▸ Nat.le_add_right w _) (summ.bounded b lt))
    rw [ufsdirhashHash, found, Option.bind_some, adjusted, Option.bind_some]
    rw [quo] at summarised'
    have step : Indexed hash { dh with
        dh_hash := update dh.dh_hash slot (.used pos), dh_hused := dh.dh_hused + 1,
        dh_blkfree := blkfree, dh_firstfree := firstfree }
        ((ep.d_name, pos) :: live) (update words b w) :=
      ⟨insd, summarised', any, wide⟩
    obtain ⟨table, hused, blkfree', firstfree', w', built, indexed', isWords, used⟩ :=
      @ih _ _ _ (pos + ep.d_reclen) (passed + (ep.d_reclen - ep.dirsiz)) step
        lt oths (by omega) (by omega)
        (by
          rw [update_self]
          unfold diralign at isUnits hfr ⊢
          omega)
        (fun e isMem => by
          cases mem_cons.mp isMem with
          | inl here => rw [here]; exact Nat.lt_add_of_pos_right pos'
          | inr old => have := prev e old; omega)
        (by
          change dh.dh_hused + 1 + _ < (dh.dh_hlen : Int)
          push_cast at rm
          omega)
    refine ⟨table, hused, blkfree', firstfree', w', built, ?_, ?_, ?_⟩
    · rw [update_idem] at indexed'
      refine indexed'.congr (fun e => ?_) fun _ _ => rfl
      rw [liveFrom_of_live fresh]
      simp only [mem_append, mem_cons]
      tauto
    · rw [isWords, freeBytes_cons, isUse, add_assoc]
    · rw [used, liveFrom_of_live fresh, length_cons]
      push_cast
      omega

/-- The free words while blocks are still to be read: all words of those. -/
def wordsUpTo (blocks : List (List Direct)) (n b : Nat) : Nat :=
  if b < n then freeWords blocks b else dirblksiz / diralign

/-- The hash built block by block indexes the directory. -/
theorem buildBlocks_spec {pre tl : List (List Direct)}
    (wellFormed : ∀ block ∈ pre ++ tl, BlockWellFormed block)
    (idxd : Indexed hash dh (dirLive pre 0) (wordsUpTo (pre ++ tl) pre.length))
    (len : dh.dh_dirblks = (pre ++ tl).length)
    (rm : dh.dh_hused + (dirLive tl (pre.length * dirblksiz)).length < dh.dh_hlen) : ∃ dh',
      buildBlocks hash dh tl (pre.length * dirblksiz) = some (some dh') ∧
        Indexed hash dh' (dirLive (pre ++ tl) 0) (freeWords (pre ++ tl)) ∧
        dh'.dh_dirblks = dh.dh_dirblks := by
  induction tl generalizing dh pre with
  | nil =>
    refine ⟨dh, rfl, ?_, rfl⟩
    rw [append_nil] at idxd len ⊢
    refine idxd.congr (fun _ => Iff.rfl) fun b below => ?_
    rw [wordsUpTo, if_pos (len ▸ below)]
  | cons block tl ih =>
    obtain ⟨recs, whole⟩ :=
      wellFormed block (mem_append_right _ mem_cons_self)
    obtain ⟨_, inF⟩ := @dirLive_sorted pre 0 (forall_mem_append.mp wellFormed).1
    have found : (pre ++ block :: tl)[pre.length]? = some block := by
      rw [List.getElem?_append_right (Nat.le_refl _), Nat.sub_self]
      rfl
    rw [dirLive, length_append] at rm
    obtain ⟨table, hused, blkfree, firstfree, w, built, indexed', isWords, used⟩ :=
      @buildLoop_spec hash dh _ _ pre.length (pre.length * dirblksiz) 0 block idxd
        (by rw [len, length_append, length_cons]; omega) recs (le_refl _)
        (by rw [whole])
        (by
          rw [wordsUpTo, if_neg (lt_irrefl _), whole]
          rfl)
        (fun e isMem => by have := (inF e isMem).2; omega) (by omega)
    rw [buildBlocks, built]
    have sameList : pre ++ block :: tl = pre ++ [block] ++ tl := by
      rw [append_assoc, singleton_append]
    have eqLen : (pre ++ [block]).length = pre.length + 1 := by
      rw [length_append, length_singleton]
    have nextPos : pre.length * dirblksiz + dirblksiz =
        (pre ++ [block]).length * dirblksiz := by
      rw [eqLen, add_mul, one_mul]
    rw [sameList] at wellFormed len ⊢
    rw [nextPos] at rm ⊢
    refine ih wellFormed (indexed'.congr (fun e => ?_) fun b _ => ?_) len ?_
    · rw [dirLive_append, zero_add, dirLive, dirLive, append_nil]
    · rw [← sameList, eqLen]
      by_cases last : b = pre.length
      · have blk := freeWords_mul (by rwa [sameList]) found
        rw [last, update_self, wordsUpTo, if_pos (Nat.lt_succ_self _)]
        unfold diralign at isWords blk
        omega
      · rw [update_of_ne last, wordsUpTo, wordsUpTo]
        by_cases old : b < pre.length
        · rw [if_pos old, if_pos (by omega)]
        · rw [if_neg old, if_neg (by omega)]
    · change hused + _ < (dh.dh_hlen : Int)
      omega

/-- The table that the building begins with has all blocks free, and more slots than names. -/
theorem buildStart_indexed {blocks : Nat} (suff : dirhashminblks ≤ blocks) :
    Indexed hash (buildStart (blocks * dirblksiz)) [] (fun _ => dirblksiz / diralign) ∧
      (buildStart (blocks * dirblksiz)).dh_dirblks = blocks ∧
      blocks * dirblksiz / 12 < (buildStart (blocks * dirblksiz)).dh_hlen := by
  have least : 5 ≤ blocks := suff
  have dirblocks : howmany (blocks * dirblksiz) dirblksiz = blocks := howmany_mul blocks
  have noneFilled : ∀ n, filled (fun _ => (Slot.empty : Slot Nat)) n = 0 := by
    intro n
    induction n with
    | zero => rfl
    | succ n ih =>
      rw [filled, ih]
      rfl
  have slots : blocks * dirblksiz / 12 < (buildStart (blocks * dirblksiz)).dh_hlen := by
    have twelve : directsiz 1 = 12 := by decide
    change _ < howmany ((blocks * dirblksiz / directsiz 1 * 3 + 1) / 2) dhNblkoff * dhNblkoff
    rw [twelve]
    unfold howmany dhNblkoff dirblksiz
    omega
  have hused : (buildStart (blocks * dirblksiz)).dh_hused = 0 := rfl
  have fresh (s o : Nat) : (buildStart (blocks * dirblksiz)).dh_hash s ≠ .used o := by
    intro used
    cases used
  refine ⟨⟨⟨fun s _ o used => absurd used (fresh s o),
      fun k o isLive => absurd isLive not_mem_nil,
      fun s _ _ _ o used => absurd used (fresh s o), ?_, ?_⟩, ⟨?_, ?_, fun _ _ => le_refl _, ?_⟩, ?_, ?_, ?_⟩,
    dirblocks, slots⟩
  · rw [hused]
    exact (congrArg Int.ofNat (noneFilled _)).symm
  · exact lt_of_le_of_lt (le_of_eq (noneFilled _)) (Nat.zero_lt_of_lt slots)
  · change howmany _ _ ≤ (howmany _ _ * 3 + 1) / 2
    omega
  · intro b below
    exact if_pos below
  · intro c upTo
    change IsLowest _ (howmany _ _) (if c = dhNfstats then some 0 else none)
    by_cases whole : c = dhNfstats
    · rw [whole]
      exact ⟨by omega, blkfree2idx_whole, fun _ below => absurd below (Nat.not_lt_zero _)⟩
    · rw [if_neg whole]
      exact fun b _ isClass => whole (isClass.symm.trans blkfree2idx_whole)
  · change 0 < howmany _ _
    omega
  · change 8 ≤ (howmany _ _ * 3 + 1) / 2
    omega
  · have twelve : directsiz 1 = 12 := by decide
    change 1 < howmany ((blocks * dirblksiz / directsiz 1 * 3 + 1) / 2) dhNblkoff
    rw [twelve]
    unfold howmany dhNblkoff dirblksiz
    omega

/-- A hash that is built agrees with the directory. -/
theorem ufsdirhashBuild_agrees {ip : Inode} (available : Bool) (directory : Directory ip.blocks)
    (agrees : Agrees hash ip) : ∃ ip',
      ufsdirhashBuild hash available ip = some (ip'.i_dirhash.isSome, ip') ∧
        ip'.blocks = ip.blocks ∧ Agrees hash ip' := by
  unfold ufsdirhashBuild
  by_cases sml : ip.i_size < dirhashminblks * dirblksiz
  · rw [if_pos sml]
    exact ⟨{ ip with i_dirhash := none }, rfl, rfl, keeps_none rfl⟩
  rw [if_neg sml]
  cases isHash : ip.i_dirhash with
  | some dh =>
    exact ⟨ip, by rw [isHash]; rfl, rfl, agrees⟩
  | none =>
    cases available with
    | false => exact ⟨ip, by rw [isHash]; rfl, rfl, agrees⟩
    | true =>
      have suff : dirhashminblks ≤ ip.blocks.length :=
        Nat.le_of_mul_le_mul_right (Nat.le_of_not_lt sml) (by decide)
      obtain ⟨beg, len, slots⟩ := @buildStart_indexed hash _ suff
      have names := @dirLive_length ip.blocks 0 directory.wellFormed
      obtain ⟨dh', built, idxd, isDirblks⟩ :=
        @buildBlocks_spec hash (buildStart ip.i_size) [] ip.blocks directory.wellFormed
          (beg.congr (fun _ => Iff.rfl) fun b _ => if_neg (Nat.not_lt_zero b)) len
          (by
            change (0 : Int) + _ < _
            unfold Inode.i_size
            rw [length_nil, zero_mul]
            omega)
      rw [length_nil, zero_mul] at built
      rw [Bool.not_true, built]
      refine ⟨{ ip with i_dirhash := some dh' }, rfl, rfl, ?_⟩
      intro dh hsome
      cases hsome
      exact ⟨idxd, isDirblks.trans len⟩

end Build

/-!
### One block replaced

The replacement of one block of a directory and the call that keeps the hash
in agreement with it. The offsets of both directories increase, so the name that
the blocks differ in has an offset of its own in each.
-/

section Lists

variable {pre back : List (List UInt8 × Nat)} {k : List UInt8} {o n : Nat} {e : List UInt8 × Nat}

theorem fresh_of_sorted (sort : ((pre ++ (k, o) :: back).map Prod.snd).Pairwise (· < ·))
    (isMem : e ∈ pre ++ back) : e.2 ≠ o := by
  rw [map_append, map_cons, pairwise_append, pairwise_cons] at sort
  obtain ⟨_, ⟨later, _⟩, old⟩ := sort
  cases mem_append.mp isMem with
  | inl isFront =>
    exact ne_of_lt (old _ (mem_map_of_mem isFront) _ mem_cons_self)
  | inr isBack => exact ne_of_gt (later _ (mem_map_of_mem isBack))

theorem mem_erased (sort : ((pre ++ (k, o) :: back).map Prod.snd).Pairwise (· < ·)) :
    e ∈ pre ++ back ↔ e ∈ pre ++ (k, o) :: back ∧ e.2 ≠ o := by
  constructor
  · intro isMem
    refine ⟨?_, fresh_of_sorted sort isMem⟩
    rw [mem_append, mem_cons]
    cases mem_append.mp isMem with
    | inl isFront => exact .inl isFront
    | inr isBack => exact .inr (.inr isBack)
  intro both
  obtain ⟨isMem, oth⟩ := both
  rw [mem_append, mem_cons] at isMem
  rw [mem_append]
  rcases isMem with isFront | rfl | isBack
  · exact .inl isFront
  · exact absurd rfl oth
  · exact .inr isBack

end Lists

section Blocks

variable {blocks : List (List Direct)} {block new : List Direct} {b : Nat}

theorem dirLive_set (found : blocks[b]? = some block) : ∃ pre back,
    dirLive blocks 0 = pre ++ (liveFrom block (b * dirblksiz) ++ back) ∧
      ∀ new, dirLive (blocks.set b new) 0 = pre ++ (liveFrom new (b * dirblksiz) ++ back) := by
  obtain ⟨below, blk⟩ := List.getElem?_eq_some_iff.mp found
  have replaced : ∀ new, dirLive (blocks.set b new) 0 = dirLive (blocks.take b) 0 ++
      (liveFrom new (b * dirblksiz) ++
        dirLive (blocks.drop (b + 1)) (b * dirblksiz + dirblksiz)) := by
    intro new
    rw [set_eq_take_append_cons_drop, if_pos below, dirLive_append, dirLive,
      length_take_of_le (le_of_lt below), zero_add]
  refine ⟨_, _, ?_, replaced⟩
  rw [← replaced block, ← blk, set_getElem_self]

theorem freeWords_set (found : blocks[b]? = some block) : freeWords (blocks.set b new) =
    update (freeWords blocks) b (freeBytes new / diralign) := by
  obtain ⟨below, _⟩ := List.getElem?_eq_some_iff.mp found
  funext i
  by_cases here : i = b
  · rw [here, update_self, freeWords, getElem?_set_self below]
    rfl
  · rw [update_of_ne here, freeWords, freeWords, getElem?_set_ne (Ne.symm here)]

theorem Directory.replace (directory : Directory blocks) (wellFormed : BlockWellFormed new)
    (names : ((dirLive (blocks.set b new) 0).map Prod.fst).Nodup) :
    Directory (blocks.set b new) where
  wellFormed := by
    intro oth isMem
    cases mem_or_eq_of_mem_set isMem with
    | inl old => exact directory.wellFormed oth old
    | inr isNew => exact isNew ▸ wellFormed
  names := names

end Blocks

section Edits

variable {hash : List UInt8 → Nat} {ip : Inode} {blocks : List (List Direct)}
  {block new : List Direct} {pre back : List (List UInt8 × Nat)} {dirp : Direct} {b o n : Nat}

theorem div_of_live (wellFormed : BlockWellFormed block)
    (isLive : (dirp.d_name, o) ∈ liveFrom block (b * dirblksiz)) : o / dirblksiz = b := by
  have lt := (liveFrom_sorted wellFormed.records).2 _ isLive
  rw [wellFormed.whole] at lt
  unfold dirblksiz at lt ⊢
  omega

theorem below_of_live (wellFormed : BlockWellFormed block) (found : blocks[b]? = some block)
    (isLive : (dirp.d_name, o) ∈ liveFrom block (b * dirblksiz)) :
    o < blocks.length * dirblksiz := by
  obtain ⟨below, _⟩ := List.getElem?_eq_some_iff.mp found
  have lt := (liveFrom_sorted wellFormed.records).2 _ isLive
  rw [wellFormed.whole] at lt
  have upTo := Nat.mul_le_mul_right dirblksiz (Nat.succ_le_of_lt below)
  rw [Nat.succ_mul] at upTo
  exact Nat.lt_of_lt_of_le lt.2 upTo

section

variable (directory : Directory blocks) (agrees : Agrees hash ⟨blocks, ip.i_dirhash⟩)
  (found : blocks[b]? = some block) (wellFormed : BlockWellFormed new)

include directory agrees found wellFormed

theorem same_agrees (sameNames : liveFrom new (b * dirblksiz) = liveFrom block (b * dirblksiz))
    (sameFree : freeBytes new = freeBytes block) :
    dirLive (blocks.set b new) 0 = dirLive blocks 0 ∧ Directory (blocks.set b new) ∧
      Agrees hash ⟨blocks.set b new, ip.i_dirhash⟩ := by
  obtain ⟨prev, tail, isLive, isSet⟩ := dirLive_set found
  have same : dirLive (blocks.set b new) 0 = dirLive blocks 0 := by
    rw [isSet, isLive, sameNames]
  have sameWords : freeWords (blocks.set b new) = freeWords blocks := by
    rw [freeWords_set found, sameFree, ← freeWords_of_getElem? found, update_eq_self]
  refine ⟨same, directory.replace wellFormed (by rw [same]; exact directory.names), ?_⟩
  unfold Agrees Inode.live
  rw [same, sameWords, length_set]
  exact agrees

/-- The hash drops the entry the block dropped. -/
theorem remove_agrees (isOld : liveFrom block (b * dirblksiz) = pre ++ (dirp.d_name, o) :: back)
    (isNew : liveFrom new (b * dirblksiz) = pre ++ back)
    (freed : freeBytes new = freeBytes block + dirp.dirsiz) : ∃ ip',
      ufsdirhashRemove hash ip dirp o = some ip' ∧ ip'.blocks = ip.blocks ∧
        Directory (blocks.set b new) ∧ Agrees hash ⟨blocks.set b new, ip'.i_dirhash⟩ := by
  have oldWellFormed := directory.wellFormed block (mem_of_getElem? found)
  have here : (dirp.d_name, o) ∈ liveFrom block (b * dirblksiz) :=
    isOld ▸ mem_append_right _ mem_cons_self
  have quo := div_of_live oldWellFormed here
  obtain ⟨prev, tail, isLive, isSet⟩ := dirLive_set found
  have isOldList : dirLive blocks 0 =
      (prev ++ pre) ++ (dirp.d_name, o) :: (back ++ tail) := by
    rw [isLive, isOld, append_assoc, append_assoc, cons_append]
  have isNewList : dirLive (blocks.set b new) 0 = (prev ++ pre) ++ (back ++ tail) := by
    rw [isSet, isNew, append_assoc, append_assoc]
  have sort := (@dirLive_sorted blocks 0 directory.wellFormed).1
  rw [isOldList] at sort
  have dir' : Directory (blocks.set b new) := by
    refine directory.replace wellFormed ?_
    have names := directory.names
    rw [isOldList] at names
    rw [isNewList]
    exact names.sublist (((sublist_cons_self _ _).append_left _).map _)
  have whole := wellFormed.whole
  obtain ⟨ip', gone, eqBlks, keeps⟩ := @ufsdirhashRemove_keeps hash ip _
    (dirLive (blocks.set b new) 0) _ _ _ (freeBytes new / diralign) dirp agrees directory.offsets
    (by
      change _ ∈ dirLive blocks 0
      rw [isOldList]
      exact mem_append_right _ mem_cons_self)
    (below_of_live oldWellFormed found here)
    (fun e => by
      change _ ↔ e ∈ dirLive blocks 0 ∧ _
      rw [isNewList, isOldList]
      exact mem_erased sort)
    (by
      obtain ⟨units, isUnits⟩ := freeBytes_aligned oldWellFormed.records
      rw [quo, freeWords_of_getElem? found, freed, isUnits, Nat.mul_add_div (by decide),
        Nat.mul_div_cancel_left _ (by decide)])
    (Nat.div_le_div_right (whole ▸ freeBytes_le new))
  refine ⟨ip', gone, eqBlks, dir', ?_⟩
  rw [quo] at keeps
  unfold Agrees Inode.live
  rw [freeWords_set found, length_set]
  exact keeps

/-- The hash follows an entry moved in its block. -/
theorem move_agrees (isOld : liveFrom block (b * dirblksiz) = pre ++ (dirp.d_name, o) :: back)
    (isNew : liveFrom new (b * dirblksiz) = pre ++ (dirp.d_name, n) :: back)
    (sameFree : freeBytes new = freeBytes block) : ∃ ip',
      ufsdirhashMove hash ip dirp o n = some ip' ∧ ip'.blocks = ip.blocks ∧
        (dirLive (blocks.set b new) 0).map Prod.fst = (dirLive blocks 0).map Prod.fst ∧
        Directory (blocks.set b new) ∧ Agrees hash ⟨blocks.set b new, ip'.i_dirhash⟩ := by
  have oldWellFormed := directory.wellFormed block (mem_of_getElem? found)
  have here : (dirp.d_name, o) ∈ liveFrom block (b * dirblksiz) :=
    isOld ▸ mem_append_right _ mem_cons_self
  have there : (dirp.d_name, n) ∈ liveFrom new (b * dirblksiz) :=
    isNew ▸ mem_append_right _ mem_cons_self
  obtain ⟨below, _⟩ := List.getElem?_eq_some_iff.mp found
  obtain ⟨prev, tail, isLive, isSet⟩ := dirLive_set found
  have isOldList : dirLive blocks 0 =
      (prev ++ pre) ++ (dirp.d_name, o) :: (back ++ tail) := by
    rw [isLive, isOld, append_assoc, append_assoc, cons_append]
  have isNewList : dirLive (blocks.set b new) 0 =
      (prev ++ pre) ++ (dirp.d_name, n) :: (back ++ tail) := by
    rw [isSet, isNew, append_assoc, append_assoc, cons_append]
  have sameNames : (dirLive (blocks.set b new) 0).map Prod.fst =
      (dirLive blocks 0).map Prod.fst := by
    rw [isNewList, isOldList]
    simp only [map_append, map_cons]
  have dir' : Directory (blocks.set b new) :=
    directory.replace wellFormed (by rw [sameNames]; exact directory.names)
  have sort := (@dirLive_sorted blocks 0 directory.wellFormed).1
  have sorted' := (@dirLive_sorted (blocks.set b new) 0 dir'.wellFormed).1
  rw [isOldList] at sort
  rw [isNewList] at sorted'
  have newInside : n < blocks.length * dirblksiz := by
    rw [← length_set (i := b) (a := new)]
    exact below_of_live wellFormed (getElem?_set_self below) there
  obtain ⟨ip', moved, eqBlks, keeps⟩ := @ufsdirhashMove_keeps hash ip _
    (dirLive (blocks.set b new) 0) _ _ o dirp agrees directory.offsets
    (by
      change _ ∈ dirLive blocks 0
      rw [isOldList]
      exact mem_append_right _ mem_cons_self)
    (below_of_live oldWellFormed found here) n newInside
    (fun k isMem => by
      change _ ∈ dirLive blocks 0 at isMem
      rw [isOldList] at isMem
      by_contra oth
      exact fresh_of_sorted sorted' ((mem_erased sort).mpr ⟨isMem, oth⟩) rfl)
    (fun e => by
      change _ ↔ _ ∨ e ∈ dirLive blocks 0 ∧ _
      rw [isOldList, ← mem_erased sort, isNewList, perm_middle.mem_iff, mem_cons])
  refine ⟨ip', moved, eqBlks, sameNames, dir', ?_⟩
  have sameWords : freeWords (blocks.set b new) = freeWords blocks := by
    rw [freeWords_set found, sameFree, ← freeWords_of_getElem? found, update_eq_self]
  unfold Agrees Inode.live
  rw [sameWords, length_set]
  exact keeps

/-- The hash takes the entry the block took. -/
theorem add_agrees (isOld : liveFrom block (b * dirblksiz) = pre ++ back)
    (isNew : liveFrom new (b * dirblksiz) = pre ++ (dirp.d_name, o) :: back)
    (fresh : dirp.d_name ∉ (dirLive blocks 0).map Prod.fst)
    (taken : freeBytes new + dirp.dirsiz = freeBytes block) : ∃ ip',
      ufsdirhashAdd hash ip dirp o = some ip' ∧ ip'.blocks = ip.blocks ∧
        Directory (blocks.set b new) ∧ Agrees hash ⟨blocks.set b new, ip'.i_dirhash⟩ := by
  have here : (dirp.d_name, o) ∈ liveFrom new (b * dirblksiz) :=
    isNew ▸ mem_append_right _ mem_cons_self
  have quo := div_of_live wellFormed here
  obtain ⟨below, _⟩ := List.getElem?_eq_some_iff.mp found
  obtain ⟨prev, tail, isLive, isSet⟩ := dirLive_set found
  have isOldList : dirLive blocks 0 = (prev ++ pre) ++ (back ++ tail) := by
    rw [isLive, isOld, append_assoc, append_assoc]
  have isNewList : dirLive (blocks.set b new) 0 =
      (prev ++ pre) ++ (dirp.d_name, o) :: (back ++ tail) := by
    rw [isSet, isNew, append_assoc, append_assoc, cons_append]
  have dir' : Directory (blocks.set b new) := by
    refine directory.replace wellFormed ?_
    have names := directory.names
    rw [isOldList] at names fresh
    rw [isNewList, map_append, map_cons, nodup_middle, ← map_append]
    exact nodup_cons.mpr ⟨fresh, names⟩
  have sorted' := (@dirLive_sorted (blocks.set b new) 0 dir'.wellFormed).1
  rw [isNewList] at sorted'
  have lt : o < blocks.length * dirblksiz := by
    rw [← length_set (i := b) (a := new)]
    exact below_of_live wellFormed (getElem?_set_self below) here
  obtain ⟨ip', added, eqBlks, keeps⟩ := @ufsdirhashAdd_keeps hash ip (dirLive blocks 0)
    (freeWords blocks) blocks.length o (freeBytes new / diralign) dirp agrees lt
    (fun k isMem => by
      rw [isOldList] at isMem
      exact fresh_of_sorted sorted' isMem rfl)
    (by
      obtain ⟨units, isUnits⟩ := freeBytes_aligned wellFormed.records
      rw [quo, freeWords_of_getElem? found, ← taken, isUnits, Nat.mul_add_div (by decide),
        Nat.mul_div_cancel_left _ (by decide)])
  refine ⟨ip', added, eqBlks, dir', ?_⟩
  rw [quo] at keeps
  have keeps' : Keeps hash ip' (dirLive (blocks.set b new) 0) _ _ := keeps.congr fun e => by
    rw [isNewList, isOldList, perm_middle.mem_iff]
  unfold Agrees Inode.live
  rw [freeWords_set found, length_set]
  exact keeps'

end

end Edits

end NetBSD.Ufs.UfsDirhash
