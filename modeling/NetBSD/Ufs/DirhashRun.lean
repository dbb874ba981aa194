import NetBSD.Ufs.DirhashChange

/-!
Owns the compaction of a range for a new entry. In the middle of it the block reads
as a directory block again once `ep` is given all bytes up to the next record; each
pass of the loop leaves that block with the same names and free bytes, and moves at
most one name.
-/

namespace NetBSD.Ufs.UfsDirhash

open NetBSD.Machine List Option Compaction

/-- The block in the middle of a compaction, with `ep` up to the records that are left. -/
def Compaction.block (c : Compaction) (front todo back : List Direct) : List Direct :=
  (front ++ c.trimmed) ++ [{ c.ep with d_reclen := c.loc - c.epoff }] ++ (todo ++ back)

/-- The compaction with `nep` copied to the place behind `ep`. -/
def Compaction.next (c : Compaction) (ip : Inode) (nep : Direct) : Compaction where
  ip := ip
  trimmed := c.trimmed ++ c.slot
  ep := nep
  epoff := c.epoff + c.dsize
  dsize := nep.inUse
  spacefree := c.spacefree + (nep.d_reclen - nep.inUse)
  loc := c.loc + nep.d_reclen

/-- The counters of a compaction, with `room` free bytes in the whole range of `count`. -/
structure Counted (c : Compaction) (todo : List Direct) (count room : Nat) : Prop where
  epoff : c.epoff = reclens c.trimmed
  dsize : c.dsize = c.ep.inUse
  loc : (c.loc : Int) = c.epoff + c.dsize + c.spacefree
  spacefree : 0 ≤ c.spacefree
  toEnd : c.loc + reclens todo = count
  free : c.spacefree + freeBytes todo = room

structure Compacting (hash : List UInt8 → Nat) (blocks : List (List Direct)) (b : Nat)
    (front back : List Direct) (c : Compaction) (todo : List Direct) : Prop where
  inside : b < blocks.length
  sameBlocks : c.ip.blocks = blocks
  directory : Directory (blocks.set b (c.block front todo back))
  agrees : Agrees hash ⟨blocks.set b (c.block front todo back), c.ip.i_dirhash⟩
  names : (dirLive (blocks.set b (c.block front todo back)) 0).map Prod.fst =
    (dirLive blocks 0).map Prod.fst

section Records

variable {c : Compaction} {ip : Inode} {nep : Direct} {pre todo back middle : List Direct}
  {count rm pos : Nat}

theorem liveFrom_three : liveFrom (pre ++ middle ++ back) pos =
    liveFrom pre pos ++ (liveFrom middle (pos + reclens pre) ++
      liveFrom back (pos + (reclens pre + reclens middle))) := by
  rw [liveFrom_append, liveFrom_append, reclens_append, append_assoc]

theorem slot_reclens (c : Compaction) : reclens c.slot = c.dsize := by
  unfold slot
  by_cases no : c.dsize = 0
  · rw [no]
    rfl
  · rw [if_neg no, reclens_cons, reclens_nil, add_zero]

theorem slot_wellFormed (hsz : c.dsize = c.ep.inUse) : ∀ dp ∈ c.slot, dp.WellFormed := by
  intro dp isMem
  unfold slot at isMem
  by_cases no : c.dsize = 0
  · rw [if_pos no] at isMem
    cases isMem
  · rw [if_neg no] at isMem
    rw [mem_singleton.mp isMem]
    exact ⟨pos_of_ne_zero no, by rw [hsz]; exact inUse_aligned _, le_of_eq hsz.symm⟩

theorem slot_freeBytes (hsz : c.dsize = c.ep.inUse) : freeBytes c.slot = 0 := by
  unfold slot
  by_cases no : c.dsize = 0
  · rw [if_pos no]
    rfl
  · rw [if_neg no, freeBytes_cons]
    change c.dsize - c.ep.inUse = 0
    rw [hsz, Nat.sub_self]

theorem slot_live (hsz : c.dsize = c.ep.inUse) (reclen : Nat) :
    liveFrom c.slot pos = liveFrom [{ c.ep with d_reclen := reclen }] pos := by
  unfold slot
  by_cases fresh : c.ep.d_ino = 0
  · have no : c.dsize = 0 := hsz.trans (if_pos fresh)
    rw [if_pos no, liveFrom_of_unused (by exact fresh)]
    rfl
  have size := le_dirsiz c.ep
  have any : c.dsize ≠ 0 := by
    rw [hsz, Direct.inUse, if_neg fresh]
    omega
  rw [if_neg any, liveFrom_of_live (by exact fresh), liveFrom_of_live (by exact fresh)]
  rfl

theorem Counted.reach (cnt : Counted c todo count rm) :
    c.epoff ≤ c.loc ∧ c.dsize ≤ c.loc - c.epoff := by
  have loc := cnt.loc
  have spacefree := cnt.spacefree
  omega

theorem Counted.next (cnt : Counted c (nep :: todo) count rm)
    (fits : nep.inUse ≤ nep.d_reclen) : Counted (c.next ip nep) todo count rm where
  epoff := by
    change c.epoff + c.dsize = reclens (c.trimmed ++ c.slot)
    rw [reclens_append, slot_reclens, cnt.epoff]
  dsize := rfl
  loc := by
    have loc := cnt.loc
    change ((c.loc + nep.d_reclen : Nat) : Int) =
      (c.epoff + c.dsize : Nat) + nep.inUse + (c.spacefree + (nep.d_reclen - nep.inUse))
    omega
  spacefree := by
    have spacefree := cnt.spacefree
    change 0 ≤ c.spacefree + (nep.d_reclen - nep.inUse)
    omega
  toEnd := by
    have toEnd := cnt.toEnd
    exact (add_assoc _ _ _).trans toEnd
  free := by
    have free := cnt.free
    rw [freeBytes_cons] at free
    change c.spacefree + (nep.d_reclen - nep.inUse) + freeBytes todo = rm
    omega

theorem block_cons : c.block pre (nep :: todo) back = (pre ++ c.trimmed) ++
    [{ c.ep with d_reclen := c.loc - c.epoff }, nep] ++ (todo ++ back) := by
  simp only [block, append_assoc, cons_append, nil_append]

theorem block_next : (c.next ip nep).block pre todo back = (pre ++ c.trimmed) ++
    (c.slot ++ [{ nep with d_reclen := c.loc + nep.d_reclen - (c.epoff + c.dsize) }]) ++
      (todo ++ back) := by
  simp only [block, Compaction.next, append_assoc]

theorem next_wellFormed (cnt : Counted c (nep :: todo) count rm)
    (wf : BlockWellFormed (c.block pre (nep :: todo) back)) :
    BlockWellFormed ((c.next ip nep).block pre todo back) := by
  obtain ⟨ord, cov⟩ := cnt.reach
  rw [block_cons] at wf
  have isRecord : ∀ dp ∈ [{ c.ep with d_reclen := c.loc - c.epoff }, nep], dp.WellFormed :=
    fun dp isMem => wf.records dp
      (mem_append_left _ (mem_append_right _ isMem))
  obtain ⟨_, epAligned, epFits⟩ := isRecord _ mem_cons_self
  obtain ⟨pos', algn, fits⟩ := isRecord nep (mem_cons_of_mem _ mem_cons_self)
  have len : c.loc + nep.d_reclen - (c.epoff + c.dsize) =
      c.loc - c.epoff - c.dsize + nep.d_reclen := by omega
  rw [block_next]
  apply replaced_wellFormed wf
  · intro dp isMem
    cases mem_append.mp isMem with
    | inl slot => exact slot_wellFormed cnt.dsize dp slot
    | inr last =>
      rw [mem_singleton.mp last]
      refine ⟨?_, ?_, ?_⟩
      · change 0 < c.loc + nep.d_reclen - (c.epoff + c.dsize)
        omega
      · change diralign ∣ c.loc + nep.d_reclen - (c.epoff + c.dsize)
        rw [len]
        exact Nat.dvd_add (Nat.dvd_sub epAligned (cnt.dsize ▸ inUse_aligned c.ep)) algn
      · change nep.inUse ≤ c.loc + nep.d_reclen - (c.epoff + c.dsize)
        omega
  · rw [reclens_append, slot_reclens, reclens_cons, reclens_nil]
    change c.dsize + (c.loc + nep.d_reclen - (c.epoff + c.dsize) + 0) =
      c.loc - c.epoff + (nep.d_reclen + 0)
    omega

theorem next_freeBytes (cnt : Counted c (nep :: todo) count rm)
    (fits : nep.inUse ≤ nep.d_reclen) : freeBytes ((c.next ip nep).block pre todo back) =
      freeBytes (c.block pre (nep :: todo) back) := by
  obtain ⟨ord, cov⟩ := cnt.reach
  have hsz := cnt.dsize
  rw [block_cons, block_next]
  simp only [freeBytes_append, slot_freeBytes hsz]
  change _ + (0 + (c.loc + nep.d_reclen - (c.epoff + c.dsize) - nep.inUse + 0)) + _ =
    _ + (c.loc - c.epoff - c.ep.inUse + (nep.d_reclen - nep.inUse + 0)) + _
  omega

/-- The names of the block: those of the trimmed records, that of `ep`, those behind it. -/
theorem block_live (cnt : Counted c todo count rm) : liveFrom (c.block pre todo back) pos =
      (liveFrom (pre ++ c.trimmed) pos ++ liveFrom c.slot (pos + reclens pre + c.epoff)) ++
        liveFrom (todo ++ back) (pos + reclens pre + c.loc) := by
  obtain ⟨ord, _⟩ := cnt.reach
  have at' : pos + (reclens pre + reclens c.trimmed) = pos + reclens pre + c.epoff := by
    rw [cnt.epoff, add_assoc]
  have len : reclens [{ c.ep with d_reclen := c.loc - c.epoff }] = c.loc - c.epoff := by
    rw [reclens_cons, reclens_nil, add_zero]
  have rst : pos + (reclens pre + reclens c.trimmed + (c.loc - c.epoff)) =
      pos + reclens pre + c.loc := by
    omega
  rw [block, liveFrom_three, reclens_append, at', len, rst,
    slot_live cnt.dsize (c.loc - c.epoff), append_assoc]

theorem trimmed_live (cnt : Counted c todo count rm) {recs tl : List Direct} :
    liveFrom ((pre ++ c.trimmed) ++ (c.slot ++ recs) ++ tl) pos =
      (liveFrom (pre ++ c.trimmed) pos ++ liveFrom c.slot (pos + reclens pre + c.epoff)) ++
        (liveFrom recs (pos + reclens pre + (c.epoff + c.dsize)) ++
          liveFrom tl (pos + reclens pre + (c.epoff + c.dsize + reclens recs))) := by
  have at' : pos + (reclens pre + reclens c.trimmed) = pos + reclens pre + c.epoff := by
    rw [cnt.epoff, add_assoc]
  have rst : pos + (reclens pre + reclens c.trimmed + (c.dsize + reclens recs)) =
      pos + reclens pre + (c.epoff + c.dsize + reclens recs) := by
    omega
  rw [liveFrom_three, reclens_append, at', reclens_append, slot_reclens, rst,
    @liveFrom_append c.slot, slot_reclens, add_assoc (pos + reclens pre),
    append_assoc, append_assoc]

theorem next_live (cnt : Counted c (nep :: todo) count rm) :
    liveFrom ((c.next ip nep).block pre todo back) pos =
      (liveFrom (pre ++ c.trimmed) pos ++ liveFrom c.slot (pos + reclens pre + c.epoff)) ++
        (liveFrom [nep] (pos + reclens pre + (c.epoff + c.dsize)) ++
          liveFrom (todo ++ back) (pos + reclens pre + (c.loc + nep.d_reclen))) := by
  obtain ⟨ord, cov⟩ := cnt.reach
  have sameNames : ∀ pos, liveFrom
      [{ nep with d_reclen := c.loc + nep.d_reclen - (c.epoff + c.dsize) }] pos =
      liveFrom [nep] pos := fun _ => rfl
  have rst : c.epoff + c.dsize +
      reclens [{ nep with d_reclen := c.loc + nep.d_reclen - (c.epoff + c.dsize) }] =
      c.loc + nep.d_reclen := by
    change c.epoff + c.dsize + (c.loc + nep.d_reclen - (c.epoff + c.dsize) + 0) = _
    omega
  rw [block_next, trimmed_live cnt, sameNames, rst]

end Records

section Loop

variable {hash : List UInt8 → Nat} {blocks : List (List Direct)} {pre back todo : List Direct}
  {b count rm : Nat} {c : Compaction} {nep : Direct}

theorem Compacting.found (compacting : Compacting hash blocks b pre back c todo) :
    (blocks.set b (c.block pre todo back))[b]? = some (c.block pre todo back) :=
  getElem?_set_self compacting.inside

theorem Compacting.wellFormed (compacting : Compacting hash blocks b pre back c todo) :
    BlockWellFormed (c.block pre todo back) :=
  compacting.directory.wellFormed _ (mem_of_getElem? compacting.found)

section

variable (compacting : Compacting hash blocks b pre back c (nep :: todo))

include compacting

theorem Compacting.todo_wellFormed :
    nep.WellFormed := by
  apply compacting.wellFormed.records
  rw [block_cons]
  exact mem_append_left _ (mem_append_right _ (mem_cons_of_mem _ mem_cons_self))

theorem Compacting.skip (cnt : Counted c (nep :: todo) count rm) (fresh : nep.d_ino = 0) :
    Compacting hash blocks b pre back (c.next c.ip nep) todo := by
  have fits := compacting.todo_wellFormed.fits
  have no : ∀ pos, liveFrom [nep] pos = [] := fun pos => liveFrom_of_unused fresh
  obtain ⟨sameLive, dir, agree⟩ := @same_agrees hash c.ip _ _
    ((c.next c.ip nep).block pre todo back) _ compacting.directory compacting.agrees
    compacting.found (next_wellFormed cnt compacting.wellFormed)
    (by
      rw [block_live cnt, next_live cnt, no, cons_append, liveFrom_of_unused fresh,
        nil_append, add_assoc _ c.loc])
    (next_freeBytes cnt fits)
  rw [set_set] at sameLive dir agree
  exact ⟨compacting.inside, compacting.sameBlocks, dir, agree,
    by rw [sameLive, compacting.names]⟩

theorem Compacting.copy
    (cnt : Counted c (nep :: todo) count rm) (used : nep.d_ino ≠ 0) : ∃ ip',
      ufsdirhashMove hash c.ip nep (b * dirblksiz + reclens pre + c.loc)
        (b * dirblksiz + reclens pre + (c.epoff + c.dsize)) = some ip' ∧
      Compacting hash blocks b pre back (c.next ip' nep) todo := by
  have fits := compacting.todo_wellFormed.fits
  have one : ∀ pos, liveFrom [nep] pos = [(nep.d_name, pos)] := fun pos => liveFrom_of_live used
  obtain ⟨ip', moved, eqBlks, names, dir, agree⟩ := @move_agrees hash c.ip _ _
    ((c.next c.ip nep).block pre todo back) _ _ _ _ _ _ compacting.directory compacting.agrees
    compacting.found (next_wellFormed cnt compacting.wellFormed)
    (by
      rw [block_live cnt, cons_append, liveFrom_cons, one, singleton_append,
        add_assoc _ c.loc])
    (by rw [next_live cnt, one, singleton_append])
    (next_freeBytes cnt fits)
  rw [set_set] at names dir agree
  refine ⟨ip', moved, compacting.inside, ?_, dir, agree, ?_⟩
  · exact eqBlks.trans compacting.sameBlocks
  · exact names.trans compacting.names

end

theorem compactLoop_end {ulr_offset ulr_count : Nat} (done : ¬ c.loc < ulr_count)
    (tl : List Direct) : compactLoop hash ulr_offset ulr_count tl c = some (c, tl) := by
  cases tl with
  | nil | cons => exact if_neg done

theorem compactLoop_spec (compacting : Compacting hash blocks b pre back c todo)
    (cnt : Counted c todo count rm) : ∃ c',
      compactLoop hash (b * dirblksiz + reclens pre) count (todo ++ back) c = some (c', back) ∧
        Compacting hash blocks b pre back c' [] ∧ Counted c' [] count rm := by
  induction todo generalizing c with
  | nil =>
    have toEnd := cnt.toEnd
    rw [reclens_nil] at toEnd
    exact ⟨c, compactLoop_end (by omega) back, compacting, cnt⟩
  | cons nep todo ih =>
    obtain ⟨pos', _, fits⟩ := compacting.todo_wellFormed
    have toEnd := cnt.toEnd
    rw [reclens_cons] at toEnd
    rw [cons_append, compactLoop, if_pos (by omega)]
    by_cases fresh : nep.d_ino = 0
    · have next' : c.next c.ip nep = { c with
          trimmed := c.trimmed ++ c.slot, ep := nep, epoff := c.epoff + c.dsize, dsize := 0,
          spacefree := c.spacefree + nep.d_reclen, loc := c.loc + nep.d_reclen } := by
        have noUse : nep.inUse = 0 := if_pos fresh
        rw [Compaction.next, noUse, Int.natCast_zero, sub_zero]
      rw [if_pos fresh, ← next']
      exact ih (compacting.skip cnt fresh) (cnt.next fits)
    obtain ⟨ip', moved, compacting'⟩ := compacting.copy cnt fresh
    have next' : c.next ip' nep = {
        ip := ip', trimmed := c.trimmed ++ c.slot, ep := nep, epoff := c.epoff + c.dsize,
        dsize := nep.dirsiz, spacefree := c.spacefree + (nep.d_reclen - nep.dirsiz),
        loc := c.loc + nep.d_reclen } := by
      have isUse : nep.inUse = nep.dirsiz := if_neg fresh
      rw [Compaction.next, isUse]
    rw [if_neg fresh, moved, bind_some, ← next']
    exact ih compacting' (cnt.next fits)

/-! ### The new entry -/

variable {dirp : Direct} {ulr_offset : Nat}

theorem compactEnd_eq (hsz : c.dsize = c.ep.inUse) : compactEnd hash ulr_offset dirp c =
    if c.spacefree < dirp.dirsiz then none
    else
      (ufsdirhashAdd hash c.ip { dirp with d_reclen := c.spacefree.toNat }
          (ulr_offset + (c.epoff + c.dsize))).map fun ip =>
        (ip, c.trimmed ++ (c.slot ++ [{ dirp with d_reclen := c.spacefree.toNat }])) := by
  unfold compactEnd slot
  by_cases fresh : c.ep.d_ino = 0
  · have no : c.dsize = 0 := hsz.trans (if_pos fresh)
    rw [if_pos fresh, if_pos no, no, Int.natCast_zero, add_zero, add_zero,
      nil_append]
  have size := le_dirsiz c.ep
  have pos : c.dsize ≠ 0 := by
    rw [hsz, Direct.inUse, if_neg fresh]
    omega
  rw [if_neg fresh, if_neg pos]
  dsimp only
  rw [append_assoc]

/-- The new entry goes in behind the compacted ones. -/
theorem compactEnd_spec (compacting : Compacting hash blocks b pre back c [])
    (cnt : Counted c [] count rm) (used : dirp.d_ino ≠ 0) (suff : dirp.dirsiz ≤ rm)
    (fresh : dirp.d_name ∉ (dirLive blocks 0).map Prod.fst) : ∃ ip' recs,
      compactEnd hash (b * dirblksiz + reclens pre) dirp c = some (ip', recs) ∧
        ip'.blocks = blocks ∧ Directory (blocks.set b (pre ++ recs ++ back)) ∧
        Agrees hash ⟨blocks.set b (pre ++ recs ++ back), ip'.i_dirhash⟩ := by
  have free := cnt.free
  have loc := cnt.loc
  have wf := compacting.wellFormed
  rw [freeBytes_nil] at free
  generalize isNew : ({ dirp with d_reclen := c.spacefree.toNat } : Direct) = new
  have newName : new.d_name = dirp.d_name := by rw [← isNew]
  have newSize : new.dirsiz = dirp.dirsiz := by rw [← isNew]; rfl
  have newUsed : new.d_ino ≠ 0 := by rw [← isNew]; exact used
  have newLength : new.d_reclen = rm := by
    rw [← isNew]
    change c.spacefree.toNat = rm
    omega
  have newUse : new.inUse = new.dirsiz := if_neg newUsed
  have size := le_dirsiz dirp
  have len : c.loc - c.epoff = c.dsize + rm := by omega
  have sameList : pre ++ (c.trimmed ++ (c.slot ++ [new])) ++ back =
      (pre ++ c.trimmed) ++ (c.slot ++ [new]) ++ back := by
    rw [← append_assoc pre]
  have newWellFormed : BlockWellFormed (pre ++ (c.trimmed ++ (c.slot ++ [new])) ++ back) := by
    have epAligned := (wf.records { c.ep with d_reclen := c.loc - c.epoff }
      (mem_append_left _ (mem_append_right _ mem_cons_self))).aligned
    rw [sameList]
    apply replaced_wellFormed wf
    · intro dp isMem
      cases mem_append.mp isMem with
      | inl slot => exact slot_wellFormed cnt.dsize dp slot
      | inr last =>
        rw [mem_singleton.mp last]
        refine ⟨by omega, ?_, by omega⟩
        have isRoom : new.d_reclen = c.loc - c.epoff - c.dsize := by omega
        rw [isRoom]
        exact Nat.dvd_sub epAligned (cnt.dsize ▸ inUse_aligned c.ep)
    · rw [reclens_append, slot_reclens, reclens_cons, newLength]
      change c.dsize + (rm + 0) = c.loc - c.epoff + 0
      omega
  obtain ⟨ip', added, eqBlks, dir, agree⟩ := @add_agrees hash c.ip _ _ _ _ _ new _ _
    compacting.directory compacting.agrees compacting.found newWellFormed
    (by rw [block_live cnt])
    (by
      rw [sameList, trimmed_live cnt, liveFrom_of_live newUsed]
      rw [reclens_cons, reclens_nil, newLength]
      have rst : c.epoff + c.dsize + (rm + 0) = c.loc := by omega
      rw [rst]
      rfl)
    (by rw [newName, compacting.names]; exact fresh)
    (by
      rw [sameList, block]
      simp only [freeBytes_append, freeBytes_cons, freeBytes_nil, slot_freeBytes cnt.dsize,
        newUse, newLength, newSize, len, nil_append]
      change _ + (0 + (rm - dirp.dirsiz + 0)) + _ + _ =
        _ + (c.dsize + rm - c.ep.inUse + 0) + _
      have hsz := cnt.dsize
      omega)
  rw [set_set] at dir agree
  refine ⟨ip', _, ?_, eqBlks.trans compacting.sameBlocks, dir, agree⟩
  rw [compactEnd_eq cnt.dsize, if_neg (by omega), isNew, added]
  rfl

/-- Compacting a block makes room and moves its hash entries. -/
theorem ufsDircompact_spec {ip : Inode} {plc : Nat × Nat} (dir : Directory ip.blocks)
    (agree : Agrees hash ip) (used : dirp.d_ino ≠ 0)
    (fresh : dirp.d_name ∉ ip.live.map Prod.fst)
    (hasRoom : HasRoom ip.blocks dirp.dirsiz plc) : ∃ ip',
      ufsDircompact hash ip plc.1 plc.2 dirp = some ip' ∧ Directory ip'.blocks ∧
        Agrees hash ip' := by
  obtain ⟨b, pre, region, back, fnd, rfl, suff⟩ := hasRoom.region
  have size := le_dirsiz dirp
  obtain ⟨recs, whole⟩ := dir.wellFormed _ (mem_of_getElem? fnd)
  obtain ⟨below, blk⟩ := List.getElem?_eq_some_iff.mp fnd
  cases region with
  | nil =>
    rw [freeBytes_nil] at suff
    omega
  | cons ep todo =>
    obtain ⟨pos', _, fits⟩ := recs ep
      (mem_append_left _ (mem_append_right _ mem_cons_self))
    rw [reclens_append, reclens_append, reclens_cons] at whole
    have quo : (b * dirblksiz + reclens pre) / dirblksiz = b := by
      unfold dirblksiz at whole ⊢
      omega
    have remainder : (b * dirblksiz + reclens pre) % dirblksiz = reclens pre := by
      unfold dirblksiz at whole ⊢
      omega
    let beg : Compaction :=
      { ip, trimmed := [], ep, epoff := 0, dsize := ep.inUse,
        spacefree := ep.d_reclen - ep.inUse, loc := ep.d_reclen }
    have startBlock : beg.block pre todo back = pre ++ ep :: todo ++ back := by
      simp only [block, append_assoc]
      rfl
    have isSet : ip.blocks.set b (beg.block pre todo back) = ip.blocks := by
      rw [startBlock, ← blk, set_getElem_self]
    have compacting : Compacting hash ip.blocks b pre back beg todo :=
      ⟨below, rfl, isSet.symm ▸ dir, isSet.symm ▸ agree, by rw [isSet]⟩
    have cnt : Counted beg todo (reclens (ep :: todo)) (freeBytes (ep :: todo)) := by
      refine ⟨rfl, rfl, ?_, ?_, (reclens_cons).symm, ?_⟩
      · change (ep.d_reclen : Int) = (0 : Nat) + ep.inUse + (ep.d_reclen - ep.inUse)
        omega
      · change (0 : Int) ≤ ep.d_reclen - ep.inUse
        omega
      · rw [freeBytes_cons]
        change (ep.d_reclen : Int) - ep.inUse + freeBytes todo = _
        omega
    obtain ⟨c, loop, compacting', counted'⟩ := compactLoop_spec compacting cnt
    obtain ⟨ip', records', ended, eqBlks, dir', agrees'⟩ :=
      compactEnd_spec compacting' counted' used suff fresh
    have sought : seek (pre ++ ep :: todo ++ back) (reclens pre) =
        some (pre, ep :: (todo ++ back)) := by
      rw [append_assoc]
      exact seek_append fun oth isMem =>
        recs oth (mem_append_left _ (mem_append_left _ isMem))
    refine ⟨_, ?_, dir', agrees'⟩
    unfold ufsDircompact
    rw [quo, remainder, fnd, bind_some, sought, bind_some]
    dsimp only
    rw [loop, bind_some]
    rw [ended, bind_some]
    rw [eqBlks]
    apply checkBlockAt_spec dir' agrees'
    rw [quo, length_set]
    exact below

end Loop

/-!
### Runs

The directory and its hash over whole runs: from any well-formed directory
without a hash, through building, lookups, new entries, removals, blocks added and
cut off. Every state has a well-formed directory that the hash, while it exists,
agrees with.
-/

/-- What may happen to a directory. -/
inductive Action where
  | build (available : Bool)
  | lookup (name : List UInt8) (wantPrev : Bool)
  | enter (dirp : Direct) (ulr : Option (Nat × Nat))
  | remove (offset prevoff : Nat)
  | newblk (name : List UInt8)
  | truncate (blocks : Nat)

/-- The outcome of an action; `none` is a panic or a failed assertion. -/
def Action.step (hash : List UInt8 → Nat) (ip : Inode) : Action → Option Inode
  | .build available => (ufsdirhashBuild hash available ip).map Prod.snd
  | .lookup name wantPrev => (ufsdirhashLookup hash ip name wantPrev).map Prod.snd
  | .enter dirp ulr => ufsDirenter hash ip dirp ulr
  | .remove offset prevoff =>
    (ip.direct offset).bind fun dp =>
      ufsDirremove hash ip offset (calcCount offset prevoff) dp.d_reclen
  | .newblk name => growUnused ip name
  | .truncate blocks => ufsTruncate ip (blocks * dirblksiz)

/-- An action that a caller may take: a new name, in a range with room when there is one; an entry
that is there, with the one before it; blocks without entries. -/
def Action.Valid (ip : Inode) : Action → Prop
  | .build _ | .lookup _ _ | .newblk _ => True
  | .enter dirp ulr => dirp.d_ino ≠ 0 ∧ dirp.d_name.length ≤ ffsMaxnamlen ∧
      dirp.d_name ∉ ip.live.map Prod.fst ∧
      ∀ place, ulr = some place → HasRoom ip.blocks dirp.dirsiz place
  | .remove offset prevoff =>
    (∃ name, (name, offset) ∈ ip.live) ∧ IsPrev ip.blocks offset prevoff
  | .truncate blocks => UnusedFrom ip.blocks blocks

/-- The states of a directory from a well-formed one without a hash. -/
inductive Reached (hash : List UInt8 → Nat) : Inode → Prop where
  | start {blocks : List (List Direct)} (directory : Directory blocks) : Reached hash ⟨blocks, none⟩
  | step {ip ip' : Inode} (action : Action) (reached : Reached hash ip) (valid : action.Valid ip)
      (moved : action.step hash ip = some ip') : Reached hash ip'

section Run

variable {hash : List UInt8 → Nat} {ip ip' : Inode} {dh : Dirhash} {action : Action}

theorem dirsiz_le {dirp : Direct} (bnd : dirp.d_name.length ≤ ffsMaxnamlen) :
    dirp.dirsiz ≤ directsiz ffsMaxnamlen := by
  unfold Direct.dirsiz directsiz
  omega

theorem lookup_agrees (dir : Directory ip.blocks) (agree : Agrees hash ip)
    (name : List UInt8) (wantPrev : Bool) : ∃ res ip',
      ufsdirhashLookup hash ip name wantPrev = some (res, ip') ∧
        (ip.i_dirhash.isSome → Answers ip name wantPrev res) ∧
        Directory ip'.blocks ∧ Agrees hash ip' := by
  cases isHash : ip.i_dirhash with
  | none =>
    refine ⟨.ejustreturn, ip, ?_, nofun, dir, agree⟩
    unfold ufsdirhashLookup
    simp only [isHash]
  | some dh =>
    obtain ⟨idxd, len⟩ := agree dh isHash
    obtain ⟨res, seqopt, seqoff, isRes, answers⟩ :=
      @ufsdirhashLookup_spec hash ip dh name wantPrev dir isHash idxd.hashed
    refine ⟨res, _, isRes, fun _ => answers, dir, ?_⟩
    intro dh' isHash'
    cases isHash'
    exact ⟨{ idxd with }, len⟩

theorem step_agrees (dir : Directory ip.blocks) (agree : Agrees hash ip)
    (valid : action.Valid ip) : ∃ ip', action.step hash ip = some ip' ∧ Directory ip'.blocks ∧
      Agrees hash ip' := by
  cases action with
  | build available =>
    obtain ⟨ip', built, eqBlks, agrees'⟩ := ufsdirhashBuild_agrees available dir agree
    exact ⟨ip', by rw [Action.step, built]; rfl, eqBlks ▸ dir, agrees'⟩
  | lookup name wantPrev =>
    obtain ⟨res, ip', isRes, _, dir', agrees'⟩ :=
      lookup_agrees dir agree name wantPrev
    exact ⟨ip', by rw [Action.step, isRes]; rfl, dir', agrees'⟩
  | enter dirp ulr =>
    obtain ⟨used, bnd, fresh, hasRoom⟩ := valid
    cases ulr with
    | none =>
      exact ufsDirgrow_spec dir agree used
        (le_trans (dirsiz_le bnd) (by decide)) fresh
    | some plc => exact ufsDircompact_spec dir agree used fresh (hasRoom plc rfl)
  | remove off' prevoff =>
    obtain ⟨⟨name, live⟩, isPrev⟩ := valid
    obtain ⟨_, dp, hread, _⟩ := direct_of_live dir.wellFormed live
    obtain ⟨ip', gone, kept⟩ := ufsDirremove_spec dir agree live isPrev hread
    exact ⟨ip', by rw [Action.step, hread, bind_some, gone], kept⟩
  | newblk name => exact growUnused_spec dir agree name
  | truncate blocks => exact ufsTruncate_spec dir agree valid

theorem Reached.agrees (got : Reached hash ip) : Directory ip.blocks ∧ Agrees hash ip := by
  induction got with
  | start dir => exact ⟨dir, keeps_none rfl⟩
  | step action _ valid moved ih =>
    obtain ⟨s', aft, kept⟩ :=
      step_agrees ih.1 ih.2 valid
    obtain rfl := some.inj (moved.symm.trans aft)
    exact kept

/-- What the hash says about a directory. -/
structure Tells (hash : List UInt8 → Nat) (ip : Inode) (dh : Dirhash) : Prop where
  lookup : ∀ name wantPrev, ∃ result ip',
    ufsdirhashLookup hash ip name wantPrev = some (result, ip') ∧ Answers ip name wantPrev result
  blkfree : ∀ b block, ip.blocks[b]? = some block → dh.dh_blkfree b * diralign = freeBytes block
  firstfree : ∀ c ≤ dhNfstats, IsLowest (fun b => blkfree2idx (dh.dh_blkfree b) = c)
    ip.blocks.length (dh.dh_firstfree c)
  hused : dh.dh_hused = filled dh.dh_hash dh.dh_hlen
  findfree : ∀ slotneeded ≤ directsiz ffsMaxnamlen, (ufsdirhashFindfree ip slotneeded = some none ∧
      ∀ block ∈ ip.blocks, freeBytes block < slotneeded) ∨
    ∃ place, ufsdirhashFindfree ip slotneeded = some (some place) ∧
      HasRoom ip.blocks slotneeded place
  enduseful : ∃ enduseful, ufsdirhashEnduseful ip = some enduseful ∧ IsEnduseful ip.blocks enduseful
  checkblock : ∀ b block, ip.blocks[b]? = some block →
    ufsdirhashCheckblock hash ip block (b * dirblksiz) = some ()

theorem tells_of_agrees (dir : Directory ip.blocks) (agree : Agrees hash ip)
    (isHash : ip.i_dirhash = some dh) : Tells hash ip dh := by
  obtain ⟨idxd, len⟩ := agree dh isHash
  have isBlkfree := idxd.summarised.blkfree
  rw [len] at isBlkfree
  constructor
  · intro name wantPrev
    obtain ⟨res, ip', isRes, answers, _⟩ := lookup_agrees dir agree name wantPrev
    exact ⟨res, ip', isRes, answers (by rw [isHash]; rfl)⟩
  · intro b block fnd
    rw [isBlkfree b (List.getElem?_eq_some_iff.mp fnd).1]
    exact freeWords_mul dir.wellFormed fnd
  · intro c upTo
    rw [← len]
    refine (idxd.summarised.firstfree c upTo).congr fun b below => ?_
    rw [isBlkfree b (len ▸ below)]
  · exact idxd.hashed.count
  · exact fun slotneeded bnd =>
      ufsdirhashFindfree_spec dir isHash idxd len bnd
  · exact ufsdirhashEnduseful_spec dir isHash idxd len
  · exact fun b block fnd => ufsdirhashCheckblock_spec dir agree fnd

/-- In every run a valid action does not panic, and the hash, while it exists, tells the truth
about the directory. -/
theorem ufsdirhash_agrees (reached : Reached hash ip) :
    (∀ action : Action, action.Valid ip → ∃ ip', action.step hash ip = some ip') ∧
      ∀ dh, ip.i_dirhash = some dh → Tells hash ip dh := by
  obtain ⟨dir, agree⟩ := reached.agrees
  constructor
  · intro action valid
    obtain ⟨ip', moved, _⟩ := step_agrees dir agree valid
    exact ⟨ip', moved⟩
  · exact fun dh isHash => tells_of_agrees dir agree isHash

def fiveBlocks : List (List Direct) :=
  [⟨2, 512, [97]⟩] :: List.replicate 4 [⟨0, 512, []⟩]

theorem fiveBlocks_directory : Directory fiveBlocks where
  wellFormed := by
    intro block isMem
    rcases mem_cons.mp isMem with rfl | isUnused
    · refine ⟨?_, rfl⟩
      intro dp isRecord
      rw [mem_singleton.mp isRecord]
      exact ⟨by decide, ⟨128, rfl⟩, by decide⟩
    · rw [eq_of_mem_replicate isUnused]
      exact unused_wellFormed []
  names := by decide

/-- Its hash is built and tells the truth. -/
theorem ufsdirhash_agrees_fiveBlocks : ∃ ip dh, ip.blocks = fiveBlocks ∧
    ip.i_dirhash = some dh ∧ Tells List.length ip dh := by
  have noHash : Agrees List.length ⟨fiveBlocks, none⟩ := keeps_none rfl
  obtain ⟨ip, built, eqBlks, _⟩ := ufsdirhashBuild_agrees true fiveBlocks_directory noHash
  have builds : (ufsdirhashBuild List.length true ⟨fiveBlocks, none⟩).map Prod.fst = some true := by
    decide +kernel
  rw [built] at builds
  obtain ⟨dh, isHash⟩ := isSome_iff_exists.mp (some.inj builds)
  have moved : (Action.build true).step List.length ⟨fiveBlocks, none⟩ = some ip := by
    rw [Action.step, built]
    rfl
  exact ⟨ip, dh, eqBlks, isHash, (ufsdirhash_agrees
    (.step (.build true) (.start fiveBlocks_directory) trivial moved)).2 dh isHash⟩

end Run

end NetBSD.Ufs.UfsDirhash
