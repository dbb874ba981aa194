import Mathlib.Data.List.Nodup
import NetBSD.Ufs.DirhashCalls

/-!
Owns what the calls that read the directory hash answer about a directory that it
indexes: the lookup of a name, the search for room, the check of a block.
-/

namespace NetBSD.Ufs.UfsDirhash

open NetBSD.Machine List Option

def freeWords (blocks : List (List Direct)) (b : Nat) : Nat :=
  ((blocks[b]?).map fun block => freeBytes block / diralign).getD 0

/-- Well-formed blocks, with distinct names in them. -/
structure Directory (blocks : List (List Direct)) : Prop where
  wellFormed : ∀ block ∈ blocks, BlockWellFormed block
  names : ((dirLive blocks 0).map Prod.fst).Nodup

def Agrees (hash : List UInt8 → Nat) (ip : Inode) : Prop :=
  Keeps hash ip ip.live (freeWords ip.blocks) ip.blocks.length

section Directory

variable {blocks : List (List Direct)} {block : List Direct} {b : Nat}
  {live : List (List UInt8 × Nat)}

theorem offsetsDistinct_of_sorted (sort : (live.map Prod.snd).Pairwise (· < ·)) :
    OffsetsDistinct live := by
  intro k k' o isLive isLive'
  have dist : (live.map Prod.snd).Nodup := sort.imp fun less => ne_of_lt less
  exact congrArg Prod.fst (inj_on_of_nodup_map dist isLive isLive' rfl)

theorem Directory.offsets (directory : Directory blocks) : OffsetsDistinct (dirLive blocks 0) :=
  offsetsDistinct_of_sorted (dirLive_sorted directory.wellFormed).1

theorem Directory.distinct (directory : Directory blocks) : NamesDistinct (dirLive blocks 0) := by
  intro k o o' isLive isLive'
  exact congrArg Prod.snd (inj_on_of_nodup_map directory.names isLive isLive' rfl)

theorem freeWords_of_getElem? (fnd : blocks[b]? = some block) :
    freeWords blocks b = freeBytes block / diralign := by
  rw [freeWords, fnd]
  rfl

theorem freeWords_mul (wf : ∀ block ∈ blocks, BlockWellFormed block)
    (fnd : blocks[b]? = some block) : freeWords blocks b * diralign = freeBytes block := by
  rw [freeWords, fnd]
  exact Nat.div_mul_cancel
    (freeBytes_aligned (wf block (mem_of_getElem? fnd)).records)

end Directory

/-! ### Lookup -/

/-- The offset of the record before one, or its own at the start of a block. -/
def IsPrev (blocks : List (List Direct)) (offset prevoff : Nat) : Prop :=
  offset % dirblksiz = 0 ∧ prevoff = offset ∨
    ∃ b front prior dp back, blocks[b]? = some (front ++ prior :: dp :: back) ∧
      offset = b * dirblksiz + reclens front + prior.d_reclen ∧
      prevoff = b * dirblksiz + reclens front

def Answers (ip : Inode) (name : List UInt8) (wantPrev : Bool) : LookupResult → Prop
  | .found offset prevoff => (name, offset) ∈ ip.live ∧
      (if wantPrev then ∃ prev, prevoff = some prev ∧ IsPrev ip.blocks offset prev
        else prevoff = none)
  | .enoent => ∀ offset, (name, offset) ∉ ip.live
  | .ejustreturn => False

section Lookup

variable {hash : List UInt8 → Nat} {ip : Inode} {dh : Dirhash} {words : Nat → Nat}
  {name : List UInt8} {offset slot fuel d : Nat} {dp : Direct} {wantPrev : Bool}

theorem getprevLoop_spec {pre back : List Direct} {prior : Direct}
    {blkoff entrypos i prevoff : Nat} (recs : ∀ dp ∈ pre ++ [prior], dp.WellFormed)
    (isPos : i + reclens pre + prior.d_reclen = entrypos) :
    getprevLoop blkoff entrypos (pre ++ prior :: dp :: back) i prevoff =
      some (blkoff + i + reclens pre) := by
  induction pre generalizing i prevoff with
  | nil =>
    have pos := (recs prior mem_cons_self).positive
    rw [reclens_nil, add_zero] at isPos ⊢
    rw [nil_append, getprevLoop, if_pos (by omega), if_neg (by omega), getprevLoop,
      if_neg (by omega)]
  | cons fst tl ih =>
    have pos := (recs fst mem_cons_self).positive
    rw [reclens_cons] at isPos ⊢
    rw [cons_append, getprevLoop, if_pos (by omega), if_neg (by omega),
      ih (forall_mem_cons.mp recs).2 (by omega)]
    congr 1
    omega

section

variable (directory : Directory ip.blocks)

include directory

theorem ufsdirhashGetprev_spec (isLive : (name, offset) ∈ ip.live)
    (lt : offset % dirblksiz ≠ 0) :
    ∃ prev, ufsdirhashGetprev ip offset = some prev ∧ IsPrev ip.blocks offset prev := by
  obtain ⟨b, pre, dp, back, fnd, _, _, isOffset, quo, remainder, _⟩ :=
    record_of_live directory.wellFormed isLive
  obtain ⟨recs, _⟩ := directory.wellFormed _ (mem_of_getElem? fnd)
  rcases eq_nil_or_concat pre with rfl | ⟨bef, prior, rfl⟩
  · exact absurd remainder lt
  rw [concat_eq_append] at *
  rw [append_assoc, singleton_append] at fnd
  have sum : reclens bef + prior.d_reclen = reclens (bef ++ [prior]) := by
    rw [reclens_append, reclens_cons, reclens_nil, add_zero]
  refine ⟨b * dirblksiz + reclens bef, ?_, .inr ⟨b, bef, prior, dp, back, fnd, ?_, rfl⟩⟩
  · have unfolded : ufsdirhashGetprev ip offset = (ip.blocks[offset / dirblksiz]?).bind fun block =>
          getprevLoop (offset / dirblksiz * dirblksiz) (offset % dirblksiz) block 0
            (offset / dirblksiz * dirblksiz) := if_neg lt
    rw [unfolded, quo, fnd, bind_some]
    have isPos : 0 + reclens bef + prior.d_reclen = offset % dirblksiz := by
      rw [remainder, zero_add, sum]
    rw [getprevLoop_spec (forall_mem_append.mp recs).1 isPos, add_zero]
  · rw [isOffset, ← sum, add_assoc]

theorem record_of_used
    (hashed : Hashed hash dh.dh_hash dh.dh_hlen dh.dh_hused ip.live) (below : slot < dh.dh_hlen)
    (used : dh.dh_hash slot = .used offset) : offset < ip.i_size ∧ ∃ dp,
      ip.direct offset = some dp ∧ (dp.d_name, offset) ∈ ip.live ∧
        ¬ (dp.d_reclen = 0 ∨ dirblksiz - offset % dirblksiz < dp.d_reclen) := by
  obtain ⟨k, isLive, _⟩ := hashed.owned slot below offset used
  obtain ⟨lt, dp, hread, _, rfl, wf, fits⟩ := direct_of_live directory.wellFormed isLive
  have pos := wf.positive
  exact ⟨lt, dp, hread, isLive, by omega⟩

/-- The probe ends at the entry of the name. -/
theorem lookupLoop_found
    (hashed : Hashed hash dh.dh_hash dh.dh_hlen dh.dh_hused ip.live) (plain : dh.dh_seqopt = false)
    (isLive : (name, offset) ∈ ip.live) (hread : ip.direct offset = some dp)
    (below : slot < dh.dh_hlen) (walk : ∀ e < d, dh.dh_hash (ahead dh.dh_hlen slot e) ≠ .empty)
    (isAt : dh.dh_hash (ahead dh.dh_hlen slot d) = .used offset) (suff : d < fuel) :
    lookupLoop ip dh name fuel slot = some (.found offset dp) := by
  induction d generalizing slot fuel with
  | zero =>
    obtain ⟨fuel, rfl⟩ : ∃ tl, fuel = tl + 1 := ⟨fuel - 1, by omega⟩
    rw [ahead_zero below] at isAt
    obtain ⟨lt, dp', isRead', isLive', fits⟩ := record_of_used directory hashed below isAt
    obtain rfl := some.inj (hread.symm.trans isRead')
    have same := directory.offsets _ _ _ isLive' isLive
    simp only [lookupLoop, isAt, hread]
    rw [if_neg (not_le.mpr lt), if_neg fits, if_pos ⟨congrArg List.length same, same⟩]
  | succ d ih =>
    obtain ⟨fuel, rfl⟩ : ∃ tl, fuel = tl + 1 := ⟨fuel - 1, by omega⟩
    have next : lookupLoop ip dh name fuel (wrapIncr slot dh.dh_hlen) =
        some (.found offset dp) := by
      apply ih (wrapIncr_lt below)
      · intro e prev
        rw [ahead_wrapIncr below]
        exact walk (e + 1) (by omega)
      · rwa [ahead_wrapIncr below]
      · omega
    have full := walk 0 (Nat.zero_lt_succ d)
    rw [ahead_zero below] at full
    cases isSlot : dh.dh_hash slot with
    | empty => exact absurd isSlot full
    | del => simp only [lookupLoop, isSlot, next]
    | used offset' =>
      obtain ⟨lt, dp', isRead', isLive', fits⟩ :=
        record_of_used directory hashed below isSlot
      simp only [lookupLoop, isSlot, isRead']
      rw [if_neg (Nat.not_le.mpr lt), if_neg fits, plain, if_neg Bool.false_ne_true]
      by_cases same : dp'.d_name = name
      · rw [if_pos ⟨congrArg List.length same, same⟩]
        obtain rfl := directory.distinct _ _ _ isLive (same ▸ isLive')
        rw [hread] at isRead'
        rw [some.inj isRead']
      · rw [if_neg (not_and_of_not_right _ same), next]

theorem lookupLoop_enoent
    (hashed : Hashed hash dh.dh_hash dh.dh_hlen dh.dh_hused ip.live) (plain : dh.dh_seqopt = false)
    (miss : ∀ offset, (name, offset) ∉ ip.live) (below : slot < dh.dh_hlen)
    (emp : dh.dh_hash (ahead dh.dh_hlen slot d) = .empty) (suff : d < fuel) :
    lookupLoop ip dh name fuel slot = some .enoent := by
  induction d generalizing slot fuel with
  | zero =>
    obtain ⟨fuel, rfl⟩ : ∃ tl, fuel = tl + 1 := ⟨fuel - 1, by omega⟩
    rw [ahead_zero below] at emp
    simp only [lookupLoop, emp]
  | succ d ih =>
    obtain ⟨fuel, rfl⟩ : ∃ tl, fuel = tl + 1 := ⟨fuel - 1, by omega⟩
    have next : lookupLoop ip dh name fuel (wrapIncr slot dh.dh_hlen) = some .enoent := by
      apply ih (wrapIncr_lt below)
      · rwa [ahead_wrapIncr below]
      · omega
    cases isSlot : dh.dh_hash slot with
    | empty => simp only [lookupLoop, isSlot]
    | del => simp only [lookupLoop, isSlot, next]
    | used offset =>
      obtain ⟨lt, dp, hread, isLive, fits⟩ := record_of_used directory hashed below isSlot
      simp only [lookupLoop, isSlot, hread]
      rw [if_neg (Nat.not_le.mpr lt), if_neg fits, plain, if_neg Bool.false_ne_true,
        if_neg (not_and_of_not_right _ fun same : dp.d_name = name => miss offset (same ▸ isLive)),
        next]

def Answered (ip : Inode) (name : List UInt8) (wantPrev : Bool) (dh : Dirhash)
    (outcome : Option (LookupResult × Inode)) : Prop :=
  ∃ result seqopt seqoff, outcome = some (result,
      { ip with i_dirhash := some { dh with dh_seqopt := seqopt, dh_seqoff := seqoff } }) ∧
    Answers ip name wantPrev result

theorem lookupEnd_found (isLive : (name, offset) ∈ ip.live) :
    Answered ip name wantPrev dh (lookupEnd ip wantPrev dh (.found offset dp)) := by
  have isPrev : ∃ prev, (if offset % dirblksiz ≠ 0 then ufsdirhashGetprev ip offset
      else some offset) = some prev ∧ IsPrev ip.blocks offset prev := by
    by_cases beg : offset % dirblksiz = 0
    · rw [if_neg (not_not.mpr beg)]
      exact ⟨offset, rfl, .inl ⟨beg, rfl⟩⟩
    · rw [if_pos beg]
      exact ufsdirhashGetprev_spec directory isLive beg
  obtain ⟨prev, fnd, isPrev⟩ := isPrev
  unfold lookupEnd
  dsimp only
  rw [fnd, if_neg fun both => nomatch both.2]
  refine ⟨_, _, _, rfl, isLive, ?_⟩
  cases wantPrev with
  | true => exact ⟨prev, rfl, isPrev⟩
  | false => rfl

theorem search_answers (hashed : Hashed hash dh.dh_hash dh.dh_hlen dh.dh_hused ip.live)
    (plain : dh.dh_seqopt = false) : ∃ ended,
      lookupLoop ip dh name dh.dh_hlen (hash name % dh.dh_hlen) = some ended ∧
        ended ≠ .restart ∧ Answered ip name wantPrev dh (lookupEnd ip wantPrev dh ended) := by
  by_cases here : ∃ offset, (name, offset) ∈ ip.live
  · obtain ⟨offset, isLive⟩ := here
    obtain ⟨s, below, used, d, lt, isAt, walk⟩ :=
      hashed.slot_of_live directory.offsets isLive
    obtain ⟨_, dp, hread, _⟩ := direct_of_live directory.wellFormed isLive
    exact ⟨_, lookupLoop_found directory hashed plain isLive hread (hashed.home_lt name) walk
      (isAt ▸ used) lt, nofun, lookupEnd_found directory isLive⟩
  have miss : ∀ offset, (name, offset) ∉ ip.live := fun offset isLive =>
    here ⟨offset, isLive⟩
  obtain ⟨e, eBelow, empty⟩ := exists_empty hashed.room
  obtain ⟨d, lt, isAt⟩ := exists_ahead (hashed.home_lt name) eBelow
  exact ⟨_, lookupLoop_enoent directory hashed plain miss (hashed.home_lt name)
    (isAt ▸ empty) lt, nofun, .enoent, _, _, rfl, miss⟩

end

/-- The sequential optimisation starts at the slot of the name, without it, or at the offset behind
the last lookup. -/
theorem seqStart_spec (hashed : Hashed hash dh.dh_hash dh.dh_hlen dh.dh_hused ip.live)
    (below : slot < dh.dh_hlen) : seqStart dh slot = some ({ dh with dh_seqopt := false }, slot) ∨
      ∃ i < dh.dh_hlen, dh.dh_hash i = .used dh.dh_seqoff ∧ dh.dh_seqopt = true ∧
        seqStart dh slot = some (dh, i) := by
  unfold seqStart
  cases isOpt : dh.dh_seqopt with
  | false =>
    left
    rw [if_neg Bool.false_ne_true, ← isOpt]
  | true =>
    rw [if_pos rfl]
    obtain ⟨e, eBelow, empty⟩ := exists_empty hashed.room
    obtain ⟨d, lt, stops, past⟩ := exists_first
      (P := fun i => (dh.dh_hash i == .empty || dh.dh_hash i == .used dh.dh_seqoff) = true)
      below eBelow (by rw [empty]; rfl)
    rw [scan_eq below (fun e prev => Bool.eq_false_iff.mpr (past e prev)) stops lt,
      map_some]
    by_cases used : dh.dh_hash (ahead dh.dh_hlen slot d) = .used dh.dh_seqoff
    · right
      rw [if_pos used]
      exact ⟨_, ahead_lt hashed.positive, used, rfl, rfl⟩
    · left
      rw [if_neg used]

/-- The lookup answers the entry of that name. -/
theorem ufsdirhashLookup_spec (directory : Directory ip.blocks) (isHash : ip.i_dirhash = some dh)
    (hashed : Hashed hash dh.dh_hash dh.dh_hlen dh.dh_hused ip.live) :
    Answered ip name wantPrev dh (ufsdirhashLookup hash ip name wantPrev) := by
  have below := hashed.home_lt name
  -- The search without the optimisation, to which a mismatch comes back.
  have normally := @search_answers hash ip { dh with dh_seqopt := false } name wantPrev directory
    hashed rfl
  obtain ⟨ended, isEnd, noRestart, answered⟩ := normally
  unfold ufsdirhashLookup
  simp only [isHash, ufsdirhashHash]
  cases seqStart_spec hashed below with
  | inl beg =>
    rw [beg, bind_some]
    rw [isEnd]
    cases ended with
    | restart => exact absurd rfl noRestart
    | found _ _ | enoent | ejustreturn => exact answered
  | inr beg =>
    obtain ⟨i, iBelow, used, isOpt, beg⟩ := beg
    rw [beg, bind_some]
    obtain ⟨lt, dp, hread, isLive, fits⟩ := record_of_used directory hashed iBelow used
    obtain ⟨fuel, isFuel⟩ : ∃ tl, dh.dh_hlen = tl + 1 :=
      ⟨dh.dh_hlen - 1, by have pos := hashed.positive; omega⟩
    have fst : lookupLoop ip dh name dh.dh_hlen i =
        some (if dp.d_name = name then .found dh.dh_seqoff dp else .restart) := by
      rw [isFuel]
      simp only [lookupLoop, used, hread]
      rw [if_neg (not_le.mpr lt), if_neg fits, if_pos isOpt]
      by_cases same : dp.d_name = name
      · rw [if_pos ⟨congrArg List.length same, same⟩, if_pos same]
      · rw [if_neg (not_and_of_not_right _ same), if_neg same]
    rw [fst]
    by_cases same : dp.d_name = name
    · rw [if_pos same]
      exact lookupEnd_found directory (same ▸ isLive)
    · rw [if_neg same]
      rw [isEnd]
      exact answered

end Lookup

/-! ### Room -/

section Room

variable {hash : List UInt8 → Nat} {ip : Inode} {dh : Dirhash} {block tl : List Direct}
  {i slotneeded : Nat}

theorem skipFull_spec (recs : ∀ dp ∈ block, dp.WellFormed)
    (lt : i + reclens block ≤ dirblksiz) : ∃ pre tl, block = pre ++ tl ∧
      skipFull block i = some (i + reclens pre, tl) ∧ freeBytes pre = 0 := by
  induction block generalizing i with
  | nil => exact ⟨[], [], rfl, rfl, rfl⟩
  | cons dp tl ih =>
    obtain ⟨pos, _, fits⟩ := recs dp mem_cons_self
    rw [reclens_cons] at lt
    rw [skipFull, if_pos (by omega), if_neg (by omega)]
    by_cases rm : dp.d_ino = 0 ∨ dp.dirsiz < dp.d_reclen
    · rw [if_pos rm]
      exact ⟨[], dp :: tl, rfl, rfl, rfl⟩
    rw [if_neg rm]
    obtain ⟨used, full⟩ := not_or.mp rm
    obtain ⟨pre, back, rst, skip, noFree⟩ := ih
      (forall_mem_cons.mp recs).2
      (i := i + dp.d_reclen) (by omega)
    refine ⟨dp :: pre, back, by rw [rst, cons_append], ?_, ?_⟩
    · rw [skip, reclens_cons, add_assoc]
    · rw [freeBytes_cons, Direct.inUse, if_neg used]
      omega

theorem gatherFree_spec {freebytes : Int} (recs : ∀ dp ∈ block, dp.WellFormed)
    (lt : i + reclens block ≤ dirblksiz) : ∃ region back, block = region ++ back ∧
      gatherFree slotneeded block i freebytes =
        some (i + reclens region, freebytes + freeBytes region) ∧
      (back = [] ∨ (slotneeded : Int) ≤ freebytes + freeBytes region) := by
  induction block generalizing i freebytes with
  | nil =>
    refine ⟨[], [], rfl, ?_, .inl rfl⟩
    rw [gatherFree, reclens_nil, freeBytes_nil, add_zero, Int.natCast_zero, add_zero]
  | cons dp tl ih =>
    obtain ⟨pos, _, fits⟩ := recs dp mem_cons_self
    rw [reclens_cons] at lt
    rw [gatherFree]
    by_cases needs : freebytes < slotneeded
    · rw [if_pos ⟨by omega, needs⟩, if_neg (by omega)]
      obtain ⟨region, back, rst, gathered, suff⟩ :=
        @ih (i + dp.d_reclen) (freebytes + dp.d_reclen - dp.inUse)
          (forall_mem_cons.mp recs).2 (by omega)
      have sum : freebytes + dp.d_reclen - dp.inUse + freeBytes region =
          freebytes + freeBytes (dp :: region) := by
        rw [freeBytes_cons]
        omega
      rw [sum] at gathered suff
      refine ⟨dp :: region, back, by rw [rst, cons_append], ?_, suff⟩
      rw [gathered, reclens_cons, add_assoc]
    · rw [if_neg fun both => needs both.2]
      refine ⟨[], dp :: tl, rfl, ?_, .inr ?_⟩
      · rw [reclens_nil, freeBytes_nil, add_zero, Int.natCast_zero, add_zero]
      · rw [freeBytes_nil, Int.natCast_zero, add_zero]
        exact not_lt.mp needs

structure HasRoom (blocks : List (List Direct)) (slotneeded : Nat) (place : Nat × Nat) : Prop where
  region : ∃ b front region back, blocks[b]? = some (front ++ region ++ back) ∧
    place = (b * dirblksiz + reclens front, reclens region) ∧ slotneeded ≤ freeBytes region

theorem le_howmany (n : Nat) : n ≤ howmany n diralign * diralign := by
  unfold howmany diralign
  omega

/-- The answer has room, or no block has. -/
theorem ufsdirhashFindfree_spec (directory : Directory ip.blocks) (isHash : ip.i_dirhash = some dh)
    (idxd : Indexed hash dh ip.live (freeWords ip.blocks))
    (len : dh.dh_dirblks = ip.blocks.length)
    (bnd : slotneeded ≤ directsiz ffsMaxnamlen) :
    (ufsdirhashFindfree ip slotneeded = some none ∧
        ∀ block ∈ ip.blocks, freeBytes block < slotneeded) ∨
      ∃ plc, ufsdirhashFindfree ip slotneeded = some (some plc) ∧
        HasRoom ip.blocks slotneeded plc := by
  obtain ⟨_, summ, _, _⟩ := idxd
  have fst := summ.firstfree
  have beg : howmany slotneeded diralign ≤ dhNfstats := by
    unfold howmany diralign
    have top : directsiz ffsMaxnamlen = 264 := by decide
    have bottom : dhNfstats = 67 := by decide
    omega
  unfold ufsdirhashFindfree
  simp only [isHash]
  cases searched : (List.range' (howmany slotneeded diralign)
      (dhNfstats + 1 - howmany slotneeded diralign)).findSome? dh.dh_firstfree with
  | none =>
    left
    refine ⟨rfl, fun block isMem => ?_⟩
    rw [findSome?_eq_none_iff] at searched
    by_contra rm
    obtain ⟨b, fnd⟩ := mem_iff_getElem?.mp isMem
    have below : b < dh.dh_dirblks := by
      rw [len]
      exact (List.getElem?_eq_some_iff.mp fnd).1
    have free := freeWords_mul directory.wellFormed fnd
    have suff : howmany slotneeded diralign ≤ freeWords ip.blocks b := by
      unfold howmany diralign at *
      omega
    have inClass : howmany slotneeded diralign ≤ blkfree2idx (freeWords ip.blocks b) := by
      unfold blkfree2idx
      split <;> omega
    have upTo := blkfree2idx_le (freeWords ip.blocks b)
    have noRecord := searched _ (mem_range'_1.mpr ⟨inClass, by omega⟩)
    have rcd := fst _ upTo
    rw [noRecord] at rcd
    exact rcd b below rfl
  | some dirblock =>
    right
    obtain ⟨c, isMem, isRecord⟩ := exists_of_findSome?_eq_some searched
    have range := mem_range'_1.mp isMem
    have rcd := fst c (by omega)
    rw [isRecord] at rcd
    obtain ⟨below, isClass, _⟩ := rcd
    have suff : howmany slotneeded diralign ≤ freeWords ip.blocks dirblock := by
      have upTo : blkfree2idx (freeWords ip.blocks dirblock) ≤ freeWords ip.blocks dirblock := by
        unfold blkfree2idx
        split <;> omega
      omega
    have lt : dirblock < ip.blocks.length := len ▸ below
    have fnd : ip.blocks[dirblock]? = some ip.blocks[dirblock] :=
      getElem?_eq_getElem lt
    generalize ip.blocks[dirblock] = block at fnd
    obtain ⟨recs, whole⟩ := directory.wellFormed block (mem_of_getElem? fnd)
    have free := freeWords_mul directory.wellFormed fnd
    have rm : slotneeded ≤ freeBytes block := by
      rw [← free]
      exact Nat.le_trans (le_howmany slotneeded) (Nat.mul_le_mul_right _ suff)
    obtain ⟨pre, tl, rfl, skip, noFree⟩ :=
      @skipFull_spec block 0 recs (by rw [zero_add, whole])
    rw [reclens_append] at whole
    rw [freeBytes_append, noFree, zero_add] at rm
    rw [zero_add] at skip
    obtain ⟨region, back, rfl, gathered, done⟩ :=
      @gatherFree_spec tl (reclens pre) slotneeded 0
        (forall_mem_append.mp recs).2 (by omega)
    rw [zero_add] at gathered done
    have gathersEnough : slotneeded ≤ freeBytes region := by
      cases done with
      | inl last =>
        rw [last, append_nil] at rm
        exact rm
      | inr suff => exact Int.ofNat_le.mp suff
    rw [reclens_append] at whole
    dsimp only
    rw [if_pos ⟨lt_of_lt_of_le below summ.within,
        by rw [summ.blkfree dirblock below]; exact suff⟩, fnd, bind_some]
    simp only [skip, gathered]
    rw [if_neg (by omega), if_neg (by omega), if_neg (by omega)]
    refine ⟨_, rfl, ⟨dirblock, pre, region, back, ?_, ?_, gathersEnough⟩⟩
    · rw [append_assoc]
      exact fnd
    · rw [Nat.add_sub_cancel_left]

end Room

/-! ### The check of a block -/

section Check

variable {hash : List UInt8 → Nat} {ip : Inode} {dh : Dirhash} {block : List Direct}
  {live : List (List UInt8 × Nat)} {b i offset : Nat}

theorem checkblockLoop_spec {nfree : Int}
    (hashed : Hashed hash dh.dh_hash dh.dh_hlen dh.dh_hused live) (dist : OffsetsDistinct live)
    (recs : ∀ dp ∈ block, dp.WellFormed) (lt : i + reclens block ≤ dirblksiz)
    (names : ∀ e ∈ liveFrom block (offset + i), e ∈ live) :
    checkblockLoop hash dh offset block i nfree =
      some (i + reclens block, nfree + freeBytes block) := by
  induction block generalizing i nfree with
  | nil =>
    rw [checkblockLoop, reclens_nil, freeBytes_nil, add_zero, Int.natCast_zero, add_zero]
  | cons dp tl ih =>
    obtain ⟨pos, _, fits⟩ := recs dp mem_cons_self
    rw [reclens_cons] at lt
    have later : ∀ nfree : Int, checkblockLoop hash dh offset tl (i + dp.d_reclen) nfree =
        some (i + dp.d_reclen + reclens tl, nfree + freeBytes tl) := by
      intro nfree
      apply ih (forall_mem_cons.mp recs).2 (by omega)
      intro e isMem
      apply names
      rw [liveFrom, add_assoc]
      exact mem_append_right _ isMem
    rw [checkblockLoop, if_pos (by omega), if_neg (by omega), reclens_cons, freeBytes_cons,
      ← add_assoc]
    by_cases fresh : dp.d_ino = 0
    · have isUse : dp.inUse = 0 := if_pos fresh
      rw [if_pos fresh, later, isUse, Nat.sub_zero, Int.natCast_add, Int.add_assoc]
    have isUse : dp.inUse = dp.dirsiz := if_neg fresh
    have isLive := names (dp.d_name, offset + i) (by
      rw [liveFrom_of_live fresh]
      exact mem_cons_self)
    obtain ⟨slot, _, fnd, _⟩ := ufsdirhashFindslot_spec hashed dist isLive
    have sum : nfree + (dp.d_reclen - dp.dirsiz) + freeBytes tl =
        nfree + ((dp.d_reclen - dp.inUse + freeBytes tl : Nat) : Int) := by
      omega
    rw [if_neg fresh, fnd, bind_some, later, sum]

/-- The check of a block finds nothing wrong. -/
theorem ufsdirhashCheckblock_spec (directory : Directory ip.blocks)
    (agree : Agrees hash ip) (fnd : ip.blocks[b]? = some block) :
    ufsdirhashCheckblock hash ip block (b * dirblksiz) = some () := by
  unfold ufsdirhashCheckblock
  cases isHash : ip.i_dirhash with
  | none => rfl
  | some dh =>
    obtain ⟨⟨hashed, summ, _, _⟩, len⟩ := agree dh isHash
    obtain ⟨recs, whole⟩ := directory.wellFormed block (mem_of_getElem? fnd)
    have below : b < dh.dh_dirblks := by
      rw [len]
      exact (List.getElem?_eq_some_iff.mp fnd).1
    have quo : b * dirblksiz / dirblksiz = b := Nat.mul_div_cancel b (by decide)
    have remainder : b * dirblksiz % dirblksiz = 0 := Nat.mul_mod_left b dirblksiz
    have chk := @checkblockLoop_spec hash dh block ip.live 0 (b * dirblksiz) 0 hashed
      directory.offsets recs (by rw [zero_add, whole]) (by
        intro e isMem
        rw [add_zero] at isMem
        refine mem_dirLive.mpr ⟨b, block, fnd, ?_⟩
        rwa [zero_add])
    rw [zero_add, zero_add, whole] at chk
    have free := freeWords_mul directory.wellFormed fnd
    have isBlkfree := summ.blkfree b below
    have isWords : freeBytes block / diralign = freeWords ip.blocks b := by
      rw [← free]
      exact Nat.mul_div_cancel _ (by decide)
    dsimp only
    rw [quo, if_neg (by omega), chk, bind_some]
    rw [if_neg (not_not.mpr rfl), isBlkfree, free, if_neg (not_not.mpr rfl),
      Int.toNat_natCast, isWords]
    have noOther : (List.range (dhNfstats + 1)).any (fun i =>
        decide (dh.dh_firstfree i = some b) &&
          decide (i ≠ blkfree2idx (freeWords ip.blocks b))) = false := by
      rw [List.any_eq_false]
      intro c isMem both
      rw [Bool.and_eq_true, decide_eq_true_eq, decide_eq_true_eq] at both
      have rcd := summ.firstfree c (Nat.lt_succ_iff.mp (mem_range.mp isMem))
      rw [both.1] at rcd
      exact both.2 rcd.2.1.symm
    have here : dh.dh_firstfree (blkfree2idx (freeWords ip.blocks b)) ≠ none := by
      intro missing
      have rcd := summ.firstfree _ (blkfree2idx_le (freeWords ip.blocks b))
      rw [missing] at rcd
      exact rcd b below rfl
    rw [noOther, if_neg Bool.false_ne_true, if_neg here]

end Check

end NetBSD.Ufs.UfsDirhash
