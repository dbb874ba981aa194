import NetBSD.Ufs.Dirhash
import Mathlib.Algebra.BigOperators.Group.List.Basic
import Mathlib.Algebra.Order.Ring.Nat
import Mathlib.Data.List.Pairwise

/-!
Owns the changes of a directory in `sys/ufs/ufs/ufs_lookup.c` and what each tells
the directory hash: a new entry in a fresh block or in a range that is compacted
for it, an entry removed, unused blocks added and cut off at the end. A whiteout is
an entry like any other here; a new entry always takes free space.
-/

namespace NetBSD.Ufs.UfsDirhash

open List

section Enter

variable (hash : List UInt8 → Nat)

def checkBlockAt (ip : Inode) (offset : Nat) : Option Inode :=
  (ip.blocks[offset / dirblksiz]?).bind fun block =>
    (ufsdirhashCheckblock hash ip block (offset / dirblksiz * dirblksiz)).map fun _ => ip

/-- `ufs_dirgrow`: a fresh block at the end of the directory. -/
def ufsDirgrow (ip : Inode) (dirp : Direct) : Option Inode :=
  let ulr_offset := ip.i_size
  let dirp := { dirp with d_reclen := dirblksiz }
  let ip := { ip with blocks := ip.blocks ++ [[dirp]] }
  (ufsdirhashNewblk ip ulr_offset).bind fun ip =>
    (ufsdirhashAdd hash ip dirp ulr_offset).bind fun ip => checkBlockAt hash ip ulr_offset

/-- The loop of `ufs_dircompact`: the records it has trimmed, `ep` with its position from the start
of the range, and its counters. -/
structure Compaction where
  ip : Inode
  trimmed : List Direct
  ep : Direct
  epoff : Nat
  dsize : Nat
  spacefree : Int
  loc : Nat

/-- The existing slot trimmed; there is none when `dsize` is zero. -/
def Compaction.slot (c : Compaction) : List Direct :=
  if c.dsize = 0 then [] else [{ c.ep with d_reclen := c.dsize }]

/-- The loop of `ufs_dircompact`, and the records behind the range. -/
def compactLoop (ulr_offset ulr_count : Nat) : List Direct → Compaction →
    Option (Compaction × List Direct)
  | [], c => if c.loc < ulr_count then none else some (c, [])
  | nep :: rest, c =>
    if c.loc < ulr_count then
      let reclen := nep.d_reclen
      if nep.d_ino = 0 then
        compactLoop ulr_offset ulr_count rest
          { c with
            trimmed := c.trimmed ++ c.slot
            ep := nep
            epoff := c.epoff + c.dsize
            dsize := 0
            spacefree := c.spacefree + reclen
            loc := c.loc + reclen }
      else
        (ufsdirhashMove hash c.ip nep (ulr_offset + c.loc)
            (ulr_offset + (c.epoff + c.dsize))).bind fun ip =>
          compactLoop ulr_offset ulr_count rest
            { ip
              trimmed := c.trimmed ++ c.slot
              ep := nep
              epoff := c.epoff + c.dsize
              dsize := nep.dirsiz
              spacefree := c.spacefree + (reclen - nep.dirsiz)
              loc := c.loc + reclen }
    else some (c, nep :: rest)

/-- The end of `ufs_dircompact`: the new entry takes the place of an unused one, or the space behind
one in use. -/
def compactEnd (ulr_offset : Nat) (dirp : Direct) (c : Compaction) : Option (Inode × List Direct) :=
  if c.ep.d_ino = 0 then
    if c.spacefree + c.dsize < dirp.dirsiz then none
    else
      let dirp := { dirp with d_reclen := (c.spacefree + c.dsize).toNat }
      (ufsdirhashAdd hash c.ip dirp (ulr_offset + c.epoff)).map fun ip =>
        (ip, c.trimmed ++ [dirp])
  else if c.spacefree < dirp.dirsiz then none
  else
    let dirp := { dirp with d_reclen := c.spacefree.toNat }
    (ufsdirhashAdd hash c.ip dirp (ulr_offset + (c.epoff + c.dsize))).map fun ip =>
      (ip, c.trimmed ++ [{ c.ep with d_reclen := c.dsize }] ++ [dirp])

def ufsDircompact (ip : Inode) (ulr_offset ulr_count : Nat) (dirp : Direct) : Option Inode :=
  (ip.blocks[ulr_offset / dirblksiz]?).bind fun block =>
    (seek block (ulr_offset % dirblksiz)).bind fun (front, rest) =>
      match rest with
      | [] => none
      | ep :: rest =>
        (compactLoop hash ulr_offset ulr_count rest
            { ip
              trimmed := []
              ep
              epoff := 0
              dsize := ep.inUse
              spacefree := ep.d_reclen - ep.inUse
              loc := ep.d_reclen }).bind fun (c, rest) =>
          (compactEnd hash ulr_offset dirp c).bind fun (ip, records) =>
            checkBlockAt hash
              { ip with
                blocks := ip.blocks.set (ulr_offset / dirblksiz) (front ++ records ++ rest) }
              ulr_offset

def ufsDirenter (ip : Inode) (dirp : Direct) (ulr : Option (Nat × Nat)) : Option Inode :=
  match ulr with
  | none => ufsDirgrow hash ip dirp
  | some (ulr_offset, ulr_count) => ufsDircompact hash ip ulr_offset ulr_count dirp

def calcCount (ulr_offset prevoff : Nat) : Nat :=
  if ulr_offset % dirblksiz = 0 then 0 else ulr_offset - prevoff

def ufsDirremove (ip : Inode) (ulr_offset ulr_count ulr_reclen : Nat) : Option Inode :=
  let start := ulr_offset - ulr_count
  (ip.blocks[start / dirblksiz]?).bind fun block =>
    (seek block (start % dirblksiz)).bind fun (front, rest) =>
      match rest with
      | [] => none
      | ep :: rest =>
        if ulr_count = 0 then
          (ufsdirhashRemove hash ip ep ulr_offset).bind fun ip =>
            checkBlockAt hash
              { ip with
                blocks := ip.blocks.set (start / dirblksiz)
                  (front ++ { ep with d_ino := 0 } :: rest) }
              ulr_offset
        else
          rest.head?.bind fun dirp =>
            (ufsdirhashRemove hash ip dirp ulr_offset).bind fun ip =>
              (seek rest ulr_reclen).bind fun (_, rest) =>
                checkBlockAt hash
              { ip with
                    blocks := ip.blocks.set (start / dirblksiz)
                      (front ++ { ep with d_reclen := ep.d_reclen + ulr_reclen } :: rest) }
                  ulr_offset

/-- The blocks from an offset on cut off, as at the end of `ufs_direnter`. -/
def ufsTruncate (ip : Inode) (ulr_endoff : Nat) : Option Inode :=
  if ulr_endoff ≠ 0 ∧ ulr_endoff < ip.i_size then
    (ufsdirhashDirtrunc ip ulr_endoff).map fun ip =>
      { ip with blocks := ip.blocks.take (howmany ulr_endoff dirblksiz) }
  else some ip

/-- A fresh block of one unused record at the end of the directory. -/
def growUnused (ip : Inode) (name : List UInt8) : Option Inode :=
  ufsdirhashNewblk { ip with blocks := ip.blocks ++ [[⟨0, dirblksiz, name⟩]] } ip.i_size

end Enter

/-!
### The directory

What a directory says: its well-formed blocks, the names in it with the
offsets of their records, and the free bytes of a block.
-/

open NetBSD.Machine

/-- A record with a length that is aligned and holds its entry. -/
structure Direct.WellFormed (dp : Direct) : Prop where
  positive : 0 < dp.d_reclen
  aligned : diralign ∣ dp.d_reclen
  fits : dp.inUse ≤ dp.d_reclen

def reclens (block : List Direct) : Nat := (block.map Direct.d_reclen).sum

/-- The bytes of a run of records that no entry uses. -/
def freeBytes (block : List Direct) : Nat := (block.map fun dp => dp.d_reclen - dp.inUse).sum

/-- A block that its records fill. -/
structure BlockWellFormed (block : List Direct) : Prop where
  records : ∀ dp ∈ block, dp.WellFormed
  whole : reclens block = dirblksiz

/-- The names of a run of records, with the offsets of the records. -/
def liveFrom : List Direct → (pos : Nat) → List (List UInt8 × Nat)
  | [], _ => []
  | dp :: rest, pos =>
    (if dp.d_ino = 0 then [] else [(dp.d_name, pos)]) ++ liveFrom rest (pos + dp.d_reclen)

/-- The names of a run of blocks, with the offsets of the records. -/
def dirLive : List (List Direct) → (pos : Nat) → List (List UInt8 × Nat)
  | [], _ => []
  | block :: rest, pos => liveFrom block pos ++ dirLive rest (pos + dirblksiz)

/-- The names of a directory, with the offsets of the records. -/
def Inode.live (ip : Inode) : List (List UInt8 × Nat) := dirLive ip.blocks 0

section Records

variable {block pre back : List Direct} {dp : Direct} {pos offset i : Nat} {name : List UInt8}

@[simp] theorem reclens_nil : reclens [] = 0 := rfl

@[simp] theorem reclens_cons : reclens (dp :: back) = dp.d_reclen + reclens back := by
  simp only [reclens, map_cons, sum_cons]

@[simp] theorem reclens_append : reclens (pre ++ back) = reclens pre + reclens back := by
  simp only [reclens, map_append, sum_append]

@[simp] theorem freeBytes_nil : freeBytes [] = 0 := rfl

@[simp] theorem freeBytes_cons :
    freeBytes (dp :: back) = (dp.d_reclen - dp.inUse) + freeBytes back := by
  simp only [freeBytes, map_cons, sum_cons]

@[simp] theorem freeBytes_append : freeBytes (pre ++ back) = freeBytes pre + freeBytes back := by
  simp only [freeBytes, map_append, sum_append]

theorem liveFrom_append :
    liveFrom (pre ++ back) pos = liveFrom pre pos ++ liveFrom back (pos + reclens pre) := by
  induction pre generalizing pos with
  | nil => rfl
  | cons dp tl ih =>
    rw [cons_append, liveFrom, liveFrom, ih, reclens_cons, append_assoc, add_assoc]

theorem liveFrom_of_live (live : dp.d_ino ≠ 0) :
    liveFrom (dp :: back) pos = (dp.d_name, pos) :: liveFrom back (pos + dp.d_reclen) := by
  rw [liveFrom, if_neg live]
  rfl

theorem liveFrom_of_unused (fresh : dp.d_ino = 0) :
    liveFrom (dp :: back) pos = liveFrom back (pos + dp.d_reclen) := by
  rw [liveFrom, if_pos fresh]
  rfl

theorem liveFrom_cons :
    liveFrom (dp :: back) pos = liveFrom [dp] pos ++ liveFrom back (pos + dp.d_reclen) := by
  rw [liveFrom, liveFrom, liveFrom, append_nil]

theorem mem_liveFrom : (name, offset) ∈ liveFrom block pos ↔ ∃ pre dp back,
    block = pre ++ dp :: back ∧ dp.d_ino ≠ 0 ∧ dp.d_name = name ∧
      offset = pos + reclens pre := by
  constructor
  · induction block generalizing pos with
    | nil => nofun
    | cons head tl ih =>
      intro isMem
      cases mem_append.mp isMem with
      | inl hd =>
        by_cases fresh : head.d_ino = 0
        · rw [if_pos fresh] at hd
          cases hd
        · rw [if_neg fresh] at hd
          cases mem_singleton.mp hd
          exact ⟨[], head, tl, rfl, fresh, rfl, rfl⟩
      | inr late =>
        obtain ⟨pre, dp, back, rfl, live, hname, isOffset⟩ := ih late
        refine ⟨head :: pre, dp, back, rfl, live, hname, ?_⟩
        rw [isOffset, reclens_cons, add_assoc]
  · rintro ⟨pre, dp, back, rfl, live, rfl, rfl⟩
    rw [liveFrom_append, liveFrom_of_live live]
    exact mem_append_right _ mem_cons_self

theorem seek_append (recs : ∀ dp ∈ pre, dp.WellFormed) :
    seek (pre ++ back) (reclens pre) = some (pre, back) := by
  induction pre with
  | nil =>
    unfold seek
    rfl
  | cons dp tl ih =>
    have pos' := (recs dp mem_cons_self).positive
    have tail := ih (forall_mem_cons.mp recs).2
    obtain ⟨length, len⟩ : ∃ length, dp.d_reclen + reclens tl = length + 1 :=
      ⟨dp.d_reclen + reclens tl - 1, by omega⟩
    have left : length + 1 - dp.d_reclen = reclens tl := by omega
    rw [reclens_cons, len, cons_append, seek, if_neg (by omega), left, tail]
    rfl

theorem inUse_aligned (dp : Direct) : diralign ∣ dp.inUse := by
  unfold Direct.inUse Direct.dirsiz directsiz diralign
  split <;> omega

theorem freeBytes_aligned (recs : ∀ dp ∈ block, dp.WellFormed) : diralign ∣ freeBytes block := by
  induction block with
  | nil => exact ⟨0, rfl⟩
  | cons dp tl ih =>
    exact Nat.dvd_add (Nat.dvd_sub (recs dp mem_cons_self).aligned (inUse_aligned dp))
      (ih (forall_mem_cons.mp recs).2)

theorem freeBytes_le (block : List Direct) : freeBytes block ≤ reclens block := by
  induction block with
  | nil => exact le_refl 0
  | cons dp tl ih =>
    rw [freeBytes_cons, reclens_cons]
    omega

theorem liveFrom_sorted (recs : ∀ dp ∈ block, dp.WellFormed) :
    ((liveFrom block pos).map Prod.snd).Pairwise (· < ·) ∧
      ∀ e ∈ liveFrom block pos, pos ≤ e.2 ∧ e.2 < pos + reclens block := by
  induction block generalizing pos with
  | nil => exact ⟨List.Pairwise.nil, nofun⟩
  | cons dp tl ih =>
    have pos' := (recs dp mem_cons_self).positive
    obtain ⟨sort, lt⟩ := @ih (pos + dp.d_reclen) (forall_mem_cons.mp recs).2
    rw [reclens_cons]
    by_cases fresh : dp.d_ino = 0
    · rw [liveFrom_of_unused fresh]
      refine ⟨sort, fun e isMem => ?_⟩
      have bnds := lt e isMem
      omega
    rw [liveFrom_of_live fresh]
    constructor
    · rw [map_cons, pairwise_cons]
      refine ⟨fun later late => ?_, sort⟩
      obtain ⟨e, isMem, rfl⟩ := mem_map.mp late
      have bnds := lt e isMem
      omega
    intro e isMem
    cases mem_cons.mp isMem with
    | inl here =>
      subst here
      exact ⟨le_refl pos, by omega⟩
    | inr late =>
      have bnds := lt e late
      omega

end Records

section Blocks

variable {blocks pre back : List (List Direct)} {block : List Direct} {pos offset i : Nat}
  {name : List UInt8} {ip : Inode}

theorem dirLive_append : dirLive (pre ++ back) pos =
    dirLive pre pos ++ dirLive back (pos + pre.length * dirblksiz) := by
  induction pre generalizing pos with
  | nil => simp only [nil_append, dirLive, length_nil, zero_mul, add_zero]
  | cons block tl ih =>
    have next : pos + dirblksiz + tl.length * dirblksiz =
        pos + (tl.length + 1) * dirblksiz := by
      rw [add_mul]
      omega
    rw [cons_append, dirLive, dirLive, ih, length_cons, next, append_assoc]

theorem mem_dirLive : (name, offset) ∈ dirLive blocks pos ↔
    ∃ i block, blocks[i]? = some block ∧ (name, offset) ∈ liveFrom block (pos + i * dirblksiz) := by
  induction blocks generalizing pos with
  | nil => simp [dirLive]
  | cons head tl ih =>
    rw [dirLive, mem_append, ih]
    constructor
    · rintro (hd | ⟨i, block, fnd, isMem⟩)
      · exact ⟨0, head, rfl, by rwa [zero_mul, add_zero]⟩
      · refine ⟨i + 1, block, fnd, ?_⟩
        rwa [add_mul, one_mul, add_comm (i * dirblksiz), ← add_assoc]
    rintro ⟨i, block, fnd, isMem⟩
    cases i with
    | zero =>
      left
      cases fnd
      rwa [zero_mul, add_zero] at isMem
    | succ i =>
      right
      refine ⟨i, block, fnd, ?_⟩
      rwa [add_mul, one_mul, add_comm (i * dirblksiz), ← add_assoc] at isMem

theorem dirLive_sorted (wf : ∀ block ∈ blocks, BlockWellFormed block) :
    ((dirLive blocks pos).map Prod.snd).Pairwise (· < ·) ∧ ∀ e ∈ dirLive blocks pos,
      pos ≤ e.2 ∧ e.2 < pos + blocks.length * dirblksiz := by
  induction blocks generalizing pos with
  | nil => exact ⟨List.Pairwise.nil, nofun⟩
  | cons block tl ih =>
    obtain ⟨recs, whole⟩ := wf block mem_cons_self
    obtain ⟨sort, lt⟩ := @liveFrom_sorted block pos recs
    obtain ⟨sortedRest, insideRest⟩ :=
      @ih (pos + dirblksiz) (forall_mem_cons.mp wf).2
    have total : pos + (tl.length + 1) * dirblksiz =
        pos + dirblksiz + tl.length * dirblksiz := by
      rw [add_mul]
      omega
    rw [dirLive, length_cons]
    constructor
    · rw [map_append, pairwise_append]
      refine ⟨sort, sortedRest, fun first fst snd h2 => ?_⟩
      obtain ⟨e, isMem, rfl⟩ := mem_map.mp fst
      obtain ⟨later, late, rfl⟩ := mem_map.mp h2
      have upTo := (lt e isMem).2
      have from_ := (insideRest later late).1
      omega
    intro e isMem
    cases mem_append.mp isMem with
    | inl isHere =>
      have bnds := lt e isHere
      omega
    | inr late =>
      have bnds := insideRest e late
      omega

theorem record_of_live (wf : ∀ block ∈ ip.blocks, BlockWellFormed block)
    (live : (name, offset) ∈ ip.live) : ∃ b pre dp back,
      ip.blocks[b]? = some (pre ++ dp :: back) ∧ dp.d_ino ≠ 0 ∧ dp.d_name = name ∧
        offset = b * dirblksiz + reclens pre ∧ offset / dirblksiz = b ∧
        offset % dirblksiz = reclens pre ∧ ip.direct offset = some dp := by
  obtain ⟨b, block, fnd, isMem⟩ := mem_dirLive.mp live
  obtain ⟨pre, dp, back, rfl, used, hname, isOffset⟩ := mem_liveFrom.mp isMem
  obtain ⟨recs, whole⟩ := wf _ (mem_of_getElem? fnd)
  have pos' := (recs dp (mem_append_right _ mem_cons_self)).positive
  rw [reclens_append, reclens_cons] at whole
  rw [zero_add] at isOffset
  have quo : offset / dirblksiz = b := by
    unfold dirblksiz at whole isOffset ⊢
    omega
  have remainder : offset % dirblksiz = reclens pre := by
    unfold dirblksiz at whole isOffset ⊢
    omega
  have frontRecords : ∀ dp ∈ pre, dp.WellFormed := (forall_mem_append.mp recs).1
  refine ⟨b, pre, dp, back, fnd, used, hname, isOffset, quo, remainder, ?_⟩
  rw [Inode.direct, quo, remainder, fnd, Option.bind_some, seek_append frontRecords,
    Option.bind_some, head?_cons]

theorem direct_of_live (wf : ∀ block ∈ ip.blocks, BlockWellFormed block)
    (live : (name, offset) ∈ ip.live) : offset < ip.i_size ∧ ∃ dp, ip.direct offset = some dp ∧
      dp.d_ino ≠ 0 ∧ dp.d_name = name ∧ dp.WellFormed ∧
      dp.d_reclen ≤ dirblksiz - offset % dirblksiz := by
  have lt := ((dirLive_sorted wf).2 _ live).2
  refine ⟨by rwa [zero_add] at lt, ?_⟩
  obtain ⟨b, pre, dp, back, fnd, used, hname, _, _, remainder, hread⟩ :=
    record_of_live wf live
  obtain ⟨recs, whole⟩ := wf _ (mem_of_getElem? fnd)
  rw [reclens_append, reclens_cons] at whole
  exact ⟨dp, hread, used, hname, recs dp (mem_append_right _ mem_cons_self),
    by omega⟩

end Blocks

end NetBSD.Ufs.UfsDirhash
