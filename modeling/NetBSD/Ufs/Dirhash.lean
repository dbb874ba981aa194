import NetBSD.Machine.Probing

/-!
Owns the directory hash of `sys/ufs/ufs/ufs_dirhash.c`: the table that maps names
to the offsets of their records, the count of free words of every block, and the
first block of every class of free space. A directory block is the list of its
records, in native byte order. In what may fail, `none` is a panic, a failed
assertion, a read past a buffer or a loop that does not end.
-/

namespace NetBSD.Ufs.UfsDirhash

open NetBSD.Machine Function

/-- `struct direct`; `d_namlen` is the length of the name. -/
structure Direct where
  d_ino : Nat
  d_reclen : Nat
  d_name : List UInt8
deriving DecidableEq, Repr

def directsiz (namlen : Nat) : Nat := 8 + (namlen + 1 + 3) / 4 * 4

/-- `UFS_DIRSIZ` of the new format. -/
def Direct.dirsiz (dp : Direct) : Nat := directsiz dp.d_name.length

/-- The bytes of a record that are in use. -/
def Direct.inUse (dp : Direct) : Nat := if dp.d_ino = 0 then 0 else dp.dirsiz

def dirblksiz : Nat := 512

def diralign : Nat := 4

def howmany (x y : Nat) : Nat := (x + (y - 1)) / y

def ffsMaxnamlen : Nat := 255

def dhNfstats : Nat := directsiz (ffsMaxnamlen + 1) / diralign

def dhNblkoff : Nat := 256

def dirhashminblks : Nat := 5

def blkfree2idx (n : Nat) : Nat := if dhNfstats < n then dhNfstats else n

/-- `struct dirhash`. `DIRHASH_EMPTY` and `DIRHASH_DEL` are slots of their own, -1 in
`dh_firstfree` is `none`. -/
structure Dirhash where
  dh_hash : Nat → Slot Nat
  dh_narrays : Nat
  dh_hlen : Nat
  dh_hused : Int
  dh_blkfree : Nat → Nat
  dh_nblk : Nat
  dh_dirblks : Nat
  dh_firstfree : Nat → Option Nat
  dh_seqopt : Bool
  dh_seqoff : Nat

/-- The directory and `i_dirhash`. -/
structure Inode where
  blocks : List (List Direct)
  i_dirhash : Option Dirhash

def Inode.i_size (ip : Inode) : Nat := ip.blocks.length * dirblksiz

/-- The records before byte `i` of a block, and those from there on. -/
def seek : List Direct → (i : Nat) → Option (List Direct × List Direct)
  | block, 0 => some ([], block)
  | [], _ + 1 => none
  | dp :: rest, i + 1 =>
    if i + 1 < dp.d_reclen then none
    else (seek rest (i + 1 - dp.d_reclen)).map fun found => (dp :: found.1, found.2)

/-- The record at an offset of the directory. -/
def Inode.direct (ip : Inode) (offset : Nat) : Option Direct :=
  (ip.blocks[offset / dirblksiz]?).bind fun block =>
    (seek block (offset % dirblksiz)).bind fun found => found.2.head?

section Hash

variable (hash : List UInt8 → Nat)

def ufsdirhashHash (dh : Dirhash) (name : List UInt8) : Nat := hash name % dh.dh_hlen

def ufsdirhashAdjfree (dh : Dirhash) (offset : Nat) (diff : Int) : Option Dirhash :=
  let block := offset / dirblksiz
  if block < dh.dh_nblk ∧ block < dh.dh_dirblks then
    let ofidx := blkfree2idx (dh.dh_blkfree block)
    let words := (((dh.dh_blkfree block : Int) + diff.tdiv diralign) % 256).toNat
    let blkfree := update dh.dh_blkfree block words
    let nfidx := blkfree2idx words
    if ofidx = nfidx then some { dh with dh_blkfree := blkfree }
    else
      let firstfree :=
        if dh.dh_firstfree ofidx = some block then
          update dh.dh_firstfree ofidx
            ((List.range' (block + 1) (dh.dh_dirblks - (block + 1))).find? fun i =>
              decide (blkfree2idx (blkfree i) = ofidx))
        else dh.dh_firstfree
      some { dh with
        dh_blkfree := blkfree
        dh_firstfree := update firstfree nfidx (match firstfree nfidx with
            | none => some block
            | some first => if block < first then some block else some first) }
  else none

def ufsdirhashFindslot (dh : Dirhash) (name : List UInt8) (offset : Nat) : Option Nat :=
  if dh.dh_hused < dh.dh_hlen then
    (scan dh.dh_hlen (fun slot => dh.dh_hash slot == .used offset || dh.dh_hash slot == .empty)
        dh.dh_hlen (ufsdirhashHash hash dh name)).bind fun slot =>
      if dh.dh_hash slot = .used offset then some slot else none
  else none

/-- The loop of `ufsdirhash_delslot` over the deleted slots before an empty one. -/
def delslotLoop : (fuel i : Nat) → Dirhash → Option Dirhash
  | 0, _, _ => none
  | fuel + 1, i, dh =>
    if dh.dh_hash i = .del then
      delslotLoop fuel (wrapDecr i dh.dh_hlen) { dh with
          dh_hash := update dh.dh_hash i .empty
          dh_hused := dh.dh_hused - 1 }
    else some dh

def ufsdirhashDelslot (dh : Dirhash) (slot : Nat) : Option Dirhash :=
  let dh := { dh with dh_hash := update dh.dh_hash slot .del }
  (scan dh.dh_hlen (fun i => dh.dh_hash i != .del) dh.dh_hlen slot).bind fun i =>
    if dh.dh_hash i = .empty then
      (delslotLoop dh.dh_hlen (wrapDecr i dh.dh_hlen) dh).bind fun dh =>
        if 0 ≤ dh.dh_hused then some dh else none
    else some dh

/-- A slot that `ufsdirhash_add` may use: empty or deleted. -/
def isFree : Slot Nat → Bool
  | .used _ => false
  | _ => true

def ufsdirhashAdd (ip : Inode) (dirp : Direct) (offset : Nat) : Option Inode :=
  match ip.i_dirhash with
  | none => some ip
  | some dh =>
    if dh.dh_dirblks * dirblksiz ≤ offset then none
    else if (dh.dh_hlen * 3 / 4 : Nat) ≤ dh.dh_hused then some { ip with i_dirhash := none }
    else
      (scan dh.dh_hlen (fun slot => isFree (dh.dh_hash slot)) dh.dh_hlen
          (ufsdirhashHash hash dh dirp.d_name)).bind fun slot =>
        let hused := if dh.dh_hash slot = .empty then dh.dh_hused + 1 else dh.dh_hused
        (ufsdirhashAdjfree { dh with
              dh_hash := update dh.dh_hash slot (.used offset)
              dh_hused := hused }
            offset (-dirp.dirsiz)).map fun dh => { ip with i_dirhash := some dh }

def ufsdirhashRemove (ip : Inode) (dirp : Direct) (offset : Nat) : Option Inode :=
  match ip.i_dirhash with
  | none => some ip
  | some dh =>
    if dh.dh_dirblks * dirblksiz ≤ offset then none
    else
      (ufsdirhashFindslot hash dh dirp.d_name offset).bind fun slot =>
        (ufsdirhashDelslot dh slot).bind fun dh =>
          (ufsdirhashAdjfree dh offset dirp.dirsiz).map fun dh => { ip with i_dirhash := some dh }

def ufsdirhashMove (ip : Inode) (dirp : Direct) (oldoff newoff : Nat) : Option Inode :=
  match ip.i_dirhash with
  | none => some ip
  | some dh =>
    if oldoff < dh.dh_dirblks * dirblksiz ∧ newoff < dh.dh_dirblks * dirblksiz then
      (ufsdirhashFindslot hash dh dirp.d_name oldoff).map fun slot =>
        { ip with
          i_dirhash := some { dh with dh_hash := update dh.dh_hash slot (.used newoff) } }
    else none

def ufsdirhashNewblk (ip : Inode) (offset : Nat) : Option Inode :=
  match ip.i_dirhash with
  | none => some ip
  | some dh =>
    if offset = dh.dh_dirblks * dirblksiz then
      let block := offset / dirblksiz
      if dh.dh_nblk ≤ block then some { ip with i_dirhash := none }
      else
        some { ip with
          i_dirhash := some { dh with
            dh_dirblks := block + 1
            dh_blkfree := update dh.dh_blkfree block (dirblksiz / diralign)
            dh_firstfree :=
              if dh.dh_firstfree dhNfstats = none then
                update dh.dh_firstfree dhNfstats (some block)
              else dh.dh_firstfree } }
    else none

def ufsdirhashDirtrunc (ip : Inode) (offset : Nat) : Option Inode :=
  match ip.i_dirhash with
  | none => some ip
  | some dh =>
    if dh.dh_dirblks * dirblksiz < offset then none
    else
      let block := howmany offset dirblksiz
      if block < dh.dh_nblk / 8 ∧ 1 < dh.dh_narrays then some { ip with i_dirhash := none }
      else
        let firstfree :=
          if (dh.dh_firstfree dhNfstats).any fun first => decide (block ≤ first) then
            update dh.dh_firstfree dhNfstats none
          else dh.dh_firstfree
        if (List.range' block (dh.dh_dirblks - block)).any
            (fun i => dh.dh_blkfree i != dirblksiz / diralign) then none
        else if (List.range dhNfstats).any
            (fun i => (firstfree i).any fun first => decide (block ≤ first)) then none
        else
          some { ip with
            i_dirhash := some { dh with dh_dirblks := block, dh_firstfree := firstfree } }

def endusefulLoop (blkfree : Nat → Nat) : Nat → Nat
  | 0 => 0
  | i + 1 => if blkfree i ≠ dirblksiz / diralign then i + 1 else endusefulLoop blkfree i

def ufsdirhashEnduseful (ip : Inode) : Option (Option Nat) :=
  match ip.i_dirhash with
  | none => some none
  | some dh =>
    if dh.dh_dirblks = 0 then none
    else if dh.dh_blkfree (dh.dh_dirblks - 1) ≠ dirblksiz / diralign then some none
    else some (some (endusefulLoop dh.dh_blkfree dh.dh_dirblks * dirblksiz))

/-! ### Finding room -/

/-- The first entry with free space, with its position; `none` returns -1. -/
def skipFull : List Direct → (i : Nat) → Option (Nat × List Direct)
  | [], i => some (i, [])
  | dp :: rest, i =>
    if i < dirblksiz then
      if dp.d_reclen = 0 then none
      else if dp.d_ino = 0 ∨ dp.dirsiz < dp.d_reclen then some (i, dp :: rest)
      else skipFull rest (i + dp.d_reclen)
    else some (i, dp :: rest)

/-- The range of entries needed to get enough space; `none` returns -1. -/
def gatherFree (slotneeded : Nat) : List Direct → (i : Nat) → (freebytes : Int) → Option (Nat × Int)
  | [], i, freebytes => some (i, freebytes)
  | dp :: rest, i, freebytes =>
    if i < dirblksiz ∧ freebytes < slotneeded then
      if dp.d_reclen = 0 then none
      else gatherFree slotneeded rest (i + dp.d_reclen) (freebytes + dp.d_reclen - dp.inUse)
    else some (i, freebytes)

/-- `ufsdirhash_findfree`: where the space begins, and `*slotsize`. The inner `none` is -1. -/
def ufsdirhashFindfree (ip : Inode) (slotneeded : Nat) : Option (Option (Nat × Nat)) :=
  match ip.i_dirhash with
  | none => some none
  | some dh =>
    let start := howmany slotneeded diralign
    match (List.range' start (dhNfstats + 1 - start)).findSome? dh.dh_firstfree with
    | none => some none
    | some dirblock =>
      if dirblock < dh.dh_nblk ∧ start ≤ dh.dh_blkfree dirblock then
        (ip.blocks[dirblock]?).bind fun block =>
          match skipFull block 0 with
          | none => some none
          | some (i, rest) =>
            if dirblksiz < i then some none
            else
              match gatherFree slotneeded rest i 0 with
              | none => some none
              | some (after, freebytes) =>
                if dirblksiz < after then some none
                else if freebytes < slotneeded then none
                else some (some (dirblock * dirblksiz + i, after - i))
      else none

/-! ### Looking up -/

def getprevLoop (blkoff entrypos : Nat) : List Direct → (i prevoff : Nat) → Option Nat
  | [], i, prevoff => if i < entrypos then none else some prevoff
  | dp :: rest, i, prevoff =>
    if i < entrypos then
      if dp.d_reclen = 0 ∨ entrypos < i + dp.d_reclen then none
      else getprevLoop blkoff entrypos rest (i + dp.d_reclen) (blkoff + i)
    else some prevoff

def ufsdirhashGetprev (ip : Inode) (offset : Nat) : Option Nat :=
  let blkoff := offset / dirblksiz * dirblksiz
  let entrypos := offset % dirblksiz
  if entrypos = 0 then none
  else (ip.blocks[offset / dirblksiz]?).bind fun block => getprevLoop blkoff entrypos block 0 blkoff

/-- How the search of `ufsdirhash_lookup` leaves its loop. -/
inductive SearchEnd where
  | found (offset : Nat) (dp : Direct)
  | enoent
  | ejustreturn
  | restart

def lookupLoop (ip : Inode) (dh : Dirhash) (name : List UInt8) : (fuel slot : Nat) →
    Option SearchEnd
  | 0, _ => none
  | fuel + 1, slot =>
    match dh.dh_hash slot with
    | .empty => some .enoent
    | .del => lookupLoop ip dh name fuel (wrapIncr slot dh.dh_hlen)
    | .used offset =>
      if ip.i_size ≤ offset then none
      else
        match ip.direct offset with
        | none => none
        | some dp =>
          if dp.d_reclen = 0 ∨ dirblksiz - offset % dirblksiz < dp.d_reclen then
            some .ejustreturn
          else if dp.d_name.length = name.length ∧ dp.d_name = name then
            some (.found offset dp)
          else if dh.dh_seqopt then some .restart
          else lookupLoop ip dh name fuel (wrapIncr slot dh.dh_hlen)

/-- What `ufsdirhash_lookup` returns, with `*offp` and `*prevoffp`. -/
inductive LookupResult where
  | found (offset : Nat) (prevoff : Option Nat)
  | enoent
  | ejustreturn
deriving DecidableEq, Repr

/-- The sequential optimisation: where the search starts. -/
def seqStart (dh : Dirhash) (slot : Nat) : Option (Dirhash × Nat) :=
  if dh.dh_seqopt then
    (scan dh.dh_hlen
        (fun i => dh.dh_hash i == .empty || dh.dh_hash i == .used dh.dh_seqoff) dh.dh_hlen
        slot).map fun i =>
      if dh.dh_hash i = .used dh.dh_seqoff then (dh, i) else ({ dh with dh_seqopt := false }, slot)
  else some (dh, slot)

/-- The code behind the loop of `ufsdirhash_lookup`, and that of an entry it finds there. -/
def lookupEnd (ip : Inode) (wantPrev : Bool) (dh : Dirhash) :
    SearchEnd → Option (LookupResult × Inode)
  | .found offset dp =>
    let prevoff :=
      if offset % dirblksiz ≠ 0 then ufsdirhashGetprev ip offset else some offset
    if wantPrev ∧ prevoff = none then some (.ejustreturn, { ip with i_dirhash := some dh })
    else
      some (.found offset (if wantPrev then prevoff else none), { ip with
        i_dirhash := some { dh with
          dh_seqopt := dh.dh_seqopt || dh.dh_seqoff == offset
          dh_seqoff := offset + dp.dirsiz } })
  | .enoent => some (.enoent, { ip with i_dirhash := some dh })
  | .ejustreturn => some (.ejustreturn, { ip with i_dirhash := some dh })
  | .restart => none

def ufsdirhashLookup (ip : Inode) (name : List UInt8) (wantPrev : Bool) :
    Option (LookupResult × Inode) :=
  match ip.i_dirhash with
  | none => some (.ejustreturn, ip)
  | some dh =>
    let slot := ufsdirhashHash hash dh name
    (seqStart dh slot).bind fun (dh, start) =>
      (lookupLoop ip dh name dh.dh_hlen start).bind fun
        | .restart =>
          let dh := { dh with dh_seqopt := false }
          (lookupLoop ip dh name dh.dh_hlen slot).bind (lookupEnd ip wantPrev dh)
        | ended => lookupEnd ip wantPrev dh ended

/-! ### Checking a block -/

def checkblockLoop (dh : Dirhash) (offset : Nat) : List Direct → (i : Nat) → (nfree : Int) →
    Option (Nat × Int)
  | [], i, nfree => some (i, nfree)
  | dp :: rest, i, nfree =>
    if i < dirblksiz then
      if dp.d_reclen = 0 ∨ dirblksiz < i + dp.d_reclen then none
      else if dp.d_ino = 0 then
        checkblockLoop dh offset rest (i + dp.d_reclen) (nfree + dp.d_reclen)
      else
        (ufsdirhashFindslot hash dh dp.d_name (offset + i)).bind fun _ =>
          checkblockLoop dh offset rest (i + dp.d_reclen) (nfree + (dp.d_reclen - dp.dirsiz))
    else some (i, nfree)

def ufsdirhashCheckblock (ip : Inode) (sbuf : List Direct) (offset : Nat) : Option Unit :=
  match ip.i_dirhash with
  | none => some ()
  | some dh =>
    let block := offset / dirblksiz
    if offset % dirblksiz ≠ 0 ∨ dh.dh_dirblks ≤ block then none
    else
      (checkblockLoop hash dh offset sbuf 0 0).bind fun (i, nfree) =>
        if i ≠ dirblksiz then none
        else if (dh.dh_blkfree block * diralign : Nat) ≠ nfree then none
        else
          let ffslot := blkfree2idx (nfree.toNat / diralign)
          if (List.range (dhNfstats + 1)).any (fun i =>
              decide (dh.dh_firstfree i = some block) && decide (i ≠ ffslot)) then none
          else if dh.dh_firstfree ffslot = none then none
          else some ()

/-! ### Building -/

/-- The loop of `ufsdirhash_build` over the records of a block; the inner `none` fails. -/
def buildLoop (dh : Dirhash) : List Direct → (pos : Nat) → Option (Option Dirhash)
  | [], _ => some (some dh)
  | ep :: rest, pos =>
    if ep.d_reclen = 0 ∨ dirblksiz - pos % dirblksiz < ep.d_reclen then some none
    else if ep.d_ino ≠ 0 then
      (scan dh.dh_hlen (fun slot => dh.dh_hash slot == .empty) dh.dh_hlen
          (ufsdirhashHash hash dh ep.d_name)).bind fun slot =>
        (ufsdirhashAdjfree { dh with
              dh_hused := dh.dh_hused + 1
              dh_hash := update dh.dh_hash slot (.used pos) }
            pos (-ep.dirsiz)).bind fun dh => buildLoop dh rest (pos + ep.d_reclen)
    else buildLoop dh rest (pos + ep.d_reclen)

def buildBlocks (dh : Dirhash) : List (List Direct) → (pos : Nat) → Option (Option Dirhash)
  | [], _ => some (some dh)
  | block :: rest, pos =>
    (buildLoop hash dh block pos).bind fun
      | none => some none
      | some dh => buildBlocks dh rest (pos + dirblksiz)

/-- The table that `ufsdirhash_build` begins with. -/
def buildStart (i_size : Nat) : Dirhash :=
  let nslots := (i_size / directsiz 1 * 3 + 1) / 2
  let narrays := howmany nslots dhNblkoff
  let dirblocks := howmany i_size dirblksiz
  { dh_hash := fun _ => .empty
    dh_narrays := narrays
    dh_hlen := narrays * dhNblkoff
    dh_hused := 0
    dh_blkfree := fun i => if i < dirblocks then dirblksiz / diralign else 0
    dh_nblk := (dirblocks * 3 + 1) / 2
    dh_dirblks := dirblocks
    dh_firstfree := fun i => if i = dhNfstats then some 0 else none
    dh_seqopt := false
    dh_seqoff := 0 }

/-- `ufsdirhash_build`, and whether it returns 0. `available` says that there is memory for the
table and that the directory has not been removed. -/
def ufsdirhashBuild (available : Bool) (ip : Inode) : Option (Bool × Inode) :=
  if ip.i_size < dirhashminblks * dirblksiz then some (false, { ip with i_dirhash := none })
  else if ip.i_dirhash.isSome then some (true, ip)
  else if !available then some (false, ip)
  else
    (buildBlocks hash (buildStart ip.i_size) ip.blocks 0).map fun
      | none => (false, ip)
      | some dh => (true, { ip with i_dirhash := some dh })

end Hash

end NetBSD.Ufs.UfsDirhash
