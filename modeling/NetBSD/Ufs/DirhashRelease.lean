import NetBSD.Ufs.Dirhash

/-!
Owns the locks and buffers of `ufsdirhash_lookup` on a directory of any bytes: what the call holds
on each of its ways out.
-/

namespace NetBSD.Ufs.Release

open UfsDirhash (directsiz)

section Model

/-- What a call holds: `ufsdirhash_lock`, `dh_lock`, and buffers by the read that they come from. -/
structure Held where
  listLock : Bool
  lock : Bool
  buffers : List Nat
deriving DecidableEq, Repr

/-- What a call reads. The masks of the source are remainders, as the sizes are powers of two. -/
structure Lookup where
  /-- `i_dirhash` is null. -/
  noDirhash : Bool
  /-- `TAILQ_NEXT(dh, dh_list)` is not null. -/
  hasNext : Bool
  /-- `dh_hash` is null at the first look. -/
  noHash : Bool
  /-- `dh_hash` is null at a look after that many reads. -/
  gone : Nat → Bool
  /-- `DH_ENTRY`. -/
  entry : Nat → Int
  dh_hlen : Nat
  dh_seqoff : Int
  /-- `ufsdirhash_hash(dh, name, namelen)`. -/
  hash : Nat
  name : List UInt8
  /-- `prevoffp` is not null. -/
  wantPrev : Bool
  i_size : Nat
  f_iosize : Nat
  dirblksiz : Nat
  /-- The bytes of the directory. -/
  bytes : Nat → UInt8
  /-- The reads that `ufs_blkatoff` fails in. -/
  fails : Nat → Bool

/-- The variables of a call. -/
structure Vars where
  bp : Option Nat
  blkoff : Option Nat
  reads : Nat
  dh_seqopt : Bool
  held : Held
deriving DecidableEq, Repr

inductive Result where
  | ejustreturn
  | enoent
  | found (bp : Option Nat) (offset : Nat) (prevoff : Option Nat)
deriving DecidableEq, Repr

structure Outcome where
  result : Result
  dh_seqopt : Bool
  dh_seqoff : Int
  held : Held
deriving DecidableEq, Repr

def Held.unlock (held : Held) : Held := { held with lock := false }

def Held.brelse (held : Held) (bp : Option Nat) : Held :=
  { held with buffers := held.buffers.filter fun b => bp ≠ some b }

def Lookup.reclen (lookup : Lookup) (offset : Nat) : Nat :=
  (lookup.bytes (offset + 4)).toNat + 256 * (lookup.bytes (offset + 5)).toNat

def Lookup.namlen (lookup : Lookup) (offset : Nat) : Nat := (lookup.bytes (offset + 7)).toNat

def Lookup.isName (lookup : Lookup) (offset : Nat) : Bool :=
  lookup.namlen offset = lookup.name.length &&
    (List.range lookup.name.length).map (fun i => lookup.bytes (offset + 8 + i)) == lookup.name

def Lookup.wrapincr (lookup : Lookup) (slot : Nat) : Nat :=
  if slot + 1 = lookup.dh_hlen then 0 else slot + 1

def Lookup.getprevLoop (lookup : Lookup) (blkoff entrypos : Nat) :
    (fuel i prevoff : Nat) → Option Nat
  | 0, _, prevoff => some prevoff
  | fuel + 1, i, prevoff =>
    if i < entrypos then
      let reclen := lookup.reclen (blkoff + i)
      if reclen = 0 ∨ entrypos < i + reclen then none
      else lookup.getprevLoop blkoff entrypos fuel (i + reclen) (blkoff + i)
    else some prevoff

/-- `none` is -1. Every round takes a byte at least. -/
def Lookup.ufsdirhashGetprev (lookup : Lookup) (offset : Nat) : Option Nat :=
  let entrypos := offset % lookup.dirblksiz
  let blkoff := offset - entrypos
  if entrypos = 0 then none else lookup.getprevLoop blkoff entrypos entrypos 0 blkoff

/-- What a search comes to. -/
inductive SearchEnd where
  | empty
  | unread
  | corrupted
  | gone
  | found (offset : Nat)
deriving DecidableEq, Repr

/-- The part of a round that gets the block of an entry; it ends where the read fails. -/
def Lookup.blkatoff (lookup : Lookup) (vars : Vars) (offset : Nat) : Vars × Bool :=
  let blkoff := offset - offset % lookup.f_iosize
  if vars.blkoff = some blkoff then (vars, true)
  else
    let held := vars.held.brelse vars.bp
    let vars := { vars with blkoff := some blkoff, reads := vars.reads + 1 }
    if lookup.fails (vars.reads - 1) then ({ vars with bp := none, held }, false)
    else
      ({ vars with
          bp := some (vars.reads - 1)
          held := { held with buffers := (vars.reads - 1) :: held.buffers } }, true)

/-- The loop over the hash chain. A panic has no result, and a chain without end neither. -/
def Lookup.search (lookup : Lookup) : (fuel slot : Nat) → Vars → Option (SearchEnd × Vars)
  | 0, _, _ => none
  | fuel + 1, slot, vars =>
    let offset := lookup.entry slot
    if offset = -1 then some (.empty, vars)
    else if offset = -2 then lookup.search fuel (lookup.wrapincr slot) vars
    else if offset < 0 ∨ lookup.i_size ≤ offset then none
    else
      match lookup.blkatoff vars offset.toNat with
      | (vars, false) => some (.unread, vars)
      | (vars, true) =>
        let reclen := lookup.reclen offset.toNat
        if reclen = 0 ∨ lookup.dirblksiz - offset.toNat % lookup.dirblksiz < reclen then
          some (.corrupted, vars)
        else if lookup.isName offset.toNat then some (.found offset.toNat, vars)
        else if lookup.gone vars.reads then some (.gone, vars)
        else if vars.dh_seqopt then
          lookup.search fuel lookup.hash { vars with dh_seqopt := false }
        else lookup.search fuel (lookup.wrapincr slot) vars

/-- The slot of the chain at which the entry behind the last one is, if it is there. -/
def Lookup.seqSlot (lookup : Lookup) : (fuel i : Nat) → Option (Option Nat)
  | 0, _ => none
  | fuel + 1, i =>
    if lookup.entry i = lookup.dh_seqoff then some (some i)
    else if lookup.entry i = -1 then some none
    else lookup.seqSlot fuel (lookup.wrapincr i)

def Lookup.searched (lookup : Lookup) (fuel : Nat) (dh_seqopt : Bool) (held : Held) :
    Option (SearchEnd × Vars) :=
  if dh_seqopt then
    match lookup.seqSlot fuel lookup.hash with
    | none => none
    | some (some i) => lookup.search fuel i ⟨none, none, 0, true, held⟩
    | some none => lookup.search fuel lookup.hash ⟨none, none, 0, false, held⟩
  else lookup.search fuel lookup.hash ⟨none, none, 0, false, held⟩

def Lookup.leave (lookup : Lookup) (result : Result) (vars : Vars) (held : Held) : Outcome :=
  ⟨result, vars.dh_seqopt, lookup.dh_seqoff, held⟩

/-- What `*prevoffp` is set to, where it is; `none` where `ufsdirhash_getprev` gives up. -/
def Lookup.prevoff (lookup : Lookup) (offset : Nat) : Option (Option Nat) :=
  if lookup.wantPrev then
    if offset % lookup.dirblksiz = 0 then some (some offset)
    else (lookup.ufsdirhashGetprev offset).map some
  else some none

def Lookup.finish (lookup : Lookup) : SearchEnd × Vars → Outcome
  | (.empty, vars) => lookup.leave .enoent vars (vars.held.unlock.brelse vars.bp)
  | (.unread, vars) => lookup.leave .ejustreturn vars vars.held.unlock
  | (.corrupted, vars) | (.gone, vars) =>
    lookup.leave .ejustreturn vars (vars.held.unlock.brelse vars.bp)
  | (.found offset, vars) =>
    match lookup.prevoff offset with
    | none => lookup.leave .ejustreturn vars (vars.held.brelse vars.bp)
    | some prevoff =>
      ⟨.found vars.bp offset prevoff, vars.dh_seqopt || lookup.dh_seqoff = offset,
        offset + directsiz (lookup.namlen offset), vars.held.unlock⟩

/-- The call on a hash with this `dh_seqopt`, if it returns within some rounds. -/
def Lookup.ufsdirhashLookup (lookup : Lookup) (fuel : Nat) (dh_seqopt : Bool) : Option Outcome :=
  if lookup.noDirhash then
    some ⟨.ejustreturn, dh_seqopt, lookup.dh_seqoff, ⟨false, false, []⟩⟩
  else
    let held : Held :=
      if lookup.hasNext then { (⟨true, true, []⟩ : Held) with listLock := false }
      else ⟨false, true, []⟩
    if lookup.noHash then some ⟨.ejustreturn, dh_seqopt, lookup.dh_seqoff, held.unlock⟩
    else (lookup.searched fuel dh_seqopt held).map lookup.finish

end Model

section Release

variable {lookup : Lookup} {fuel slot : Nat} {vars vars' : Vars} {dh_seqopt : Bool} {out : Outcome}
  {ended : SearchEnd}

end Release

end NetBSD.Ufs.Release
