import Mathlib.Logic.Function.Basic
import NetBSD.Msdosfs.Conv

/-!
Owns the FAT of `fs/msdosfs/msdosfs_fat.c` and `detrunc`: entries of 12, 16 and 32 bits in blocks
of a device, the map of the clusters in use, and the chain of a file. Every read and write of a
block succeeds.
-/

namespace NetBSD.Msdosfs

open Function Nat

section Device

/-- What `pm_fatmask` selects. -/
inductive FatKind where
  | fat12
  | fat16
  | fat32
deriving DecidableEq, Repr

def FatKind.fatmask : FatKind → Nat
  | .fat12 => 0x00000fff
  | .fat16 => 0x0000ffff
  | .fat32 => 0x0fffffff

def FatKind.fatmult : FatKind → Nat
  | .fat12 => 3
  | .fat16 => 2
  | .fat32 => 4

def FatKind.fatdiv : FatKind → Nat
  | .fat12 => 2
  | .fat16 => 1
  | .fat32 => 1

/-- The fields of `struct msdosfsmount` that stay as they are while the volume is mounted. -/
structure Geometry where
  fatKind : FatKind
  bytesPerSec : Nat
  fatsecs : Nat
  fatblk : Nat
  fats : Nat
  curfat : Nat
  fatmirror : Bool
  maxcluster : Nat
  cnshift : Nat
  bnshift : Nat
  rootdirsize : Nat
deriving DecidableEq, Repr

def maxbsize : Nat := 65536

def Geometry.fatblocksize (geo : Geometry) : Nat :=
  match geo.fatKind with
  | .fat12 => 3 * geo.bytesPerSec
  | _ => maxbsize

def Geometry.fatblocksec (geo : Geometry) : Nat := geo.fatblocksize / geo.bytesPerSec

def FatKind.fatofs (kind : FatKind) (cn : Nat) : Nat := cn * kind.fatmult / kind.fatdiv

/-- `fatblock` of an offset in the FAT: the block, its size and the offset in it. -/
def Geometry.fatblock (geo : Geometry) (ofs : Nat) : Nat × Nat × Nat :=
  let bn := ofs / geo.fatblocksize * geo.fatblocksec
  let size := min geo.fatblocksec (geo.fatsecs - bn) * geo.bytesPerSec
  (bn + geo.fatblk + geo.curfat * geo.fatsecs, size, ofs % geo.fatblocksize)

/-- A buffer of so many bytes. -/
structure Buf where
  blkno : Nat
  bcount : Nat
  data : Nat → UInt8

def bread (geo : Geometry) (dev : Nat → UInt8) (bn size : Nat) : Buf :=
  ⟨bn, size, fun k => dev (bn * geo.bytesPerSec + k)⟩

def bwrite (geo : Geometry) (dev : Nat → UInt8) (bn : Nat) (bp : Buf) : Nat → UInt8 := fun a =>
  if bn * geo.bytesPerSec ≤ a ∧ a < bn * geo.bytesPerSec + bp.bcount then
    bp.data (a - bn * geo.bytesPerSec)
  else dev a

def getushort (data : Nat → UInt8) (bo : Nat) : Nat := (data bo).toNat + (data (bo + 1)).toNat * 256

def getulong (data : Nat → UInt8) (bo : Nat) : Nat :=
  getushort data bo + getushort data (bo + 2) * 65536

def putushort (data : Nat → UInt8) (bo value : Nat) : Nat → UInt8 :=
  update (update data bo (UInt8.ofNat value)) (bo + 1) (UInt8.ofNat (value / 256))

def putulong (data : Nat → UInt8) (bo value : Nat) : Nat → UInt8 :=
  putushort (putushort data bo value) (bo + 2) (value / 65536)

end Device

section Usemap

def nInusebits : Nat := 32

def mapWord (inusemap : List (BitVec 32)) (idx : Nat) : BitVec 32 :=
  inusemap[idx]?.getD (BitVec.allOnes 32)

/-- One more than the lowest bit that is set, or 0. -/
def ffs (map : BitVec 32) : Nat :=
  match (List.range nInusebits).find? fun i => map.getLsbD i with
  | some i => i + 1
  | none => 0

/-- The rest of `struct msdosfsmount`, with the device and the free and next-free numbers in the
fsinfo block when there is one. -/
structure Msdosfsmount where
  dev : Nat → UInt8
  inusemap : List (BitVec 32)
  freeclustercount : Nat
  nxtfree : Nat
  fsinfo : Option (Nat × Nat)

def Msdosfsmount.usemapAlloc (pmp : Msdosfsmount) (cn : Nat) : Msdosfsmount :=
  { pmp with
    inusemap := pmp.inusemap.set (cn / nInusebits)
      (mapWord pmp.inusemap (cn / nInusebits) ||| 1#32 <<< (cn % nInusebits))
    freeclustercount := (pmp.freeclustercount + (2 ^ 64 - 1)) % 2 ^ 64 }

def Msdosfsmount.usemapFree (pmp : Msdosfsmount) (cn : Nat) : Msdosfsmount :=
  { pmp with
    freeclustercount := (pmp.freeclustercount + 1) % 2 ^ 64
    inusemap := pmp.inusemap.set (cn / nInusebits)
      (mapWord pmp.inusemap (cn / nInusebits) &&& ~~~(1#32 <<< (cn % nInusebits))) }

def Msdosfsmount.updateFsinfo (pmp : Msdosfsmount) (geo : Geometry) : Msdosfsmount :=
  match pmp.fsinfo with
  | none => pmp
  | some _ =>
    let nxtfree :=
      if pmp.freeclustercount ≠ 0 ∧
          (mapWord pmp.inusemap (pmp.nxtfree / nInusebits)).getLsbD (pmp.nxtfree % nInusebits) then
        let cn := ((List.range geo.maxcluster).find? fun cn =>
          mapWord pmp.inusemap (cn / nInusebits) ≠ BitVec.allOnes 32).getD geo.maxcluster
        cn + ffs (mapWord pmp.inusemap (cn / nInusebits) ^^^ BitVec.allOnes 32) - 1
      else pmp.nxtfree
    { pmp with nxtfree, fsinfo := some (pmp.freeclustercount % 2 ^ 32, nxtfree % 2 ^ 32) }

def copyFats (geo : Geometry) (bp : Buf) : Nat → Nat → (Nat → UInt8) → Nat → UInt8
  | 0, _, dev => dev
  | copies + 1, fatbn, dev =>
    let fatbn := fatbn + geo.fatsecs
    copyFats geo bp copies fatbn (bwrite geo dev fatbn bp)

def updatefats (geo : Geometry) (pmp : Msdosfsmount) (bp : Buf) (fatbn : Nat) : Msdosfsmount :=
  let pmp := pmp.updateFsinfo geo
  let dev := if geo.fatmirror then copyFats geo bp (geo.fats - 1) fatbn pmp.dev else pmp.dev
  { pmp with dev := bwrite geo dev bp.blkno bp }

end Usemap

section Entries

inductive FatError where
  | einval
  | enospc
  | e2big
  | eio
deriving DecidableEq, Repr

def clustFirst : Nat := 2

def FatKind.clustRsrvd (kind : FatKind) : Nat := 0xfffffff6 &&& kind.fatmask

def clustEofe : Nat := 0xffffffff

def FatKind.msdosfseof (kind : FatKind) (cn : Nat) : Bool :=
  cn &&& 0xfffffff8 = 0xfffffff8 &&& kind.fatmask

/-- The entry of a cluster that lies at an offset. -/
def FatKind.getEntry (kind : FatKind) (data : Nat → UInt8) (cn bo : Nat) : Nat :=
  let readcn := if kind = .fat32 then getulong data bo else getushort data bo
  let readcn := if kind = .fat12 ∧ cn % 2 = 1 then readcn >>> 4 else readcn
  readcn &&& kind.fatmask

def FatKind.setEntry (kind : FatKind) (data : Nat → UInt8)
    (cn bo newcontents : Nat) : Nat → UInt8 :=
  match kind with
  | .fat12 =>
    let readcn := getushort data bo
    let readcn :=
      if cn % 2 = 1 then readcn &&& 0x000f ||| newcontents <<< 4
      else readcn &&& 0xf000 ||| newcontents &&& 0xfff
    putushort data bo readcn
  | .fat16 => putushort data bo newcontents
  | .fat32 =>
    let readcn := getulong data bo
    putulong data bo (readcn &&& 0xf0000000 ||| newcontents &&& 0x0fffffff)

inductive FatFunction where
  | get
  | set
  | getAndSet
deriving DecidableEq, Repr

/-- `fatentry`: the old contents when they are asked for. -/
def fatentry (geo : Geometry) (function : FatFunction) (pmp : Msdosfsmount) (cn newcontents : Nat) :
    Except FatError (Option Nat × Msdosfsmount) :=
  if cn < clustFirst ∨ cn > geo.maxcluster then .error .einval
  else
    let (bn, bsize, bo) := geo.fatblock (geo.fatKind.fatofs cn)
    let bp := bread geo pmp.dev bn bsize
    let oldcontents := if function = .set then none else some (geo.fatKind.getEntry bp.data cn bo)
    if function = .get then .ok (oldcontents, pmp)
    else
      let bp := { bp with data := geo.fatKind.setEntry bp.data cn bo newcontents }
      .ok (oldcontents, updatefats geo pmp bp bn)

/-- The old contents and the mount point; on an error the bit is set again. -/
def clusterfree (geo : Geometry) (pmp : Msdosfsmount) (cluster : Nat) :
    Except FatError (Option Nat) × Msdosfsmount :=
  let pmp := pmp.usemapFree cluster
  match fatentry geo .getAndSet pmp cluster 0 with
  | .error error => (.error error, pmp.usemapAlloc cluster)
  | .ok (oldcn, pmp) => (.ok oldcn, pmp)

/-- One round of the inner loop of `fatchain`, when `start` was counted up: the data and the
offset. -/
def FatKind.chainEntry (kind : FatKind) (data : Nat → UInt8) (start bo newc : Nat) :
    (Nat → UInt8) × Nat :=
  match kind with
  | .fat12 =>
    let readcn := getushort data bo
    let readcn :=
      if start % 2 = 1 then readcn &&& 0xf000 ||| newc &&& 0xfff
      else readcn &&& 0x000f ||| newc <<< 4
    (putushort data bo readcn, if start % 2 = 1 then bo + 1 else bo + 2)
  | .fat16 => (putushort data bo newc, bo + 2)
  | .fat32 =>
    let readcn := getulong data bo
    (putulong data bo (readcn &&& 0xf0000000 ||| newc &&& 0x0fffffff), bo + 4)

def fatchainBlock (geo : Geometry) (bsize fillwith : Nat) :
    Nat → Nat → Nat → (Nat → UInt8) → (Nat → UInt8) × Nat × Nat
  | 0, start, _, data => (data, start, 0)
  | count + 1, start, bo, data =>
    let start := start + 1
    let newc := if count > 0 then start else fillwith
    let (data, bo) := geo.fatKind.chainEntry data start bo newc
    if bo ≥ bsize then (data, start, count)
    else fatchainBlock geo bsize fillwith count start bo data

def fatchainLoop (geo : Geometry) (fillwith : Nat) : Nat → Nat → Nat → Msdosfsmount → Msdosfsmount
  | 0, _, _, pmp => pmp
  | rounds + 1, start, count, pmp =>
    if count = 0 then pmp
    else
      let (bn, bsize, bo) := geo.fatblock (geo.fatKind.fatofs start)
      let bp := bread geo pmp.dev bn bsize
      let (data, start, count) := fatchainBlock geo bsize fillwith count start bo bp.data
      fatchainLoop geo fillwith rounds start count (updatefats geo pmp { bp with data } bn)

def fatchain (geo : Geometry) (pmp : Msdosfsmount) (start count fillwith : Nat) :
    Except FatError Msdosfsmount :=
  if start < clustFirst ∨ start + count - 1 > geo.maxcluster then .error .einval
  else .ok (fatchainLoop geo fillwith count start count pmp)

end Entries

section Allocation

def chainlengthLoop (inusemap : List (BitVec 32)) (count : Nat) : Nat → Nat → Nat → Nat
  | 0, _, len => len
  | words + 1, idx, len =>
    if len ≥ count then len
    else if mapWord inusemap idx ≠ 0 then len + (ffs (mapWord inusemap idx) - 1)
    else chainlengthLoop inusemap count words (idx + 1) (len + nInusebits)

def chainlength (geo : Geometry) (inusemap : List (BitVec 32)) (start count : Nat) : Nat :=
  let maxIdx := geo.maxcluster / nInusebits
  let idx := start / nInusebits
  let start := start % nInusebits
  let map := mapWord inusemap idx &&& ~~~(BitVec.ofNat 32 (2 ^ start - 1))
  if map ≠ 0 then min (ffs map - 1 - start) count
  else
    let len := nInusebits - start
    if len ≥ count then count
    else min (chainlengthLoop inusemap count (maxIdx - idx) (idx + 1) len) count

def usemapAllocs : Nat → Nat → Msdosfsmount → Msdosfsmount
  | 0, _, pmp => pmp
  | n + 1, cl, pmp => usemapAllocs n (cl + 1) (pmp.usemapAlloc cl)

/-- `chainalloc`: the first cluster and how many there are. -/
def chainalloc (geo : Geometry) (pmp : Msdosfsmount) (start count fillwith : Nat) :
    Except FatError (Nat × Nat) × Msdosfsmount :=
  let pmp := usemapAllocs count start pmp
  match fatchain geo pmp start count fillwith with
  | .error error => (.error error, pmp)
  | .ok pmp => (.ok (start, count), pmp)

/-- What a loop of `clusteralloc` finds: enough clusters, or the longest run. -/
inductive Found where
  | enough (cn : Nat)
  | longest (foundcn foundl : Nat)
deriving DecidableEq, Repr

def clusterallocLoop (geo : Geometry) (inusemap : List (BitVec 32)) (count limit : Nat) :
    Nat → Nat → Nat → Nat → Found
  | 0, _, foundcn, foundl => .longest foundcn foundl
  | rounds + 1, cn, foundcn, foundl =>
    if cn < limit then
      let idx := cn / nInusebits
      let map := mapWord inusemap idx ||| BitVec.ofNat 32 (2 ^ (cn % nInusebits) - 1)
      if map ≠ BitVec.allOnes 32 then
        let cn := idx * nInusebits + ffs (map ^^^ BitVec.allOnes 32) - 1
        let l := chainlength geo inusemap cn count
        if l ≥ count then .enough cn
        else
          let (foundcn, foundl) := if l > foundl then (cn, l) else (foundcn, foundl)
          clusterallocLoop geo inusemap count limit rounds (cn + (l + 1)) foundcn foundl
      else
        clusterallocLoop geo inusemap count limit rounds
          (cn + (nInusebits - cn % nInusebits)) foundcn foundl
    else .longest foundcn foundl

/-- The pseudo-random place where `clusteralloc` starts to search. -/
def newst (geo : Geometry) (start : Nat) : Nat :=
  (start * 1103515245 + 12345) % 2 ^ 64 % (geo.maxcluster + 1)

def clusterallocSearch (geo : Geometry) (inusemap : List (BitVec 32)) (count newst : Nat) : Found :=
  match clusterallocLoop geo inusemap count (geo.maxcluster + 1) (geo.maxcluster + 1) newst 0 0 with
  | .enough cn => .enough cn
  | .longest foundcn foundl => clusterallocLoop geo inusemap count newst newst 0 foundcn foundl

/-- `clusteralloc` at a time with so many microseconds. -/
def clusteralloc (geo : Geometry) (usec : Nat) (pmp : Msdosfsmount) (start count : Nat) :
    Except FatError (Nat × Nat) × Msdosfsmount :=
  let len := if start ≠ 0 then chainlength geo pmp.inusemap start count else 0
  if start ≠ 0 ∧ len ≥ count then chainalloc geo pmp start count clustEofe
  else
    let first := if start ≠ 0 then start else usec >>> 10 ||| usec
    match clusterallocSearch geo pmp.inusemap count (newst geo first) with
    | .enough cn => chainalloc geo pmp cn count clustEofe
    | .longest foundcn foundl =>
      if foundl = 0 then (.error .enospc, pmp)
      else if len ≠ 0 then chainalloc geo pmp start len clustEofe
      else chainalloc geo pmp foundcn foundl clustEofe

def FatKind.freeEntry (kind : FatKind) (data : Nat → UInt8)
    (cluster bo : Nat) : (Nat → UInt8) × Nat :=
  let (data, cluster) :=
    match kind with
    | .fat12 =>
      let readcn := getushort data bo
      if cluster % 2 = 1 then (putushort data bo (readcn &&& 0x000f), readcn >>> 4)
      else (putushort data bo (readcn &&& 0xf000), readcn)
    | .fat16 => (putushort data bo 0, getushort data bo)
    | .fat32 =>
      let cluster := getulong data bo
      (putulong data bo (cluster &&& 0xf0000000), cluster)
  (data, cluster &&& kind.fatmask)

/-- The block that `freeclusterchain` goes on with: the one that it holds, or another one when
that is written. -/
def freeclusterchainBlock (geo : Geometry) (pmp : Msdosfsmount) (held : Option Buf)
    (bn bsize : Nat) :
    Msdosfsmount × Buf :=
  match held with
  | none => (pmp, bread geo pmp.dev bn bsize)
  | some bp =>
    if bp.blkno ≠ bn then
      let pmp := updatefats geo pmp bp bp.blkno
      (pmp, bread geo pmp.dev bn bsize)
    else (pmp, bp)

/-- The loop of `freeclusterchain` in at most so many rounds, with the buffer that it holds. -/
def freeclusterchainLoop (geo : Geometry) : Nat → Msdosfsmount → Nat → Option Buf → Msdosfsmount
  | 0, pmp, _, held => (held.map fun bp => updatefats geo pmp bp bp.blkno).getD pmp
  | rounds + 1, pmp, cluster, held =>
    if cluster ≥ clustFirst ∧ cluster ≤ geo.maxcluster then
      let (bn, bsize, bo) := geo.fatblock (geo.fatKind.fatofs cluster)
      let (pmp, bp) := freeclusterchainBlock geo pmp held bn bsize
      let pmp := pmp.usemapFree cluster
      let (data, cluster) := geo.fatKind.freeEntry bp.data cluster bo
      freeclusterchainLoop geo rounds pmp cluster (some { bp with data })
    else (held.map fun bp => updatefats geo pmp bp bp.blkno).getD pmp

def freeclusterchain (geo : Geometry) (pmp : Msdosfsmount) (cluster : Nat) : Msdosfsmount :=
  freeclusterchainLoop geo (geo.maxcluster + 1) pmp cluster none

/-- The block that `fillinusemap` goes on with: the one that it holds, unless an offset starts
another. -/
def fillinusemapBlock (geo : Geometry) (dev : Nat → UInt8) (held : Option Buf)
    (bo bn bsize : Nat) : Buf :=
  match held with
  | none => bread geo dev bn bsize
  | some bp => if bo = 0 then bread geo dev bn bsize else bp

/-- The scan of `fillinusemap` over so many clusters, with the buffer that it holds. -/
def fillinusemapLoop (geo : Geometry) : Nat → Nat → Option Buf → Msdosfsmount → Msdosfsmount
  | 0, _, _, pmp => pmp
  | clusters + 1, cn, held, pmp =>
    let byteoffset := geo.fatKind.fatofs cn
    let bo := byteoffset % geo.fatblocksize
    let (bn, bsize, _) := geo.fatblock byteoffset
    let bp := fillinusemapBlock geo pmp.dev held bo bn bsize
    let readcn := geo.fatKind.getEntry bp.data cn bo
    fillinusemapLoop geo clusters (cn + 1) (some bp) (if readcn = 0 then pmp.usemapFree cn else pmp)

def fillinusemap (geo : Geometry) (pmp : Msdosfsmount) : Msdosfsmount :=
  let inusemap := List.replicate ((geo.maxcluster + nInusebits) / nInusebits) (BitVec.allOnes 32)
  fillinusemapLoop geo (geo.maxcluster + 1 - clustFirst) clustFirst none
    { pmp with inusemap, freeclustercount := 0 }

end Allocation

section Files

structure Fatcache where
  frcn : Nat
  fsrcn : Nat
deriving DecidableEq, Repr

def fceEmpty : Nat := 0xffffffff

/-- `struct denode`; the fields of the cache are `FC_LASTMAP`, `FC_LASTFC` and `FC_NEXTTOLASTFC`. -/
structure Denode where
  startCluster : Nat
  isDirectory : Bool
  isRoot : Bool
  fileSize : Nat
  lastmap : Fatcache
  lastfc : Fatcache
  nexttolastfc : Fatcache
deriving DecidableEq, Repr

def Denode.fcLookup (dep : Denode) (findcn : Nat) : Option Fatcache :=
  [dep.lastmap, dep.lastfc, dep.nexttolastfc].foldl (fun closest fc =>
    if fc.frcn ≠ fceEmpty ∧ fc.frcn ≤ findcn then
      match closest with
      | none => some fc
      | some close => if fc.frcn > close.frcn then some fc else some close
    else closest) none

def Fatcache.purge (fc : Fatcache) (frcn : Nat) : Fatcache :=
  if fc.frcn ≥ frcn then { fc with frcn := fceEmpty } else fc

def Denode.fcPurge (dep : Denode) (frcn : Nat) : Denode :=
  { dep with
    lastmap := dep.lastmap.purge frcn
    lastfc := dep.lastfc.purge frcn
    nexttolastfc := dep.nexttolastfc.purge frcn }

/-- How the loop of `pcbmap` ends. -/
inductive Mapping where
  | mapped (cn : Nat)
  | hiteof (i prevcn : Nat)
  | failed (error : FatError)
deriving DecidableEq, Repr

/-- The loop of `pcbmap` over so many clusters; a block that it reads again is the one that it
holds. -/
def pcbmapLoop (geo : Geometry) (dev : Nat → UInt8) : Nat → Nat → Nat → Nat → Mapping
  | 0, i, cn, prevcn =>
    if geo.fatKind.msdosfseof cn then .hiteof i prevcn else .mapped cn
  | clusters + 1, i, cn, prevcn =>
    if cn ≥ geo.fatKind.clustRsrvd then .hiteof i prevcn
    else if cn < clustFirst ∨ cn > geo.maxcluster then .failed .einval
    else
      let (bn, bsize, bo) := geo.fatblock (geo.fatKind.fatofs cn)
      if bo ≥ bsize then .failed .eio
      else
        let bp := bread geo dev bn bsize
        pcbmapLoop geo dev clusters (i + 1) (geo.fatKind.getEntry bp.data cn bo) cn

/-- `pcbmap` for the cluster: the cluster or the error with what it stores at `cnp`, and the file.
-/
def pcbmap (geo : Geometry) (dev : Nat → UInt8) (dep : Denode) (findcn : Nat) :
    Except (FatError × Option Nat) Nat × Denode :=
  if dep.startCluster = 0 then
    if dep.isDirectory then
      if findcn <<< geo.cnshift ≥ dep.fileSize then
        (.error (.e2big, some (geo.rootdirsize >>> (geo.cnshift - geo.bnshift))), dep)
      else (.ok 0, dep)
    else (.error (.e2big, some 0), dep)
  else
    let (i, cn) := ((dep.fcLookup findcn).map fun fc => (fc.frcn, fc.fsrcn)).getD (0, dep.startCluster)
    match pcbmapLoop geo dev (findcn - i) i cn 0 with
    | .failed error => (.error (error, none), dep)
    | .mapped cn => (.ok cn, { dep with lastmap := ⟨findcn, cn⟩ })
    | .hiteof i prevcn => (.error (.e2big, some i), { dep with lastfc := ⟨i - 1, prevcn⟩ })

/-- What `extendfile` returns: the error, the first new cluster, the mount point and the file. -/
structure Extended where
  error : Option FatError
  ncp : Option Nat
  pmp : Msdosfsmount
  dep : Denode

def extendfileLoop (geo : Geometry)
    (usec : Nat) : Nat → Nat → Option Nat → Msdosfsmount → Denode → Extended
  | 0, _, ncp, pmp, dep => ⟨none, ncp, pmp, dep⟩
  | rounds + 1, count, ncp, pmp, dep =>
    if count = 0 then ⟨none, ncp, pmp, dep⟩
    else
      let cn := if dep.startCluster = 0 then 0 else dep.lastfc.fsrcn + 1
      match clusteralloc geo usec pmp cn count with
      | (.error error, pmp) => ⟨some error, ncp, pmp, dep⟩
      | (.ok (cn, got), pmp) =>
        let ncp := ncp.or (some cn)
        if dep.startCluster = 0 then
          extendfileLoop geo usec rounds (count - got) ncp pmp
            { dep with startCluster := cn, lastfc := ⟨0 + got - 1, cn + got - 1⟩ }
        else
          match fatentry geo .set pmp dep.lastfc.fsrcn cn with
          | .error error => ⟨some error, ncp, (clusterfree geo pmp cn).2, dep⟩
          | .ok (_, pmp) =>
            let frcn := dep.lastfc.frcn + 1
            extendfileLoop geo usec rounds (count - got) ncp pmp
              { dep with lastfc := ⟨frcn + got - 1, cn + got - 1⟩ }

/-- `extendfile` at a time with so many microseconds. -/
def extendfile (geo : Geometry) (usec : Nat) (pmp : Msdosfsmount) (dep : Denode)
    (count : Nat) : Extended :=
  if dep.startCluster = 0 ∧ dep.isDirectory then ⟨some .enospc, none, pmp, dep⟩
  else
    let (result, dep) :=
      if dep.lastfc.frcn = fceEmpty ∧ dep.startCluster ≠ 0 then pcbmap geo pmp.dev dep clustEofe
      else (.error (.e2big, none), dep)
    match result with
    | .ok _ => ⟨none, none, pmp, dep⟩
    | .error (error, _) =>
      if error ≠ .e2big then ⟨some error, none, pmp, dep⟩
      else extendfileLoop geo usec count count none pmp { dep with nexttolastfc := dep.lastfc }

def Geometry.clcount (geo : Geometry) (size : Nat) : Nat :=
  (size + (2 ^ geo.cnshift) - 1) >>> geo.cnshift

/-- `detrunc` to a length that is not above the file size: the error, the mount point and the file.
-/
def detrunc (geo : Geometry) (pmp : Msdosfsmount) (dep : Denode) (length : Nat) :
    Option FatError × Msdosfsmount × Denode :=
  if dep.isRoot ∧ geo.fatKind ≠ .fat32 then (some .einval, pmp, dep)
  else if length = 0 then
    let chaintofree := dep.startCluster
    let dep := { dep with startCluster := 0, fileSize := length }
    let dep := dep.fcPurge 0
    if chaintofree ≠ 0 ∧ ¬ geo.fatKind.msdosfseof chaintofree then
      (none, freeclusterchain geo pmp chaintofree, dep)
    else (none, pmp, dep)
  else
    let lastblock := geo.clcount length - 1
    match pcbmap geo pmp.dev dep lastblock with
    | (.error (error, _), dep) => (some error, pmp, dep)
    | (.ok eofentry, dep) =>
      let dep := { dep with fileSize := length }
      let dep := dep.fcPurge (lastblock + 1)
      match fatentry geo .getAndSet pmp eofentry clustEofe with
      | .error error => (some error, pmp, dep)
      | .ok (chaintofree, pmp) =>
        let dep := { dep with lastfc := ⟨(length - 1) >>> geo.cnshift, eofentry⟩ }
        let chaintofree := chaintofree.getD 0
        if chaintofree ≠ 0 ∧ ¬ geo.fatKind.msdosfseof chaintofree then
          (none, freeclusterchain geo pmp chaintofree, dep)
        else (none, pmp, dep)

end Files

/-!
### Entries as numbers

The entries of a FAT as numbers: an entry that is set is read back, the other entries stay, also the
one that shares a byte with it, and the three places that write an entry do the same.
-/

section Bytes

variable {data : Nat → UInt8} {bo : Nat}

theorem and_window (x bits at' : Nat) :
    x &&& (2 ^ bits - 1) * 2 ^ at' = x / 2 ^ at' % 2 ^ bits * 2 ^ at' := by
  apply eq_of_testBit_eq
  intro i
  rw [testBit_and, mul_comm, testBit_two_pow_mul, mul_comm _ (2 ^ at'),
    testBit_two_pow_mul, testBit_two_pow_sub_one, testBit_mod_two_pow, testBit_div_two_pow]
  by_cases lt : at' ≤ i
  · rw [decide_eq_true lt, Bool.true_and, Bool.true_and, Nat.sub_add_cancel lt, Bool.and_comm]
  · rw [decide_eq_false lt, Bool.false_and, Bool.false_and, Bool.and_false]

theorem toNat_putushort (v p : Nat) : (putushort data bo v p).toNat =
    if p = bo + 1 then v / 256 % 256 else if p = bo then v % 256 else (data p).toNat := by
  unfold putushort
  rw [update_apply, update_apply]
  by_cases hi : p = bo + 1
  · rw [if_pos hi, if_pos hi, UInt8.toNat_ofNat']
  · rw [if_neg hi, if_neg hi]
    by_cases isLow : p = bo
    · rw [if_pos isLow, if_pos isLow, UInt8.toNat_ofNat']
    · rw [if_neg isLow, if_neg isLow]

theorem getushort_lt : getushort data bo < 65536 := by
  have low := (data bo).toNat_lt
  have high := (data (bo + 1)).toNat_lt
  unfold getushort
  omega

theorem getushort_putushort (v : Nat) : getushort (putushort data bo v) bo = v % 65536 := by
  unfold getushort
  rw [toNat_putushort, toNat_putushort, if_neg (by omega), if_pos rfl, if_pos rfl]
  omega

theorem getushort_putushort_of_ne {v oth : Nat} (apart : oth + 1 < bo ∨ bo + 1 < oth) :
    getushort (putushort data bo v) oth = getushort data oth := by
  unfold getushort
  rw [toNat_putushort, toNat_putushort, if_neg (by omega), if_neg (by omega), if_neg (by omega),
    if_neg (by omega)]

theorem getulong_putulong (v : Nat) : getulong (putulong data bo v) bo = v % 4294967296 := by
  unfold getulong putulong
  rw [getushort_putushort_of_ne (.inl (by omega)), getushort_putushort, getushort_putushort]
  omega

theorem getulong_putulong_of_ne {v oth : Nat} (apart : oth + 3 < bo ∨ bo + 3 < oth) :
    getulong (putulong data bo v) oth = getulong data oth := by
  unfold getulong putulong
  rw [getushort_putushort_of_ne (by omega), getushort_putushort_of_ne (by omega),
    getushort_putushort_of_ne (by omega), getushort_putushort_of_ne (by omega)]

end Bytes

section Numbers

variable (kind : FatKind) (data : Nat → UInt8) (cn bo : Nat)

/-- How many numbers an entry can be. -/
def FatKind.size (kind : FatKind) : Nat := kind.fatmask + 1

/-- The bytes of an entry that are read and written. -/
def FatKind.width : FatKind → Nat
  | .fat12 => 2
  | .fat16 => 2
  | .fat32 => 4

theorem and_fatmask (v : Nat) : v &&& kind.fatmask = v % kind.size := by
  cases kind with
  | fat12 => exact and_two_pow_sub_one_eq_mod v 12
  | fat16 => exact and_two_pow_sub_one_eq_mod v 16
  | fat32 => exact and_two_pow_sub_one_eq_mod v 28

theorem getEntry_fat12 : FatKind.fat12.getEntry data cn bo =
    (if cn % 2 = 1 then getushort data bo / 16 else getushort data bo) % 4096 := by
  unfold FatKind.getEntry
  rw [and_fatmask]
  by_cases odd : cn % 2 = 1
  · rw [if_pos ⟨rfl, odd⟩, if_pos odd, shiftRight_eq_div_pow]
    rfl
  · rw [if_neg fun both => odd both.2, if_neg odd]
    rfl

theorem getEntry_fat16 : FatKind.fat16.getEntry data cn bo = getushort data bo := by
  unfold FatKind.getEntry
  rw [and_fatmask, if_neg fun both => nomatch both.1]
  exact mod_eq_of_lt getushort_lt

theorem getEntry_fat32 : FatKind.fat32.getEntry data cn bo = getulong data bo % 268435456 := by
  unfold FatKind.getEntry
  rw [and_fatmask, if_neg fun both => nomatch both.1]
  rfl

theorem setEntry_fat12 (v : Nat) : FatKind.fat12.setEntry data cn bo v =
    putushort data bo (if cn % 2 = 1 then v * 16 + getushort data bo % 16
      else getushort data bo / 4096 % 16 * 4096 + v % 4096) := by
  have isLow (x : Nat) : x &&& 0x000f = x % 16 := and_two_pow_sub_one_eq_mod x 4
  have isTwelve (x : Nat) : x &&& 0xfff = x % 4096 := and_two_pow_sub_one_eq_mod x 12
  have hi (x : Nat) : x &&& 0xf000 = x / 4096 % 16 * 2 ^ 12 := and_window x 4 12
  unfold FatKind.setEntry
  dsimp only
  congr 1
  by_cases odd : cn % 2 = 1
  · rw [if_pos odd, if_pos odd, Nat.or_comm, isLow, shiftLeft_eq]
    exact or_eq_add (show _ < 2 ^ 4 from mod_lt _ (by decide))
  · rw [if_neg odd, if_neg odd, hi, isTwelve]
    exact or_eq_add (mod_lt _ (by decide))

theorem setEntry_fat32 (v : Nat) : FatKind.fat32.setEntry data cn bo v =
    putulong data bo (getulong data bo / 268435456 % 16 * 268435456 + v % 268435456) := by
  have isLow (x : Nat) : x &&& 0x0fffffff = x % 2 ^ 28 := and_two_pow_sub_one_eq_mod x 28
  have hi (x : Nat) : x &&& 0xf0000000 = x / 268435456 % 16 * 2 ^ 28 := and_window x 4 28
  unfold FatKind.setEntry
  dsimp only
  congr 1
  rw [hi, isLow]
  exact or_eq_add (mod_lt _ (by decide))

theorem chainEntry_eq (newc : Nat) : kind.chainEntry data (cn + 1) bo newc =
    (kind.setEntry data cn bo newc, bo + (kind.fatofs (cn + 1) - kind.fatofs cn)) := by
  unfold FatKind.chainEntry FatKind.setEntry FatKind.fatofs
  cases kind with
  | fat12 =>
    dsimp only [FatKind.fatmult, FatKind.fatdiv]
    by_cases odd : cn % 2 = 1
    · rw [if_neg (by omega), if_neg (by omega), if_pos odd,
        show (cn + 1) * 3 / 2 - cn * 3 / 2 = 2 by omega]
    · rw [if_pos (by omega), if_pos (by omega), if_neg odd,
        show (cn + 1) * 3 / 2 - cn * 3 / 2 = 1 by omega]
  | fat16 =>
    dsimp only [FatKind.fatmult, FatKind.fatdiv]
    rw [show (cn + 1) * 2 / 1 - cn * 2 / 1 = 2 by omega]
  | fat32 =>
    dsimp only [FatKind.fatmult, FatKind.fatdiv]
    rw [show (cn + 1) * 4 / 1 - cn * 4 / 1 = 4 by omega]

/-- `freeclusterchain` frees an entry as `fatentry` sets it to 0, and reads it as `fatentry` does.
-/
theorem freeEntry_eq : kind.freeEntry data cn bo =
    (kind.setEntry data cn bo 0, kind.getEntry data cn bo) := by
  unfold FatKind.freeEntry FatKind.setEntry FatKind.getEntry
  cases kind with
  | fat12 =>
    by_cases odd : cn % 2 = 1
    · simp only [odd, and_self, if_true, reduceCtorEq, if_false, zero_shiftLeft, or_zero]
    · simp only [odd, and_false, if_false, reduceCtorEq, zero_and, or_zero]
  | fat16 => rfl
  | fat32 =>
    simp only [zero_and, or_zero, if_true, reduceCtorEq, false_and, if_false]

def FatKind.entry (kind : FatKind) (fat : Nat → UInt8) (cn : Nat) : Nat :=
  kind.getEntry fat cn (kind.fatofs cn)

/-- The FAT with another entry of a cluster. -/
def FatKind.put (kind : FatKind) (fat : Nat → UInt8) (cn value : Nat) : Nat → UInt8 :=
  kind.setEntry fat cn (kind.fatofs cn) value

variable {fat : Nat → UInt8}

theorem entry_put_self (v : Nat) : kind.entry (kind.put fat cn v) cn = v % kind.size := by
  unfold FatKind.entry FatKind.put
  cases kind with
  | fat12 =>
    rw [getEntry_fat12, setEntry_fat12, getushort_putushort]
    show _ = v % 4096
    by_cases odd : cn % 2 = 1
    · rw [if_pos odd, if_pos odd]
      omega
    · rw [if_neg odd, if_neg odd]
      omega
  | fat16 =>
    rw [getEntry_fat16]
    exact getushort_putushort v
  | fat32 =>
    rw [getEntry_fat32, setEntry_fat32, getulong_putulong]
    show _ = v % 268435456
    omega

theorem entry_put_fat12 {oth : Nat} (ne : oth ≠ cn) (v : Nat) :
    FatKind.fat12.entry (FatKind.fat12.put fat cn v) oth = FatKind.fat12.entry fat oth := by
  unfold FatKind.entry FatKind.put FatKind.fatofs
  rw [getEntry_fat12, getEntry_fat12, setEntry_fat12]
  dsimp only [FatKind.fatmult, FatKind.fatdiv]
  by_cases odd : cn % 2 = 1
  · rw [if_pos odd]
    by_cases isFront : oth + 1 = cn
    · have even : ¬ oth % 2 = 1 := by omega
      rw [if_neg even, if_neg even, show cn * 3 / 2 = oth * 3 / 2 + 1 by omega]
      unfold getushort
      rw [toNat_putushort, toNat_putushort, if_neg (by omega), if_neg (by omega), if_neg (by omega),
        if_pos rfl]
      omega
    · rw [getushort_putushort_of_ne (by omega)]
  rw [if_neg odd]
  by_cases aft : oth = cn + 1
  · have isOdd : oth % 2 = 1 := by omega
    rw [if_pos isOdd, if_pos isOdd, show oth * 3 / 2 = cn * 3 / 2 + 1 by omega]
    unfold getushort
    rw [toNat_putushort, toNat_putushort, if_pos rfl, if_neg (by omega), if_neg (by omega)]
    have low := (fat (cn * 3 / 2)).toNat_lt
    have high := (fat (cn * 3 / 2 + 1)).toNat_lt
    omega
  · rw [getushort_putushort_of_ne (by omega)]

theorem entry_put_of_ne {oth : Nat} (ne : oth ≠ cn) (v : Nat) :
    kind.entry (kind.put fat cn v) oth = kind.entry fat oth := by
  cases kind with
  | fat12 => exact entry_put_fat12 cn ne v
  | fat16 =>
    unfold FatKind.entry FatKind.put FatKind.fatofs
    rw [getEntry_fat16, getEntry_fat16]
    dsimp only [FatKind.fatmult, FatKind.fatdiv]
    exact getushort_putushort_of_ne (by omega)
  | fat32 =>
    unfold FatKind.entry FatKind.put FatKind.fatofs
    rw [getEntry_fat32, getEntry_fat32, setEntry_fat32]
    dsimp only [FatKind.fatmult, FatKind.fatdiv]
    rw [getulong_putulong_of_ne (by omega)]

theorem entry_put (oth v : Nat) : kind.entry (kind.put fat cn v) oth =
    if oth = cn then v % kind.size else kind.entry fat oth := by
  by_cases same : oth = cn
  · rw [if_pos same, same, entry_put_self]
  · rw [if_neg same, entry_put_of_ne kind cn same]

end Numbers

section Splice

/-- Bytes with a block of others at an offset. -/
def splice (fat data : Nat → UInt8) (start size : Nat) : Nat → UInt8 := fun o =>
  if start ≤ o ∧ o < start + size then data (o - start) else fat o

variable {fat data : Nat → UInt8} {beg size bo : Nat}

theorem splice_inside {k : Nat} (lt : k < size) : splice fat data beg size (beg + k) = data k := by
  unfold splice
  rw [if_pos (by omega), Nat.add_sub_cancel_left]

theorem getushort_splice (lt : bo + 2 ≤ size) :
    getushort (splice fat data beg size) (beg + bo) = getushort data bo := by
  unfold getushort
  rw [add_assoc, splice_inside (by omega), splice_inside (by omega)]

theorem getulong_splice (lt : bo + 4 ≤ size) :
    getulong (splice fat data beg size) (beg + bo) = getulong data bo := by
  unfold getulong
  rw [add_assoc, getushort_splice (by omega), getushort_splice (by omega)]

theorem splice_putushort (lt : bo + 2 ≤ size) (v : Nat) :
    splice fat (putushort data bo v) beg size =
      putushort (splice fat data beg size) (beg + bo) v := by
  funext o
  apply UInt8.toNat_inj.mp
  rw [toNat_putushort]
  unfold splice
  by_cases hins : beg ≤ o ∧ o < beg + size
  · rw [if_pos hins, if_pos hins, toNat_putushort]
    by_cases hi : o = beg + bo + 1
    · rw [if_pos hi, if_pos (by omega)]
    · rw [if_neg hi, if_neg (by omega)]
      by_cases isLow : o = beg + bo
      · rw [if_pos isLow, if_pos (by omega)]
      · rw [if_neg isLow, if_neg (by omega)]
  · rw [if_neg hins, if_neg (by omega), if_neg (by omega), if_neg hins]

theorem splice_putulong (lt : bo + 4 ≤ size) (v : Nat) :
    splice fat (putulong data bo v) beg size =
      putulong (splice fat data beg size) (beg + bo) v := by
  unfold putulong
  rw [splice_putushort (by omega), splice_putushort (by omega), add_assoc]

theorem splice_setEntry (kind : FatKind) (lt : bo + kind.width ≤ size) (cn v : Nat) :
    splice fat (kind.setEntry data cn bo v) beg size =
      kind.setEntry (splice fat data beg size) cn (beg + bo) v := by
  cases kind with
  | fat12 =>
    rw [setEntry_fat12, setEntry_fat12, splice_putushort lt, getushort_splice lt]
  | fat16 => exact splice_putushort lt v
  | fat32 =>
    rw [setEntry_fat32, setEntry_fat32, splice_putulong lt, getulong_splice lt]

theorem getEntry_splice (kind : FatKind) (lt : bo + kind.width ≤ size) (cn : Nat) :
    kind.getEntry (splice fat data beg size) cn (beg + bo) = kind.getEntry data cn bo := by
  cases kind with
  | fat12 => rw [getEntry_fat12, getEntry_fat12, getushort_splice lt]
  | fat16 => rw [getEntry_fat16, getEntry_fat16, getushort_splice lt]
  | fat32 => rw [getEntry_fat32, getEntry_fat32, getulong_splice lt]

end Splice

end NetBSD.Msdosfs
