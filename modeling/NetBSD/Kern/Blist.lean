import NetBSD.Arith.WordBits

/-!
Owns the block allocator of `sys/kern/subr_blist.c`. The array of `blmeta_t` is
modelled as the tree laid out in it: a node of a level has the nodes of the level
below that come before the terminator. `radix` and `skip` follow from the level.
`none` stands for a panic, a shift by the width of the bitmap or more, or a node that was never
initialised.
-/

namespace NetBSD.Kern.BlockList

open NetBSD.Arith

/-- A `blmeta_t` with a bitmap. -/
structure Leaf where
  bmu_bitmap : UInt32
  bm_bighint : Nat

/-- A `blmeta_t` above other nodes, with these. -/
structure Meta (α : Type) where
  bmu_avail : Nat
  bm_bighint : Nat
  children : List α

abbrev Node : Nat → Type
  | 0 => Leaf
  | level + 1 => Meta (Node level)

def metaRadix : Nat := 16

/-- The blocks that a node of a level covers; `BLIST_BMAP_RADIX` for a leaf. -/
def radix : Nat → Nat
  | 0 => 32
  | level + 1 => radix level * metaRadix

/-- `(blist_blkno_t)-1`, the hint of a terminator. -/
def terminator : Nat := 4294967295

def bighint : (level : Nat) → Node level → Nat
  | 0 => Leaf.bm_bighint
  | _ + 1 => Meta.bm_bighint

/-- An addition of `blist_blkno_t`. -/
def add (a b : Nat) : Nat := (a + b) % 4294967296

/-- A subtraction of `blist_blkno_t`. -/
def sub (a b : Nat) : Nat := (a + 4294967296 - b) % 4294967296

/-- `>>` of a bitmap, which has no meaning from its width on. -/
def shiftRight (bitmap : UInt32) (n : Int) : Option UInt32 :=
  if 0 ≤ n ∧ n < 32 then some (bitmap >>> UInt32.ofNat n.toNat) else none

def allOnes : UInt32 := 0xffffffff

section Leaves

/-- The loop of `blst_leaf_alloc` for one block. -/
def bitLoop : Nat → UInt32 → UInt32 → Nat → Nat → Nat
  | 0, _, _, _, r => r
  | fuel + 1, orig, mask, j, r =>
    if j = 0 then r
    else
      let (orig, r) := if orig &&& mask = 0 then (orig >>> UInt32.ofNat j, r + j) else (orig, r)
      let j := j / 2
      bitLoop fuel orig (mask >>> UInt32.ofNat j) j r

/-- The loop of `blst_leaf_alloc` for several blocks: the first shift of the mask that fits. -/
def fitLoop (orig : UInt32) : Nat → UInt32 → Nat → Option (UInt32 × Nat)
  | 0, _, _ => none
  | fuel + 1, mask, j =>
    if orig &&& mask = mask then some (mask, j) else fitLoop orig fuel (mask <<< 1) (j + 1)

def blstLeafAlloc (scan : Leaf) (blk count : Nat) : Option (Leaf × Option Nat) :=
  let orig := scan.bmu_bitmap
  if orig = 0 then some ({ scan with bm_bighint := 0 }, none)
  else if count = 1 then
    let r := bitLoop 6 orig (allOnes >>> 16) 16 0
    some ({ scan with bmu_bitmap := orig &&& ~~~bitMask r }, some (blk + r))
  else if count ≤ 32 then do
    let mask ← shiftRight allOnes (32 - count)
    match fitLoop orig (33 - count) mask 0 with
    | some (mask, j) => some ({ scan with bmu_bitmap := orig &&& ~~~mask }, some (blk + j))
    | none => some ({ scan with bm_bighint := count - 1 }, none)
  else some ({ scan with bm_bighint := count - 1 }, none)

def rangeMask (n count : Nat) : Option UInt32 := do
  let low ← shiftRight allOnes (32 - (count : Int) - n)
  some ((allOnes <<< UInt32.ofNat n) &&& low)

def blstLeafFree (scan : Leaf) (blk count : Nat) : Option Leaf := do
  let mask ← rangeMask (blk % 32) count
  if scan.bmu_bitmap &&& mask ≠ 0 then none
  else some ⟨scan.bmu_bitmap ||| mask, 32⟩

/-- The loop of `blst_leaf_fill` that counts the bits. -/
def countLoop : Nat → UInt32 → Nat → Nat
  | 0, _, nblks => nblks
  | fuel + 1, bitmap, nblks =>
    if bitmap = 0 then nblks else countLoop fuel (bitmap &&& (bitmap - 1)) (nblks + 1)

def blstLeafFill (scan : Leaf) (blk count : Nat) : Option (Leaf × Nat) := do
  let mask ← rangeMask (blk % 32) count
  let nblks := countLoop 33 (scan.bmu_bitmap &&& mask) 0
  some ({ scan with bmu_bitmap := scan.bmu_bitmap &&& ~~~mask }, nblks)

end Leaves

/-- The write of one node that stands for all below it. -/
def setFree : (level : Nat) → Node level → Node level
  | 0, _ => (⟨allOnes, 32⟩ : Leaf)
  | level + 1, scan => (⟨radix (level + 1), radix (level + 1), scan.children⟩ : Meta (Node level))

def setAllocated : (level : Nat) → Node level → Node level
  | 0, _ => (⟨0, 0⟩ : Leaf)
  | level + 1, scan => (⟨0, 0, scan.children⟩ : Meta (Node level))

section Nodes

variable {α : Type} (hint : α → Nat) (radix : Nat)

/-- The loop that initialises a sublevel. -/
def initLoop (write : α → α) : List α → List α
  | [] => []
  | child :: rest =>
    if hint child = terminator then child :: rest else write child :: initLoop write rest

def allocLoop (alloc : α → Nat → Option (α × Option Nat)) (count : Nat) :
    List α → Nat → Option (List α × Option Nat)
  | [], _ => some ([], none)
  | child :: rest, blk =>
    if hint child = terminator then some (child :: rest, none)
    else if count ≤ hint child then do
      let (child, r) ← alloc child blk
      match r with
      | some r => some (child :: rest, some r)
      | none => do
          let (rest, r) ← allocLoop alloc count rest (blk + radix)
          some (child :: rest, r)
    else if count > radix then none
    else do
      let (rest, r) ← allocLoop alloc count rest (blk + radix)
      some (child :: rest, r)

def blstMetaAlloc (alloc : α → Nat → Option (α × Option Nat)) (write : α → α) (scan : Meta α)
    (blk count : Nat) : Option (Meta α × Option Nat) :=
  if scan.bmu_avail = 0 then some ({ scan with bm_bighint := count }, none)
  else do
    let children := if scan.bmu_avail = radix * metaRadix then initLoop hint write scan.children
      else scan.children
    let (children, r) ← allocLoop hint radix alloc count children blk
    match r with
    | some r =>
      let avail := sub scan.bmu_avail count
      some (⟨avail, if scan.bm_bighint > avail then avail else scan.bm_bighint, children⟩, some r)
    | none =>
      some (⟨scan.bmu_avail, if scan.bm_bighint ≥ count then count - 1 else scan.bm_bighint,
        children⟩, none)

def freeLoop (free : α → Nat → Nat → Nat → Option α) :
    List α → Nat → Nat → Nat → Nat → Nat → Option (List α × Nat)
  | [], index, blk, freeBlk, count, bighint =>
    if index < metaRadix ∧ blk < freeBlk + count then none else some ([], bighint)
  | child :: rest, index, blk, freeBlk, count, bighint =>
    if index < metaRadix ∧ blk < freeBlk + count then
      let v := if blk + radix - freeBlk > count then count else blk + radix - freeBlk
      if bighint = terminator then none
      else do
        let child ← free child freeBlk v blk
        let bighint := if bighint < hint child then hint child else bighint
        let (rest, bighint) ←
          freeLoop free rest (index + 1) (blk + radix) (freeBlk + v) (count - v) bighint
        some (child :: rest, bighint)
    else some (child :: rest, bighint)

/-- The start of `blst_meta_free`: the counter is raised, and a sublevel that was all allocated is
initialised. -/
def startFree (write : α → α) (scan : Meta α) (count : Nat) : Meta α :=
  if scan.bmu_avail = 0 then
    ⟨count, count,
      if count ≠ radix * metaRadix then initLoop hint write scan.children else scan.children⟩
  else { scan with bmu_avail := add scan.bmu_avail count }

def blstMetaFree (free : α → Nat → Nat → Nat → Option α) (write : α → α) (scan : Meta α)
    (freeBlk count blk : Nat) : Option (Meta α) :=
  let scan := startFree hint radix write scan count
  if scan.bmu_avail = radix * metaRadix then some scan
  else if scan.bmu_avail > radix * metaRadix then none
  else do
    let index := (freeBlk - blk) / radix
    let (children, bighint) ← freeLoop hint radix free (scan.children.drop index) index
      (blk + index * radix) freeBlk count scan.bm_bighint
    some ⟨scan.bmu_avail, bighint, scan.children.take index ++ children⟩

def fillLoop (fill : α → Nat → Nat → Nat → Option (α × Nat)) (bighint : Nat) :
    List α → Nat → Nat → Nat → Nat → Option (List α × Nat)
  | [], index, blk, allocBlk, count =>
    if index < metaRadix ∧ blk < allocBlk + count then none else some ([], 0)
  | child :: rest, index, blk, allocBlk, count =>
    if index < metaRadix ∧ blk < allocBlk + count then
      let v := if blk + radix - allocBlk > count then count else blk + radix - allocBlk
      if bighint = terminator then none
      else do
        let (child, filled) ← fill child allocBlk v blk
        let (rest, nblks) ←
          fillLoop fill bighint rest (index + 1) (blk + radix) (allocBlk + v) (count - v)
        some (child :: rest, add filled nblks)
    else some (child :: rest, 0)

def blstMetaFill (fill : α → Nat → Nat → Nat → Option (α × Nat)) (write : α → α) (scan : Meta α)
    (allocBlk count blk : Nat) : Option (Meta α × Nat) :=
  if count = radix * metaRadix ∨ scan.bmu_avail = 0 then
    some (⟨0, count, scan.children⟩, scan.bmu_avail)
  else if count > radix * metaRadix then none
  else do
    let children := if scan.bmu_avail = radix * metaRadix then initLoop hint write scan.children
      else scan.children
    let index := (allocBlk - blk) / radix
    let (filled, nblks) ← fillLoop radix fill scan.bm_bighint (children.drop index) index
      (blk + index * radix) allocBlk count
    some (⟨sub scan.bmu_avail nblks, scan.bm_bighint, children.take index ++ filled⟩, nblks)

def radixInitLoop (init : Nat → α) : Nat → Nat → List α
  | 0, _ => []
  | slots + 1, count =>
    if count ≥ radix then init radix :: radixInitLoop init slots (count - radix)
    else if count > 0 then init count :: radixInitLoop init slots 0
    else []

end Nodes

def blstAlloc : (level : Nat) → Node level → Nat → Nat → Option (Node level × Option Nat)
  | 0, scan, blk, count => blstLeafAlloc scan blk count
  | level + 1, scan, blk, count =>
    blstMetaAlloc (bighint level) (radix level) (fun child blk => blstAlloc level child blk count)
      (setFree level) scan blk count

/-- The arguments are the first block to free, their number, and the first block of the node. -/
def blstFree : (level : Nat) → Node level → Nat → Nat → Nat → Option (Node level)
  | 0, scan, freeBlk, count, _ => blstLeafFree scan freeBlk count
  | level + 1, scan, freeBlk, count, blk =>
    blstMetaFree (bighint level) (radix level) (blstFree level) (setAllocated level) scan freeBlk
      count blk

def blstFill : (level : Nat) → Node level → Nat → Nat → Nat → Option (Node level × Nat)
  | 0, scan, allocBlk, count, _ => blstLeafFill scan allocBlk count
  | level + 1, scan, allocBlk, count, blk =>
    blstMetaFill (bighint level) (radix level) (blstFill level) (setFree level) scan allocBlk
      count blk

def blstRadixInit : (level : Nat) → Nat → Node level
  | 0, _ => (⟨0, 0⟩ : Leaf)
  | level + 1, count =>
    (⟨0, 0, radixInitLoop (radix level) (blstRadixInit level) metaRadix count⟩ : Meta (Node level))

structure Blist where
  bl_blocks : Nat
  bl_level : Nat
  bl_free : Nat
  bl_root : Node bl_level

def levelLoop (blocks : Nat) : Nat → Nat → Nat → Option Nat
  | 0, _, _ => none
  | fuel + 1, radix, level =>
    if radix < blocks then levelLoop blocks fuel (radix * metaRadix % 4294967296) (level + 1)
    else some level

def blistCreate (blocks : Nat) : Option Blist := do
  let level ← levelLoop blocks 8 32 0
  some ⟨blocks, level, 0, blstRadixInit level blocks⟩

def blistAlloc (bl : Blist) (count : Nat) : Option (Blist × Option Nat) := do
  let (root, blk) ← blstAlloc bl.bl_level bl.bl_root 0 count
  match blk with
  | some blk => some (⟨bl.bl_blocks, bl.bl_level, sub bl.bl_free count, root⟩, some blk)
  | none => some (⟨bl.bl_blocks, bl.bl_level, bl.bl_free, root⟩, none)

def blistFree (bl : Blist) (blkno count : Nat) : Option Blist := do
  let root ← blstFree bl.bl_level bl.bl_root blkno count 0
  some ⟨bl.bl_blocks, bl.bl_level, add bl.bl_free count, root⟩

def blistFill (bl : Blist) (blkno count : Nat) : Option (Blist × Nat) := do
  let (root, filled) ← blstFill bl.bl_level bl.bl_root blkno count 0
  some (⟨bl.bl_blocks, bl.bl_level, sub bl.bl_free filled, root⟩, filled)

section Copy

/-- The loop of `blst_copy` over a bitmap, from a bit on. Its `1 << j` of an `int` is the bit up
to the one of the sign. -/
def copyBits (v : UInt32) (blk count : Nat) : Nat → Nat → Blist → Option Blist
  | 0, _, dest => some dest
  | fuel + 1, j, dest =>
    if j < 32 ∧ j < count then do
      let dest ← if bitAt v j then blistFree dest (blk + j) 1 else some dest
      copyBits v blk count fuel (j + 1) dest
    else some dest

def copyLeaf (scan : Leaf) (blk : Nat) (dest : Blist) (count : Nat) : Option Blist :=
  if scan.bmu_bitmap = allOnes then blistFree dest blk count
  else if scan.bmu_bitmap ≠ 0 then copyBits scan.bmu_bitmap blk count 32 0 dest
  else some dest

/-- The loop of `blst_copy` over the nodes of the level below. -/
def copyLoop {α : Type} (hint : α → Nat) (radix : Nat)
    (copy : α → Nat → Blist → Nat → Option Blist) :
    List α → Nat → Blist → Nat → Option Blist
  | [], _, dest, _ => some dest
  | child :: rest, blk, dest, count =>
    if count = 0 then some dest
    else if hint child = terminator then some dest
    else if count ≥ radix then do
      let dest ← copy child blk dest radix
      copyLoop hint radix copy rest (blk + radix) dest (count - radix)
    else copy child blk dest count

def blstCopy : (level : Nat) → Node level → Nat → Blist → Nat → Option Blist
  | 0, scan, blk, dest, count => copyLeaf scan blk dest count
  | level + 1, scan, blk, dest, count =>
    if scan.bmu_avail = 0 then some dest
    else if scan.bmu_avail = radix (level + 1) then
      if count < radix (level + 1) then blistFree dest blk count
      else blistFree dest blk (radix (level + 1))
    else copyLoop (bighint level) (radix level) (blstCopy level) scan.children blk dest count

def blistResize (save : Blist) (count : Nat) (freenew : Bool) : Option Blist := do
  let newbl ← blistCreate count
  let count := if count > save.bl_blocks then save.bl_blocks else count
  let newbl ← blstCopy save.bl_level save.bl_root 0 newbl count
  if freenew && decide (count < newbl.bl_blocks) then
    blistFree newbl count (newbl.bl_blocks - count)
  else some newbl

end Copy

inductive Event where
  | alloc (count : Nat)
  | free (blkno count : Nat)
  | fill (blkno count : Nat)
  | resize (count : Nat) (freenew : Bool)
deriving DecidableEq, Repr

/-- What a call returns. -/
inductive Answer where
  | done
  | block (blk : Option Nat)
  | filled (nblks : Nat)
deriving DecidableEq, Repr

def step (bl : Blist) : Event → Option (Blist × Answer)
  | .alloc count => (blistAlloc bl count).map fun (after, blk) => (after, .block blk)
  | .free blkno count => (blistFree bl blkno count).map fun after => (after, .done)
  | .fill blkno count => (blistFill bl blkno count).map fun (after, nblks) => (after, .filled nblks)
  | .resize count freenew => (blistResize bl count freenew).map fun after => (after, .done)

def next (bl : Blist) (event : Event) : Option Blist := (step bl event).map Prod.fst

end NetBSD.Kern.BlockList
