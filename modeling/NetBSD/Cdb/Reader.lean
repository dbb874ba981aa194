import NetBSD.Arith.Division
import NetBSD.Cdb.VectorHash

/-!
Owns the reader of constant databases, `common/lib/libc/cdb/cdbr.c`. A load outside the mapping and
a division by 0 are faults. The build for the tools divides by `%`, the others by a multiplication.
-/

namespace NetBSD.Cdb

open NetBSD.Arith

/-- A file in a 64-bit address space, not at the end of it. -/
structure Mapping where
  mmap_base : Nat
  bytes : List UInt8
  farFromEnd : mmap_base + bytes.length + 17179869184 ≤ 18446744073709551616

inductive Fault where
  | outside
  | divideByZero
deriving DecidableEq, Repr

def pointer (n : Nat) : Nat := n % 18446744073709551616

def Mapping.load (map : Mapping) (addr count : Nat) : Except Fault Nat :=
  if map.mmap_base ≤ addr ∧ addr + count ≤ map.mmap_base + map.bytes.length then
    .ok (littleEndian ((map.bytes.drop (addr - map.mmap_base)).take count))
  else .error .outside

def magic : List UInt8 := [78, 66, 67, 68, 66, 10, 0, 1]

/-- The bytes that a number up to a limit takes. -/
def widthOf (limit : Nat) : Nat := if limit < 256 then 1 else if limit < 65536 then 2 else 4

structure Cdbr where
  mmap_base : Nat
  mmap_size : Nat
  hash_base : Nat
  offset_base : Nat
  data_base : Nat
  data_size : Nat
  entries : Nat
  entries_index : Nat
  seed : Nat
  offset_size : Nat
  index_size : Nat
  entries_divider : Divider
  entries_index_divider : Divider
deriving Repr

/-- The handle before its pointers are compared. Without entries a divider stays as the memory was.
-/
def cdbrOf (fresh : Divider) (map : Mapping) : Cdbr :=
  let data_size := le32dec map.bytes 24
  let entries := le32dec map.bytes 28
  let entries_index := le32dec map.bytes 32
  let offset_size := widthOf data_size
  let index_size := widthOf entries_index
  let hash_base := pointer (map.mmap_base + 40)
  let table := uint32 (entries_index * index_size)
  let behind := pointer (hash_base + table)
  let offset_base :=
    if table % offset_size ≠ 0 then pointer (behind + (offset_size - table % offset_size)) else behind
  { mmap_base := map.mmap_base
    mmap_size := map.bytes.length
    hash_base
    offset_base
    data_base := pointer (offset_base + uint32 (uint32 (entries + 1) * offset_size))
    data_size
    entries
    entries_index
    seed := le32dec map.bytes 36
    offset_size
    index_size
    entries_divider := if entries ≠ 0 then fastDivide32Prepare entries else fresh
    entries_index_divider := if entries_index ≠ 0 then fastDivide32Prepare entries_index else fresh }

def cdbrOpenMem (fresh : Divider) (map : Mapping) : Option Cdbr :=
  if map.bytes.length < 40 ∨ map.bytes.take 8 ≠ magic then none
  else
    let cdbr := cdbrOf fresh map
    let dataEnd := pointer (cdbr.data_base + cdbr.data_size)
    if cdbr.hash_base < cdbr.mmap_base ∨ cdbr.offset_base < cdbr.mmap_base ∨
        cdbr.data_base < cdbr.mmap_base ∨ dataEnd < cdbr.mmap_base ∨
        dataEnd > pointer (cdbr.mmap_base + cdbr.mmap_size) then none
    else some cdbr

def getUintX (map : Mapping) (addr idx size : Nat) : Except Fault Nat :=
  map.load (pointer (addr + uint32 (idx * size))) size

/-- The pointer and the length of an item, or nothing when the call fails. -/
def cdbrGet (map : Mapping) (cdbr : Cdbr) (idx : Nat) : Except Fault (Option (Nat × Nat)) :=
  if idx ≥ cdbr.entries then .ok none
  else do
    let start ← getUintX map cdbr.offset_base idx cdbr.offset_size
    let last ← getUintX map cdbr.offset_base (uint32 (idx + 1)) cdbr.offset_size
    if start > last then .ok none
    else if last > cdbr.data_size then .ok none
    else .ok (some (pointer (cdbr.data_base + start), last - start))

def remainder32 (nbtool : Bool) (v div : Nat) (divider : Divider) : Except Fault Nat :=
  if nbtool then if div = 0 then .error .divideByZero else .ok (v % div)
  else .ok (fastRemainder32 v div divider)

def cdbrFind (nbtool : Bool) (map : Mapping) (cdbr : Cdbr) (key : List UInt8) :
    Except Fault (Option (Nat × Nat)) :=
  if cdbr.entries_index = 0 then .ok none
  else do
    let hashes := miVectorHash key (.ofNat cdbr.seed)
    let first ← remainder32 nbtool hashes.1.toNat cdbr.entries_index cdbr.entries_index_divider
    let second ← remainder32 nbtool hashes.2.1.toNat cdbr.entries_index cdbr.entries_index_divider
    let third ← remainder32 nbtool hashes.2.2.toNat cdbr.entries_index cdbr.entries_index_divider
    let one ← getUintX map cdbr.hash_base first cdbr.index_size
    let two ← getUintX map cdbr.hash_base second cdbr.index_size
    let three ← getUintX map cdbr.hash_base third cdbr.index_size
    let idx ← remainder32 nbtool (uint32 (one + two + three)) cdbr.entries cdbr.entries_divider
    cdbrGet map cdbr idx

section Words

theorem littleEndian_lt (bytes : List UInt8) : littleEndian bytes < 256 ^ bytes.length := by
  induction bytes with
  | nil => decide
  | cons byte bytes ih =>
    have sml := byte.toNat_lt
    rw [littleEndian, List.length_cons]
    omega

theorem le32dec_lt (buf : List UInt8) (pos : Nat) : le32dec buf pos < 4294967296 := by
  have sml := littleEndian_lt ((buf.drop pos).take 4)
  have short : ((buf.drop pos).take 4).length ≤ 4 := by
    rw [List.length_take]
    exact min_le_left _ _
  exact lt_of_lt_of_le sml (Nat.pow_le_pow_right (by decide) short)

theorem widthOf_cases (limit : Nat) : widthOf limit = 1 ∧ limit < 256 ∨
    widthOf limit = 2 ∧ 256 ≤ limit ∧ limit < 65536 ∨ widthOf limit = 4 ∧ 65536 ≤ limit := by
  unfold widthOf
  by_cases isByte : limit < 256
  · rw [if_pos isByte]
    exact .inl ⟨rfl, isByte⟩
  rw [if_neg isByte]
  by_cases hsh : limit < 65536
  · rw [if_pos hsh]
    exact .inr (.inl ⟨rfl, Nat.le_of_not_lt isByte, hsh⟩)
  · rw [if_neg hsh]
    exact .inr (.inr ⟨rfl, Nat.le_of_not_lt hsh⟩)

theorem pointer_of_lt {n : Nat} (sml : n < 18446744073709551616) : pointer n = n :=
  Nat.mod_eq_of_lt sml

theorem load_ok {map : Mapping} {addr cnt : Nat} (above : map.mmap_base ≤ addr)
    (bnd : addr + cnt ≤ map.mmap_base + map.bytes.length) :
    map.load addr cnt = .ok (littleEndian ((map.bytes.drop (addr - map.mmap_base)).take cnt)) :=
  if_pos ⟨above, bnd⟩

theorem load_within {map : Mapping} {addr cnt v : Nat} (val : map.load addr cnt = .ok v) :
    addr + cnt ≤ map.mmap_base + map.bytes.length := by
  unfold Mapping.load at val
  split at val
  · rename_i hins
    exact hins.2
  · cases val

end Words

/-!
### Addresses

The addresses that the reader of a constant database uses on any file. What `cdbr_open_mem`
checks are products in 32 bits, and the tables that are read are longer when a product wraps.
-/

section Layout

structure Header where
  data_size : Nat
  entries : Nat
  entries_index : Nat
deriving DecidableEq, Repr

def headerOf (bytes : List UInt8) : Header :=
  ⟨le32dec bytes 24, le32dec bytes 28, le32dec bytes 32⟩

/-- Where the offset table starts: behind the hash table in 32 bits, rounded up. -/
def Header.offsetTable (header : Header) : Nat :=
  let table := uint32 (header.entries_index * widthOf header.entries_index)
  let width := widthOf header.data_size
  40 + table + if table % width ≠ 0 then width - table % width else 0

/-- The tables as they are read are within a file, and a tool does not divide by 0. -/
structure Roomy (nbtool : Bool) (header : Header) (size : Nat) : Prop where
  hashTable : 40 + min (header.entries_index * widthOf header.entries_index) 4294967296 ≤ size
  offsets : header.entries ≠ 0 →
    header.offsetTable + min ((header.entries + 1) * widthOf header.data_size) 4294967296 ≤ size
  divisor : nbtool = true → header.entries_index ≠ 0 → header.entries ≠ 0

end Layout

section Handle

variable {fresh : Divider} {map : Mapping} {cdbr : Cdbr}

structure Handle (map : Mapping) (header : Header) (cdbr : Cdbr) : Prop where
  hash_base : cdbr.hash_base = map.mmap_base + 40
  offset_base : cdbr.offset_base = map.mmap_base + header.offsetTable
  data_size : cdbr.data_size = header.data_size
  entries : cdbr.entries = header.entries
  entries_index : cdbr.entries_index = header.entries_index
  offset_size : cdbr.offset_size = widthOf header.data_size
  index_size : cdbr.index_size = widthOf header.entries_index
  entriesSmall : header.entries < 4294967296
  indexSmall : header.entries_index < 4294967296
  entriesDivider : header.entries ≠ 0 → cdbr.entries_divider = fastDivide32Prepare header.entries
  indexDivider : header.entries_index ≠ 0 →
    cdbr.entries_index_divider = fastDivide32Prepare header.entries_index
  dataWithin : cdbr.data_base + cdbr.data_size ≤ map.mmap_base + map.bytes.length
  offsetsWithin : map.mmap_base + header.offsetTable +
    uint32 (uint32 (header.entries + 1) * widthOf header.data_size) = cdbr.data_base

theorem widthOf_pos (limit : Nat) : 0 < widthOf limit ∧ widthOf limit ≤ 4 := by
  rcases widthOf_cases limit with ⟨isWidth, _⟩ | ⟨isWidth, _⟩ | ⟨isWidth, _⟩ <;> omega

theorem offsetTable_le (header : Header) : header.offsetTable ≤ 40 + 4294967296 + 4 := by
  unfold Header.offsetTable
  have table := uint32_lt (header.entries_index * widthOf header.entries_index)
  have width := widthOf_pos header.data_size
  dsimp only
  split <;> omega

/-- An opened file has the layout its header promises. -/
theorem cdbrOpenMem_handle (isOpen : cdbrOpenMem fresh map = some cdbr) :
    Handle map (headerOf map.bytes) cdbr ∧ 40 ≤ map.bytes.length := by
  have far := map.farFromEnd
  unfold cdbrOpenMem at isOpen
  split at isOpen
  · cases isOpen
  dsimp only at isOpen
  split at isOpen
  · cases isOpen
  have isCdbr := Option.some.inj isOpen
  have below := offsetTable_le (headerOf map.bytes)
  have size := le32dec_lt map.bytes 24
  have rm := uint32_lt (uint32 (le32dec map.bytes 28 + 1) * widthOf (le32dec map.bytes 24))
  have isOffset : (cdbrOf fresh map).offset_base =
      map.mmap_base + (headerOf map.bytes).offsetTable := by
    have table := uint32_lt (le32dec map.bytes 32 * widthOf (le32dec map.bytes 32))
    have width := widthOf_pos (le32dec map.bytes 24)
    unfold cdbrOf Header.offsetTable headerOf
    dsimp only
    generalize uint32 (le32dec map.bytes 32 * widthOf (le32dec map.bytes 32)) = product at table
    have isHash : pointer (map.mmap_base + 40) = map.mmap_base + 40 := pointer_of_lt (by omega)
    have aft : pointer (map.mmap_base + 40 + product) = map.mmap_base + 40 + product :=
      pointer_of_lt (by omega)
    rw [isHash]
    split
    · rw [pointer_of_lt (by omega)]
      omega
    · omega
  have isData : (cdbrOf fresh map).data_base = map.mmap_base + (headerOf map.bytes).offsetTable +
        uint32 (uint32 (le32dec map.bytes 28 + 1) * widthOf (le32dec map.bytes 24)) := by
    have isPointer : (cdbrOf fresh map).data_base = pointer ((cdbrOf fresh map).offset_base +
        uint32 (uint32 (le32dec map.bytes 28 + 1) * widthOf (le32dec map.bytes 24))) := rfl
    rw [isPointer, isOffset, pointer_of_lt (by omega)]
  have hsz : (cdbrOf fresh map).data_size = le32dec map.bytes 24 := rfl
  have isEnd : pointer ((cdbrOf fresh map).data_base + (cdbrOf fresh map).data_size) =
      (cdbrOf fresh map).data_base + (cdbrOf fresh map).data_size :=
    pointer_of_lt (by rw [hsz]; omega)
  have isLimit : pointer ((cdbrOf fresh map).mmap_base + (cdbrOf fresh map).mmap_size) =
      map.mmap_base + map.bytes.length := pointer_of_lt (by unfold cdbrOf; dsimp only; omega)
  subst isCdbr
  refine ⟨⟨pointer_of_lt (by omega), isOffset, rfl, rfl, rfl, rfl, rfl, le32dec_lt _ _,
    le32dec_lt _ _, fun nz => if_pos nz, fun nz => if_pos nz, ?_,
    isData.symm⟩, ?_⟩
  · omega
  · omega

end Handle

section Safety

variable {map : Mapping} {header : Header} {cdbr : Cdbr} {nbtool : Bool}

def Contained (map : Mapping) (range : Nat × Nat) : Prop :=
  map.mmap_base ≤ range.1 ∧ range.1 + range.2 ≤ map.mmap_base + map.bytes.length

def SafeCall (map : Mapping) (call : Except Fault (Option (Nat × Nat))) : Prop :=
  ∃ result, call = .ok result ∧ ∀ range, result = some range → Contained map range

/-- The bytes of an element in 32 bits are below the end of the table or below the wrap. -/
theorem element_end {idx cnt width : Nat} (bnd : idx < cnt)
    (isWidth : width = 1 ∨ width = 2 ∨ width = 4) :
    uint32 (idx * width) + width ≤ min (cnt * width) 4294967296 := by
  unfold uint32
  rcases isWidth with rfl | rfl | rfl <;> omega

theorem exists_element {cnt width : Nat} (pos : 0 < cnt)
    (isWidth : width = 1 ∨ width = 2 ∨ width = 4) :
    ∃ idx, idx < cnt ∧ uint32 (idx * width) + width = min (cnt * width) 4294967296 := by
  unfold uint32
  rcases isWidth with rfl | rfl | rfl
  · exact ⟨min cnt 4294967296 - 1, by omega, by omega⟩
  · exact ⟨min cnt 2147483648 - 1, by omega, by omega⟩
  · exact ⟨min cnt 1073741824 - 1, by omega, by omega⟩

theorem widthOf_one_two_four (limit : Nat) :
    widthOf limit = 1 ∨ widthOf limit = 2 ∨ widthOf limit = 4 := by
  rcases widthOf_cases limit with ⟨isWidth, _⟩ | ⟨isWidth, _⟩ | ⟨isWidth, _⟩ <;> omega

theorem getUintX_ok {addr start cnt idx limit : Nat} (beg : addr = map.mmap_base + start)
    (bnd : start + min (cnt * widthOf limit) 4294967296 ≤ map.bytes.length)
    (below : idx < cnt) : ∃ v, getUintX map addr idx (widthOf limit) = .ok v := by
  have far := map.farFromEnd
  have isEnd := element_end below (widthOf_one_two_four limit)
  unfold getUintX
  rw [pointer_of_lt (by omega)]
  exact ⟨_, load_ok (by omega) (by omega)⟩

theorem getUintX_within {addr start idx limit v : Nat} (beg : addr = map.mmap_base + start)
    (far : start ≤ 4294967340) (val : getUintX map addr idx (widthOf limit) = .ok v) :
    start + uint32 (idx * widthOf limit) + widthOf limit ≤ map.bytes.length := by
  have farFromEnd := map.farFromEnd
  have sml := uint32_lt (idx * widthOf limit)
  have bnd := load_within val
  rw [pointer_of_lt (by omega)] at bnd
  omega

variable (handle : Handle map header cdbr)
include handle

theorem safe_get {idx : Nat} (rm : header.entries ≠ 0 →
      header.offsetTable + min ((header.entries + 1) * widthOf header.data_size) 4294967296 ≤
        map.bytes.length) : SafeCall map (cdbrGet map cdbr idx) := by
  have far := map.farFromEnd
  have dataWithin := handle.dataWithin
  have isBase := handle.offsetsWithin
  have entriesSmall := handle.entriesSmall
  unfold cdbrGet
  by_cases isBeyond : idx ≥ cdbr.entries
  · rw [if_pos isBeyond]
    exact ⟨none, rfl, fun range isRange => by cases isRange⟩
  rw [if_neg isBeyond]
  rw [handle.entries] at isBeyond
  have table := rm (by omega)
  obtain ⟨start, beg⟩ := @getUintX_ok map _ _ _ idx _ handle.offset_base table (by omega)
  obtain ⟨last, lst⟩ := @getUintX_ok map _ _ _ (idx + 1) _ handle.offset_base table (by omega)
  rw [handle.offset_size, beg, uint32_of_lt (by omega), lst]
  simp only [Except.bind, bind]
  by_cases isDisordered : start > last
  · rw [if_pos isDisordered]
    exact ⟨none, rfl, fun range isRange => by cases isRange⟩
  rw [if_neg isDisordered]
  by_cases isLarge : last > cdbr.data_size
  · rw [if_pos isLarge]
    exact ⟨none, rfl, fun range isRange => by cases isRange⟩
  rw [if_neg isLarge]
  refine ⟨_, rfl, ?_⟩
  intro range isRange
  cases isRange
  unfold Contained
  rw [pointer_of_lt (by omega)]
  omega

omit handle in
theorem remainder32_spec {v div : Nat} (isWord : v < 4294967296) (pos : 0 < div)
    (sml : div < 4294967296) :
    remainder32 nbtool v div (fastDivide32Prepare div) = .ok (v % div) := by
  unfold remainder32
  cases nbtool with
  | true =>
    rw [if_pos rfl, if_neg pos.ne']
  | false =>
    rw [if_neg Bool.false_ne_true, fastRemainder32_spec pos sml isWord]

theorem exists_remainder (divisor : nbtool = true → header.entries ≠ 0) (v : Nat) :
    ∃ idx, remainder32 nbtool v cdbr.entries cdbr.entries_divider = .ok idx := by
  unfold remainder32
  cases nbtool with
  | true =>
    rw [if_pos rfl, if_neg (by rw [handle.entries]; exact divisor rfl)]
    exact ⟨_, rfl⟩
  | false => exact ⟨_, rfl⟩

theorem index_remainder (nz : header.entries_index ≠ 0) (v : UInt32) :
    remainder32 nbtool v.toNat cdbr.entries_index cdbr.entries_index_divider =
      .ok (v.toNat % header.entries_index) := by
  rw [handle.entries_index, handle.indexDivider nz]
  exact remainder32_spec v.toNat_lt (pos_of_ne_zero nz) handle.indexSmall

theorem safe_find (roomy : Roomy nbtool header map.bytes.length) (key : List UInt8) :
    SafeCall map (cdbrFind nbtool map cdbr key) := by
  unfold cdbrFind
  by_cases zero : cdbr.entries_index = 0
  · rw [if_pos zero]
    exact ⟨none, rfl, fun range isRange => by cases isRange⟩
  rw [if_neg zero]
  rw [handle.entries_index] at zero
  have below (v : UInt32) : v.toNat % header.entries_index < header.entries_index :=
    Nat.mod_lt _ (pos_of_ne_zero zero)
  have index (v : UInt32) := getUintX_ok handle.hash_base roomy.hashTable (below v)
  generalize miVectorHash key (.ofNat cdbr.seed) = hashes
  obtain ⟨one, isOne⟩ := index hashes.1
  obtain ⟨two, isTwo⟩ := index hashes.2.1
  obtain ⟨three, isThree⟩ := index hashes.2.2
  obtain ⟨idx, isIdx⟩ := exists_remainder handle (fun isTool => roomy.divisor isTool zero)
    (uint32 (one + two + three))
  dsimp only
  rw [index_remainder handle zero, index_remainder handle zero,
    index_remainder handle zero, handle.index_size]
  simp only [Except.bind, bind]
  rw [isOne]
  rw [isTwo]
  rw [isThree]
  dsimp only
  rw [isIdx]
  exact safe_get handle roomy.offsets

omit handle in
theorem bind_ok {α β : Type} {fst : Except Fault α} {next : α → Except Fault β} {res : β}
    (isRes : fst >>= next = .ok res) :
    ∃ v, fst = .ok v ∧ next v = .ok res := by
  cases fst with
  | error fault => cases isRes
  | ok v => exact ⟨v, rfl, isRes⟩

theorem offsets_of_safe (safe : ∀ idx : UInt32, SafeCall map (cdbrGet map cdbr idx.toNat))
    (nz : header.entries ≠ 0) :
    header.offsetTable + min ((header.entries + 1) * widthOf header.data_size) 4294967296 ≤
      map.bytes.length := by
  have sml := handle.entriesSmall
  have far : header.offsetTable ≤ 4294967340 := offsetTable_le header
  obtain ⟨idx, below, isEnd⟩ := exists_element (Nat.succ_pos header.entries)
    (widthOf_one_two_four header.data_size)
  rw [← isEnd, ← add_assoc]
  have reads (first : Nat) (fst : first < header.entries) : ∃ start last,
      getUintX map cdbr.offset_base first (widthOf header.data_size) = .ok start ∧
      getUintX map cdbr.offset_base (first + 1) (widthOf header.data_size) = .ok last := by
    obtain ⟨res, isRes, _⟩ := safe (UInt32.ofNat first)
    have isNat : (UInt32.ofNat first).toNat = first := by
      exact Nat.mod_eq_of_lt (by omega)
    unfold cdbrGet at isRes
    rw [isNat, if_neg (by rw [handle.entries]; omega), handle.offset_size] at isRes
    obtain ⟨start, beg, fromStart⟩ := bind_ok isRes
    obtain ⟨last, lst, _⟩ := bind_ok fromStart
    rw [uint32_of_lt (by omega)] at lst
    exact ⟨start, last, beg, lst⟩
  by_cases fst : idx < header.entries
  · obtain ⟨start, _, beg, _⟩ := reads idx fst
    exact getUintX_within handle.offset_base far beg
  · obtain ⟨_, last, _, lst⟩ := reads (header.entries - 1) (by omega)
    have isIdx : header.entries - 1 + 1 = idx := by omega
    rw [isIdx] at lst
    exact getUintX_within handle.offset_base far lst

theorem hash_of_safe (safe : ∀ key, SafeCall map (cdbrFind nbtool map cdbr key))
    (nz : header.entries_index ≠ 0) :
    40 + min (header.entries_index * widthOf header.entries_index) 4294967296 ≤ map.bytes.length := by
  have sml := handle.indexSmall
  obtain ⟨idx, below, isEnd⟩ := exists_element (pos_of_ne_zero nz)
    (widthOf_one_two_four header.entries_index)
  rw [← isEnd, ← add_assoc]
  obtain ⟨key, isHash⟩ := miVectorHash_surjective (.ofNat cdbr.seed) (UInt32.ofNat idx, 0, 0)
  obtain ⟨res, isRes, _⟩ := safe key
  have isNat : (UInt32.ofNat idx).toNat % header.entries_index = idx := by
    rw [UInt32.toNat_ofNat', Nat.mod_eq_of_lt (by omega : idx < 2 ^ 32), Nat.mod_eq_of_lt below]
  unfold cdbrFind at isRes
  rw [if_neg (by rw [handle.entries_index]; exact nz)] at isRes
  dsimp only at isRes
  rw [isHash, index_remainder handle nz, index_remainder handle nz, isNat,
    handle.index_size] at isRes
  obtain ⟨first, fst, fromFirst⟩ := bind_ok isRes
  obtain ⟨snd, _, fromSecond⟩ := bind_ok fromFirst
  obtain ⟨third, _, fromThird⟩ := bind_ok fromSecond
  obtain ⟨one, isOne, _⟩ := bind_ok fromThird
  rw [← Except.ok.inj fst] at isOne
  exact getUintX_within handle.hash_base (by decide) isOne

theorem divisor_of_safe (safe : ∀ key, SafeCall map (cdbrFind nbtool map cdbr key))
    (isTool : nbtool = true) (nz : header.entries_index ≠ 0) : header.entries ≠ 0 := by
  intro zero
  obtain ⟨res, isRes, _⟩ := safe []
  unfold cdbrFind at isRes
  rw [if_neg (by rw [handle.entries_index]; exact nz)] at isRes
  obtain ⟨fst, _, fromFirst⟩ := bind_ok isRes
  obtain ⟨snd, _, fromSecond⟩ := bind_ok fromFirst
  obtain ⟨third, _, fromThird⟩ := bind_ok fromSecond
  obtain ⟨one, _, fromOne⟩ := bind_ok fromThird
  obtain ⟨two, _, fromTwo⟩ := bind_ok fromOne
  obtain ⟨three, _, fromLast⟩ := bind_ok fromTwo
  obtain ⟨idx, isIdx, _⟩ := bind_ok fromLast
  unfold remainder32 at isIdx
  rw [if_pos isTool, if_pos (by rw [handle.entries]; exact zero)] at isIdx
  cases isIdx

end Safety

section Reader

variable {fresh : Divider} {map : Mapping} {cdbr : Cdbr}

/-- Every lookup of an accepted file stays in the mapping and divides by no 0, exactly when the
tables are within the file at their length without a wrap. -/
theorem cdbr_safe (nbtool : Bool) (isOpen : cdbrOpenMem fresh map = some cdbr) :
    ((∀ idx : UInt32, SafeCall map (cdbrGet map cdbr idx.toNat)) ∧
      ∀ key, SafeCall map (cdbrFind nbtool map cdbr key)) ↔
    Roomy nbtool (headerOf map.bytes) map.bytes.length := by
  obtain ⟨handle, long⟩ := cdbrOpenMem_handle isOpen
  constructor
  · intro safe
    refine ⟨?_, offsets_of_safe handle safe.1, divisor_of_safe handle safe.2⟩
    by_cases zero : (headerOf map.bytes).entries_index = 0
    · rw [zero]
      exact long
    · exact hash_of_safe handle safe.2 zero
  · intro roomy
    exact ⟨fun idx => safe_get handle roomy.offsets, safe_find handle roomy⟩

def mappingOf (bytes : List UInt8) (short : bytes.length ≤ 64) : Mapping where
  mmap_base := 4096
  bytes := bytes
  farFromEnd := by omega

/-- An entry of the bytes 7, 8 and 9, behind a hash table of two bytes and an offset table. -/
def oneEntry : List UInt8 :=
  magic ++ List.replicate 16 0 ++ [3, 0, 0, 0] ++ [1, 0, 0, 0] ++ [2, 0, 0, 0] ++ [0, 0, 0, 0] ++
    [0, 0] ++ [0, 3] ++ [7, 8, 9]

/-- A file with one entry, which the lookup of a key reads. -/
theorem cdbr_safe_oneEntry :
    ∃ cdbr, cdbrOpenMem ⟨0, 0, 0⟩ (mappingOf oneEntry (by decide)) = some cdbr ∧
      cdbrFind false (mappingOf oneEntry (by decide)) cdbr [107, 101, 121] = .ok (some (4140, 3)) ∧
      (∀ idx : UInt32, SafeCall (mappingOf oneEntry (by decide))
        (cdbrGet (mappingOf oneEntry (by decide)) cdbr idx.toNat)) ∧
      ∀ key, SafeCall (mappingOf oneEntry (by decide))
        (cdbrFind false (mappingOf oneEntry (by decide)) cdbr key) :=
  ⟨cdbrOf ⟨0, 0, 0⟩ (mappingOf oneEntry (by decide)), rfl, by decide,
    (cdbr_safe false rfl).mpr ⟨by decide, by decide, by decide⟩⟩

/-- A file of 45 bytes with a header that says how many hash entries there are. -/
def hostile : List UInt8 := magic ++ List.replicate 24 0 ++ [1, 0, 0, 64] ++ List.replicate 9 0

/-- 4 times 2 ^ 30 + 1 is 4 in 32 bits, and the table is read behind the file. -/
theorem cdbr_safe_wrapped :
    ∃ cdbr, cdbrOpenMem ⟨0, 0, 0⟩ (mappingOf hostile (by decide)) = some cdbr ∧
      cdbrFind false (mappingOf hostile (by decide)) cdbr [] = .error .outside :=
  ⟨cdbrOf ⟨0, 0, 0⟩ (mappingOf hostile (by decide)), rfl, by decide⟩

end Reader

end NetBSD.Cdb
