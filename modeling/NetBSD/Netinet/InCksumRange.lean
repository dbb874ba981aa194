import NetBSD.Machine.Reading
import NetBSD.Netinet.InCksumSegment

/-!
Owns `cpu_in_cksum` as a computation that reads bytes, with the C `int` count
that may fall below 0. A place is the number of an mbuf in the chain and an
index from the start of its data; the mbufs come without their bytes.
-/

namespace NetBSD.Netinet

open NetBSD.Kern NetBSD.Machine List Reading

/-- An mbuf but for its bytes. -/
structure MbufShape where
  /-- `mtod(m, uintptr_t)`. -/
  addr : Nat
  m_len : Nat
  m_len_le : m_len ≤ intMax

def MbufShape.of (m : Mbuf) : MbufShape := ⟨m.addr, m.m_len, m.m_len_le⟩

/-- An mbuf of the chain, and an index into its data. -/
abbrev Place := Nat × Nat

def bytesAt (chain : List Mbuf) (place : Place) : UInt8 :=
  match chain[place.1]? with
  | some m => m.data place.2
  | none => 0

section Segment

variable (u : Ulong) (e : Endian)

def readLoad16 (i : Nat) : Reading Nat UInt8 Nat :=
  .read i fun b0 => .read (i + 1) fun b1 => .done (half e b0 b1)

def readLoad32 (i : Nat) : Reading Nat UInt8 Nat := do
  let first ← readLoad16 e i
  let second ← readLoad16 e (i + 2)
  match e with
  | .little => return first + 65536 * second
  | .big => return 65536 * first + second

def readLoad (i : Nat) : Reading Nat UInt8 Nat :=
  match u with
  | .bits32 => readLoad16 e i
  | .bits64 => readLoad32 e i

/-- `n` successive additions `partial += ...`. -/
def readLoads : (n pos part : Nat) → Reading Nat UInt8 Nat
  | 0, _, part => return part
  | n + 1, pos, part => do
      let operand ← readLoad u e pos
      readLoads n (pos + u.operandBytes) ((part + operand) % u.acc)

def readBlocks (needsSwap : Bool) : (blocks pos part sum : Nat) → Reading Nat UInt8 (Nat × Nat)
  | 0, _, part, sum => return (part, sum)
  | blocks + 1, pos, part, sum => do
      let part ← readLoads u e 16 pos part
      let pos := pos + 16 * u.operandBytes
      if nearlyFull u part then
        readBlocks needsSwap blocks pos 0 (flush u u.acc needsSwap sum part)
      else
        readBlocks needsSwap blocks pos part sum

def intBitSet (mlen : Int) (bit : Nat) : Bool := mlen / bit % 2 == 1

/-- The steps `if (mlen & bit)`; `mlen -= 16` in the 32-bit version leaves the
lower bits as they are. -/
def readTail (mlen : Int) : (counts : List Nat) → (pos part : Nat) → Reading Nat UInt8 (Nat × Nat)
  | [], pos, part => return (pos, part)
  | n :: rest, pos, part =>
    if intBitSet mlen (n * u.operandBytes) then do
      let part ← readLoads u e n pos part
      readTail mlen rest (pos + n * u.operandBytes) part
    else
      readTail mlen rest pos part

def readTrailingByte (mlen : Int) (pos part : Nat) : Reading Nat UInt8 Nat :=
  if intBitSet mlen 1 then .read pos fun byte => .done ((part + half e byte 0) % u.acc)
  else return part

/-- The byte that aligns an odd address. -/
def readFirstByte (addr : Nat) : Reading Nat UInt8 Nat :=
  if addr % 2 = 1 then .read 0 fun byte => .done (half e 0 byte) else return 0

/-- One segment in the 32-bit version, up to the last addition to `sum`. -/
def readSegment32 (addr : Nat) (mlen : Int) (startedOnOdd : Bool) (sum : Nat) :
    Reading Nat UInt8 (Bool × Nat) := do
  let startedOnOdd := if addr % 2 = 1 then !startedOnOdd else startedOnOdd
  let part ← readFirstByte e addr
  let pos := skew addr
  let mlen := mlen - skew addr
  let needsSwap := startedOnOdd
  let blocks := (mlen / 32).toNat
  let looped ← readBlocks .bits32 e needsSwap blocks pos part sum
  let pos := pos + blocks * 32
  let mlen := mlen - blocks * 32
  let tail ← readTail .bits32 e mlen [8, 4, 2, 1] pos looped.1
  let part ← readTrailingByte .bits32 e mlen tail.1 tail.2
  let startedOnOdd := if intBitSet mlen 1 then !startedOnOdd else startedOnOdd
  return (startedOnOdd, addPart .bits32 Ulong.bits32.acc needsSwap looped.2 part)

/-- The 64-bit loop and tail, from a four-byte boundary on. -/
def readAligned64 (needsSwap : Bool) (mlen : Int) (pos part sum : Nat) : Reading Nat UInt8 Nat := do
  let blocks := (mlen / 64).toNat
  let looped ← readBlocks .bits64 e needsSwap blocks pos part sum
  let pos := pos + blocks * 64
  let mlen := mlen - blocks * 64
  let tail ← readTail .bits64 e mlen [8, 4, 2, 1] pos looped.1
  let last ← if intBitSet mlen 2 then readLoad16 e tail.1 else pure 0
  let part := if intBitSet mlen 2 then (tail.2 + last) % Ulong.bits64.acc else tail.2
  let pos := if intBitSet mlen 2 then tail.1 + 2 else tail.1
  let part ← readTrailingByte .bits64 e mlen pos part
  return addPart .bits64 Ulong.bits64.acc needsSwap looped.2 part

/-- One segment in the 64-bit version, up to the last addition to `sum`. -/
def readSegment64 (addr : Nat) (mlen : Int) (startedOnOdd : Bool) (sum : Nat) :
    Reading Nat UInt8 (Bool × Nat) := do
  let startedOnOdd := if addr % 2 = 1 then !startedOnOdd else startedOnOdd
  let part ← readFirstByte e addr
  let pos := skew addr
  let mlen := mlen - skew addr
  let needsSwap := startedOnOdd
  let startedOnOdd := if intBitSet mlen 1 then !startedOnOdd else startedOnOdd
  if (addr + pos) / 2 % 2 = 1 then
    if mlen < 2 then
      let part ← readTrailingByte .bits64 e mlen pos part
      return (startedOnOdd, addPart .bits64 Ulong.bits64.acc needsSwap sum part)
    else
      let word ← readLoad16 e pos
      let sum ← readAligned64 e needsSwap (mlen - 2) (pos + 2)
        ((part + word) % Ulong.bits64.acc) sum
      return (startedOnOdd, sum)
  else
    let sum ← readAligned64 e needsSwap mlen pos part sum
    return (startedOnOdd, sum)

/-- One segment up to the last addition, in either version. -/
def readSegment (addr : Nat) (mlen : Int) (startedOnOdd : Bool) (sum : Nat) :
    Reading Nat UInt8 (Bool × Nat) :=
  match u with
  | .bits32 => readSegment32 e addr mlen startedOnOdd sum
  | .bits64 => readSegment64 e addr mlen startedOnOdd sum

/-! ### The chain -/

def readMbuf (k : Nat) (m : MbufShape) (off mlen : Nat) (startedOnOdd : Bool) (sum : Nat) :
    Reading Place UInt8 (Bool × Nat) :=
  (readSegment u e (m.addr + off) mlen startedOnOdd sum).relocate fun i => (k, off + i)

/-- `for (; len > 0; m = m->m_next)`; `none` is `in_cksum: out of data`. -/
def readChain : (k : Nat) → List MbufShape → (len : Nat) → (startedOnOdd : Bool) → (sum : Nat) →
    Reading Place UInt8 (Option Nat)
  | _, [], len, _, sum => return if len = 0 then some sum else none
  | k, m :: rest, len, startedOnOdd, sum =>
    if len = 0 then return some sum
    else if m.m_len = 0 then readChain (k + 1) rest len startedOnOdd sum
    else do
      let mlen := min m.m_len len
      let segment ← readMbuf u e k m 0 mlen startedOnOdd sum
      readChain (k + 1) rest (len - mlen) segment.1 (reduce u segment.2)

/-- The first loop, and the segment that it jumps to. -/
def readFrom : (k : Nat) → List MbufShape → (off len sum : Nat) → Reading Place UInt8 (Option Nat)
  | _, [], _, _, _ => return none
  | k, m :: rest, off, len, sum =>
    if off < m.m_len then do
      let mlen := min (m.m_len - off) len
      let segment ← readMbuf u e k m off mlen false sum
      readChain u e (k + 1) rest (len - mlen) segment.1 (reduce u segment.2)
    else if len = 0 then return some sum
    else readFrom (k + 1) rest (off - m.m_len) len sum

end Segment

/-- The arguments `off` and `len`. -/
structure CksumArgs where
  off : Nat
  len : Nat
  off_le : off ≤ intMax
  len_le : len ≤ intMax

def cpuInCksumReads (u : Ulong) (e : Endian) (chain : List MbufShape) (args : CksumArgs)
    (initialSum : UInt32) : Reading Place UInt8 Int := do
  let sum ← readFrom u e 0 chain args.off args.len (startSum u initialSum)
  match sum with
  | none => return -1
  | some sum => return complement16 (finalAcc u sum)

/-!
### What is read

What `cpu_in_cksum` reads. With at least one byte to sum it reads bytes of
its range only; with none it reads past an odd address, since the byte that
aligns takes the count to -1. Where the count is positive the result is the one
of the plain model.
-/

/-! ### The result -/

variable {mlen addr : Nat}

section Value

variable (u : Ulong) (e : Endian) (d : Nat → UInt8)

theorem intBitSet_natCast (mlen bit : Nat) : intBitSet mlen bit = bitSet mlen bit := by
  rw [Bool.eq_iff_iff, intBitSet, bitSet, beq_iff_eq, beq_iff_eq]
  omega

theorem value_readLoad16 (i : Nat) : (readLoad16 e i).value d = load16 e d i := rfl

theorem value_readLoad32 (i : Nat) : (readLoad32 e i).value d = load32 e d i := by
  cases e <;> rfl

theorem value_readLoad (i : Nat) : (readLoad u e i).value d = load u e d i := by
  cases u with
  | bits32 => exact value_readLoad16 e d i
  | bits64 => exact value_readLoad32 e d i

theorem value_readLoads (n pos part : Nat) :
    (readLoads u e n pos part).value d = addLoads u e d n pos part := by
  induction n generalizing pos part with
  | zero => rfl
  | succ n ih =>
    rw [readLoads, value_bind, value_readLoad, ih, addLoads]

theorem value_readBlocks (swap : Bool) (blks pos part sum : Nat) :
    (readBlocks u e swap blks pos part sum).value d =
      blockLoop u e d u.acc swap blks pos part sum := by
  induction blks generalizing pos part sum with
  | zero => rfl
  | succ blks ih =>
    simp only [readBlocks, value_bind, value_readLoads, blockLoop]
    split
    · exact ih ..
    · exact ih ..

theorem value_readTail (mlen : Nat) (cnts : List Nat) (pos part : Nat) :
    (readTail u e mlen cnts pos part).value d = tailLoads u e d mlen cnts pos part := by
  induction cnts generalizing pos part with
  | nil => rfl
  | cons n tl ih =>
    rw [readTail, tailLoads, intBitSet_natCast]
    split
    · rw [value_bind, value_readLoads, ih]
    · exact ih ..

theorem value_readTrailingByte (mlen pos part : Nat) :
    (readTrailingByte u e mlen pos part).value d = trailingByte u e d mlen pos part := by
  rw [readTrailingByte, trailingByte, intBitSet_natCast]
  split <;> rfl

theorem value_readFirstByte (addr : Nat) : (readFirstByte e addr).value d = firstByte e d addr := by
  rw [readFirstByte, firstByte]
  split <;> rfl

theorem toNat_blocks (mlen block : Nat) : ((mlen : Int) / (block : Int)).toNat = mlen / block := by
  rw [← Int.natCast_ediv, Int.toNat_natCast]

theorem rest_natCast (mlen block : Nat) :
    (mlen : Int) - ((mlen / block : Nat) : Int) * (block : Int) = ((mlen % block : Nat) : Int) := by
  have split := Nat.div_add_mod mlen block
  rw [Nat.mul_comm] at split
  omega

theorem value_readAligned64 (swap : Bool) (mlen pos part sum : Nat) :
    (readAligned64 e swap mlen pos part sum).value d =
      accumulateAligned64 e d Ulong.bits64.acc swap mlen pos part sum := by
  have blks : ((mlen : Int) / 64).toNat = mlen / 64 := toNat_blocks mlen 64
  have tl : (mlen : Int) - ((mlen / 64 : Nat) : Int) * 64 = ((mlen % 64 : Nat) : Int) :=
    rest_natCast mlen 64
  simp only [readAligned64, blks, tl, value_bind, value_readBlocks, value_readTail,
    intBitSet_natCast, accumulateAligned64]
  by_cases word : bitSet (mlen % 64) 2 = true
  · simp only [if_pos word, value_bind, value_readLoad16, value_readTrailingByte,
      value_pure]
  · simp only [if_neg word, value_bind, value_readTrailingByte, value_pure]

theorem value_readSegment32 (fits : skew addr ≤ mlen) (odd : Bool) (sum : Nat) :
    (readSegment32 e addr mlen odd sum).value d =
      accumulate32 e d Ulong.bits32.acc addr mlen odd sum := by
  have skewed : (mlen : Int) - (skew addr : Int) = ((mlen - skew addr : Nat) : Int) := by omega
  have blks : (((mlen - skew addr : Nat) : Int) / 32).toNat = (mlen - skew addr) / 32 :=
    toNat_blocks _ 32
  have tl : ((mlen - skew addr : Nat) : Int) - (((mlen - skew addr) / 32 : Nat) : Int) * 32 =
      (((mlen - skew addr) % 32 : Nat) : Int) := rest_natCast _ 32
  simp only [readSegment32, skewed, blks, tl, value_bind, value_readBlocks,
    value_readTail, value_readFirstByte, intBitSet_natCast, value_readTrailingByte,
    value_pure, accumulate32]

theorem value_readSegment64 (fits : skew addr ≤ mlen) (odd : Bool) (sum : Nat) :
    (readSegment64 e addr mlen odd sum).value d =
      accumulate64 e d Ulong.bits64.acc addr mlen odd sum := by
  have skewed : (mlen : Int) - (skew addr : Int) = ((mlen - skew addr : Nat) : Int) := by omega
  simp only [readSegment64, skewed, value_bind, value_readFirstByte, intBitSet_natCast,
    accumulate64]
  by_cases unaligned : (addr + skew addr) / 2 % 2 = 1
  · rw [if_pos unaligned, if_pos unaligned]
    by_cases short : mlen - skew addr < 2
    · have shortInt : ((mlen - skew addr : Nat) : Int) < 2 := by omega
      rw [if_pos short, if_pos shortInt]
      simp only [value_bind, value_readTrailingByte, value_pure]
    have longInt : ¬ ((mlen - skew addr : Nat) : Int) < 2 := by omega
    have less : ((mlen - skew addr : Nat) : Int) - 2 = ((mlen - skew addr - 2 : Nat) : Int) := by
      omega
    rw [if_neg short, if_neg longInt]
    simp only [less, value_bind, value_readLoad16, value_readAligned64, value_pure]
  · rw [if_neg unaligned, if_neg unaligned]
    simp only [value_bind, value_readAligned64, value_pure]

theorem value_readSegment (pos' : 0 < mlen) (odd : Bool) (sum : Nat) (m : Mbuf)
    (sameAddr : m.addr = addr) : (readSegment u e addr mlen odd sum).value m.data =
      accumulate u e u.acc m mlen odd sum := by
  subst sameAddr
  cases u with
  | bits32 => exact value_readSegment32 e m.data (skew_le pos') odd sum
  | bits64 => exact value_readSegment64 e m.data (skew_le pos') odd sum

end Value

/-! ### The places -/

section Within

variable (u : Ulong) (e : Endian) {limit : Nat}

abbrev Below {α : Type} (limit : Nat) (post : α → Prop) (reading : Reading Nat UInt8 α) : Prop :=
  reading.Within (· < limit) post

abbrev Anything {α : Type} (_ : α) : Prop := True

theorem readLoad16_below {i : Nat} (fits : i + 2 ≤ limit) : Below limit Anything (readLoad16 e i) :=
  ⟨by omega, fun _ => ⟨by omega, fun _ => trivial⟩⟩

theorem readLoad_below {i : Nat} (fits : i + u.operandBytes ≤ limit) :
    Below limit Anything (readLoad u e i) := by
  cases u with
  | bits32 => exact readLoad16_below e fits
  | bits64 =>
    change i + 4 ≤ limit at fits
    refine Within.bind (readLoad16_below e (by omega)) fun fst _ => ?_
    refine Within.bind (readLoad16_below e (by omega)) fun snd _ => ?_
    cases e <;> exact trivial

variable {pos : Nat}

theorem readLoads_below (n : Nat) (part : Nat) (fits : pos + n * u.operandBytes ≤ limit) :
    Below limit Anything (readLoads u e n pos part) := by
  induction n generalizing pos part with
  | zero => exact trivial
  | succ n ih =>
    rw [Nat.succ_mul] at fits
    refine Within.bind (readLoad_below u e (by omega)) fun operand _ => ?_
    exact ih _ (by omega)

theorem readBlocks_below (swap : Bool) (blks : Nat) (part sum : Nat)
    (fits : pos + blks * (16 * u.operandBytes) ≤ limit) :
    Below limit Anything (readBlocks u e swap blks pos part sum) := by
  induction blks generalizing pos part sum with
  | zero => exact trivial
  | succ blks ih =>
    rw [Nat.succ_mul] at fits
    refine Within.bind (readLoads_below u e 16 part (by omega)) fun part' _ => ?_
    split
    · exact ih _ _ (by omega)
    · exact ih _ _ (by omega)

theorem readTail_below (mlen : Nat) (cnts : List Nat) (part : Nat)
    (fits : pos + tailCount u mlen cnts * u.operandBytes ≤ limit) :
    Below limit (fun tail => tail.1 = pos + tailCount u mlen cnts * u.operandBytes)
      (readTail u e mlen cnts pos part) := by
  induction cnts generalizing pos part with
  | nil =>
    change pos = pos + 0 * u.operandBytes
    omega
  | cons n tl ih =>
    rw [readTail, intBitSet_natCast]
    rw [tailCount] at fits ⊢
    split at fits
    · rename_i isSet
      rw [if_pos isSet, if_pos isSet]
      rw [add_mul] at fits ⊢
      refine Within.bind (readLoads_below u e n part (by omega)) fun part' _ => ?_
      rw [← add_assoc] at fits ⊢
      exact ih _ fits
    · rename_i notSet
      rw [if_neg notSet, if_neg notSet]
      rw [zero_add] at fits ⊢
      exact ih _ fits

theorem readTrailingByte_below (part : Nat) (fits : pos + mlen % 2 ≤ limit) :
    Below limit Anything (readTrailingByte u e mlen pos part) := by
  rw [readTrailingByte, intBitSet_natCast, bitSet]
  split
  · rename_i odd
    rw [beq_iff_eq] at odd
    exact ⟨by omega, fun _ => trivial⟩
  · exact trivial

theorem readFirstByte_below (fits : skew addr ≤ limit) :
    Below limit Anything (readFirstByte e addr) := by
  rw [readFirstByte]
  rw [skew] at fits
  split at fits
  · rename_i odd
    rw [if_pos odd]
    exact ⟨fits, fun _ => trivial⟩
  · rename_i even
    rw [if_neg even]
    exact trivial

theorem tail_end {block : Nat} (blk : block = 16 * u.operandBytes) (pos : Nat) :
    pos + mlen / block * block + tailCount u (mlen % block) [8, 4, 2, 1] * u.operandBytes =
      pos + mlen / u.operandBytes * u.operandBytes := by
  have short : mlen % block < 16 * u.operandBytes := by
    rw [blk]
    exact Nat.mod_lt _ (by cases u <;> decide)
  rw [tailCount_eq u short]
  cases u <;> simp only [Ulong.operandBytes] at blk ⊢ <;> subst blk <;> omega

theorem readSegment32_below (fits : skew addr ≤ mlen) (odd : Bool) (sum : Nat) :
    Below mlen Anything (readSegment32 e addr mlen odd sum) := by
  have skewed : (mlen : Int) - (skew addr : Int) = ((mlen - skew addr : Nat) : Int) := by omega
  have blks : (((mlen - skew addr : Nat) : Int) / 32).toNat = (mlen - skew addr) / 32 :=
    toNat_blocks _ 32
  have tl : ((mlen - skew addr : Nat) : Int) - (((mlen - skew addr) / 32 : Nat) : Int) * 32 =
      (((mlen - skew addr) % 32 : Nat) : Int) := rest_natCast _ 32
  have tailEnd : skew addr + (mlen - skew addr) / 32 * 32 +
      tailCount .bits32 ((mlen - skew addr) % 32) [8, 4, 2, 1] * 2 =
        skew addr + (mlen - skew addr) / 2 * 2 := tail_end .bits32 (by decide) _
  simp only [readSegment32, skewed, blks, tl]
  refine Within.bind (readFirstByte_below e fits) fun part _ => ?_
  refine Within.bind (readBlocks_below .bits32 e _ _ _ _ ?_) fun loop _ => ?_
  · change skew addr + (mlen - skew addr) / 32 * 32 ≤ mlen
    omega
  refine Within.bind (readTail_below .bits32 e _ _ _ ?_) fun tail ends => ?_
  · change skew addr + (mlen - skew addr) / 32 * 32 + _ * 2 ≤ mlen
    omega
  change tail.1 = skew addr + (mlen - skew addr) / 32 * 32 + _ * 2 at ends
  refine Within.bind (readTrailingByte_below .bits32 e _ ?_) fun _ _ => trivial
  omega

theorem readAligned64_below (swap : Bool) (part sum : Nat) (fits : pos + mlen ≤ limit) :
    Below limit Anything (readAligned64 e swap mlen pos part sum) := by
  have blks : ((mlen : Int) / 64).toNat = mlen / 64 := toNat_blocks mlen 64
  have tl : (mlen : Int) - ((mlen / 64 : Nat) : Int) * 64 = ((mlen % 64 : Nat) : Int) :=
    rest_natCast mlen 64
  have tailEnd : pos + mlen / 64 * 64 + tailCount .bits64 (mlen % 64) [8, 4, 2, 1] * 4 =
      pos + mlen / 4 * 4 := tail_end .bits64 (by decide) _
  simp only [readAligned64, blks, tl, intBitSet_natCast]
  refine Within.bind (readBlocks_below .bits64 e _ _ _ _ ?_) fun loop _ => ?_
  · change pos + mlen / 64 * 64 ≤ limit
    omega
  refine Within.bind (readTail_below .bits64 e _ _ _ ?_) fun tail ends => ?_
  · change pos + mlen / 64 * 64 + _ * 4 ≤ limit
    omega
  change tail.1 = pos + mlen / 64 * 64 + _ * 4 at ends
  by_cases word : bitSet (mlen % 64) 2 = true
  · have wordLeft : mlen % 64 / 2 % 2 = 1 := beq_iff_eq.mp word
    simp only [if_pos word]
    refine Within.bind (readLoad16_below e (by omega)) fun last _ => ?_
    exact Within.bind (readTrailingByte_below .bits64 e _ (by omega)) fun _ _ => trivial
  · have noWord : Anything 0 := trivial
    simp only [if_neg word]
    refine Within.bind (within_pure noWord) fun last _ => ?_
    exact Within.bind (readTrailingByte_below .bits64 e _ (by omega)) fun _ _ => trivial

theorem readSegment64_below (fits : skew addr ≤ mlen) (odd : Bool) (sum : Nat) :
    Below mlen Anything (readSegment64 e addr mlen odd sum) := by
  have skewed : (mlen : Int) - (skew addr : Int) = ((mlen - skew addr : Nat) : Int) := by omega
  simp only [readSegment64, skewed]
  refine Within.bind (readFirstByte_below e fits) fun part _ => ?_
  by_cases unaligned : (addr + skew addr) / 2 % 2 = 1
  · rw [if_pos unaligned]
    by_cases short : ((mlen - skew addr : Nat) : Int) < 2
    · rw [if_pos short]
      exact Within.bind (readTrailingByte_below .bits64 e _ (by omega)) fun _ _ => trivial
    · have less : ((mlen - skew addr : Nat) : Int) - 2 = ((mlen - skew addr - 2 : Nat) : Int) := by
        omega
      rw [if_neg short, less]
      refine Within.bind (readLoad16_below e (by omega)) fun word _ => ?_
      exact Within.bind (readAligned64_below e _ _ _ (by omega)) fun _ _ => trivial
  · rw [if_neg unaligned]
    exact Within.bind (readAligned64_below e _ _ _ (by omega)) fun _ _ => trivial

theorem readSegment_below (fits : skew addr ≤ mlen) (odd : Bool) (sum : Nat) :
    Below mlen Anything (readSegment u e addr mlen odd sum) := by
  cases u with
  | bits32 => exact readSegment32_below e fits odd sum
  | bits64 => exact readSegment64_below e fits odd sum

end Within

/-! ### The chain -/

def startOf (chain : List MbufShape) (k : Nat) : Nat := ((chain.take k).map MbufShape.m_len).sum

/-- A byte of the packet from `low` on and below `high`, in a chain whose first mbuf is number
`k`. -/
def RangePlace (k : Nat) (chain : List MbufShape) (low high : Nat) (place : Place) : Prop :=
  ∃ i m, place.1 = k + i ∧ chain[i]? = some m ∧ place.2 < m.m_len ∧
    low ≤ startOf chain i + place.2 ∧ startOf chain i + place.2 < high

theorem RangePlace.here {k : Nat} {m : MbufShape} {tl : List MbufShape} {low high i : Nat}
    (lt : i < m.m_len) (above : low ≤ i) (below : i < high) :
    RangePlace k (m :: tl) low high (k, i) := by
  refine ⟨0, m, rfl, rfl, lt, ?_, ?_⟩
  · exact Nat.le_trans above (Nat.le_add_left _ _)
  · change 0 + i < high
    omega

theorem RangePlace.later {k : Nat} {m : MbufShape} {tl : List MbufShape}
    {low high low' high' : Nat} {plc : Place} (isIn : RangePlace (k + 1) tl low high plc)
    (above : low' ≤ m.m_len + low) (below : low < high → m.m_len + high ≤ high') :
    RangePlace k (m :: tl) low' high' plc := by
  obtain ⟨i, oth, same, fnd, lt, isAbove, isBelow⟩ := isIn
  have beg : startOf (m :: tl) (i + 1) = m.m_len + startOf tl i := rfl
  refine ⟨i + 1, oth, by omega, fnd, lt, ?_, ?_⟩
  · omega
  · omega

section Chain

variable (u : Ulong) (e : Endian)

theorem readMbuf_within (k : Nat) {m : MbufShape} {tl : List MbufShape} {off high : Nat}
    (odd : Bool) (sum : Nat) (fits : skew (m.addr + off) ≤ mlen)
    (lt : off + mlen ≤ m.m_len) (below : off + mlen ≤ high) :
    (readMbuf u e k m off mlen odd sum).Within (RangePlace k (m :: tl) off high)
      Anything :=
  (readSegment_below u e fits odd sum).relocate fun _ isBelow =>
    .here (Nat.lt_of_lt_of_le (Nat.add_lt_add_left isBelow off) lt) (Nat.le_add_right _ _)
      (Nat.lt_of_lt_of_le (Nat.add_lt_add_left isBelow off) below)

theorem readChain_within (k : Nat) (chain : List MbufShape) (len : Nat) (odd : Bool)
    (sum : Nat) :
    (readChain u e k chain len odd sum).Within (RangePlace k chain 0 len) Anything := by
  induction chain generalizing k len odd sum with
  | nil => exact trivial
  | cons m tl ih =>
    rw [readChain]
    by_cases fin : len = 0
    · rw [if_pos fin]
      exact trivial
    rw [if_neg fin]
    by_cases empty : m.m_len = 0
    · rw [if_pos empty]
      exact (ih (k + 1) len odd sum).mono
        (fun plc isIn => isIn.later (Nat.zero_le _) fun _ => by omega) fun _ _ => trivial
    rw [if_neg empty]
    have pos' : 0 < min m.m_len len := by omega
    refine Within.bind (readMbuf_within u e k _ _ (skew_le pos') (by omega)
      (by omega)) fun segment _ => ?_
    exact (ih (k + 1) _ _ _).mono
      (fun plc isIn => isIn.later (Nat.zero_le _) fun _ => by omega) fun _ _ => trivial

/-- The search for the first byte reads nothing, and an empty range at an even address
neither. -/
theorem readFrom_within (k : Nat) (chain : List MbufShape) {off len : Nat} (sum : Nat)
    (even : len = 0 → ∀ m, chain.head? = some m → off < m.m_len → (m.addr + off) % 2 = 0) :
    (readFrom u e k chain off len sum).Within (RangePlace k chain off (off + len)) Anything := by
  induction chain generalizing k off with
  | nil => exact trivial
  | cons m tl ih =>
    rw [readFrom]
    by_cases fnd : off < m.m_len
    · rw [if_pos fnd]
      have fits : skew (m.addr + off) ≤ min (m.m_len - off) len := by
        by_cases no : len = 0
        · rw [skew, even no m rfl fnd]
          exact Nat.zero_le _
        · exact skew_le (by omega)
      refine Within.bind (readMbuf_within u e k _ _ fits (by omega) (by omega))
        fun segment _ => ?_
      exact (readChain_within u e (k + 1) tl _ _ _).mono
        (fun plc isIn => isIn.later (by omega) fun _ => by omega) fun _ _ => trivial
    · rw [if_neg fnd]
      by_cases no : len = 0
      · rw [if_pos no]
        exact trivial
      · rw [if_neg no]
        exact (ih (k + 1) fun hn => absurd hn no).mono
          (fun plc isIn => isIn.later (by omega) fun _ => by omega) fun _ _ => trivial

/-! ### The range -/

/-- A byte of the range of the arguments. -/
def InRange (chain : List MbufShape) (args : CksumArgs) : Place → Prop :=
  RangePlace 0 chain args.off (args.off + args.len)

/-- The result depends on the bytes of the range only, and no other byte is read. -/
structure RangeOnly (chain : List MbufShape) (args : CksumArgs) (initialSum : UInt32) : Prop where
  depends : ∀ left right : List Mbuf, left.map MbufShape.of = chain →
    right.map MbufShape.of = chain →
    (∀ place, InRange chain args place → bytesAt left place = bytesAt right place) →
    (cpuInCksumReads u e chain args initialSum).value (bytesAt left) =
      (cpuInCksumReads u e chain args initialSum).value (bytesAt right)
  reads : ∀ mbufs : List Mbuf, mbufs.map MbufShape.of = chain →
    ∀ place ∈ (cpuInCksumReads u e chain args initialSum).places (bytesAt mbufs),
      InRange chain args place

/-- An empty range that starts inside the first mbuf, at an odd address. -/
def EmptyAtOdd (chain : List MbufShape) (args : CksumArgs) : Prop :=
  args.len = 0 ∧ ∃ m, chain.head? = some m ∧ args.off < m.m_len ∧ (m.addr + args.off) % 2 = 1

theorem cpuInCksumReads_within {chain : List MbufShape} {args : CksumArgs}
    (usual : ¬ EmptyAtOdd chain args) (initialSum : UInt32) :
    (cpuInCksumReads u e chain args initialSum).Within (InRange chain args) Anything := by
  refine Within.bind (readFrom_within u e 0 chain _ ?_) fun sum _ => ?_
  · intro no m hd lt
    by_contra odd
    exact usual ⟨no, m, hd, lt, by omega⟩
  · cases sum with
    | none | some => exact trivial

theorem aligns_odd (odd : addr % 2 = 1) (mlen : Int) (startedOnOdd : Bool) (sum : Nat)
    (d : Nat → UInt8) : 0 ∈ (readSegment u e addr mlen startedOnOdd sum).places d := by
  have fst : 0 ∈ (readFirstByte e addr).places d := by
    rw [readFirstByte, if_pos odd]
    exact mem_singleton.mpr rfl
  cases u with
  | bits32 =>
    change 0 ∈ (readSegment32 e addr mlen startedOnOdd sum).places d
    rw [readSegment32, places_bind]
    exact mem_append_left _ fst
  | bits64 =>
    change 0 ∈ (readSegment64 e addr mlen startedOnOdd sum).places d
    rw [readSegment64, places_bind]
    exact mem_append_left _ fst

theorem reads_outside {chain : List MbufShape} {args : CksumArgs}
    (emptyAtOdd : EmptyAtOdd chain args) (initialSum : UInt32) (memory : Place → UInt8) :
    (0, args.off) ∈ (cpuInCksumReads u e chain args initialSum).places memory := by
  obtain ⟨_, m, hd, lt, odd⟩ := emptyAtOdd
  obtain ⟨tl, rfl⟩ : ∃ tl, chain = m :: tl := by
    cases chain with
    | nil => cases hd
    | cons head tl => exact ⟨tl, by rw [Option.some.inj hd]⟩
  rw [cpuInCksumReads, places_bind, readFrom, if_pos lt, places_bind, readMbuf,
    places_relocate]
  refine mem_append_left _ (mem_append_left _ (mem_map.mpr ⟨0, ?_, rfl⟩))
  exact aligns_odd u e odd _ _ _ _

def zeroMbuf (m : MbufShape) : Mbuf := ⟨m.addr, fun _ => 0, m.m_len, m.m_len_le⟩

theorem map_zeroMbuf (chain : List MbufShape) : (chain.map zeroMbuf).map MbufShape.of = chain := by
  rw [map_map]
  exact map_id chain

/-- `cpu_in_cksum` depends on its range alone and reads nothing else, but for an empty range that
starts inside the first mbuf at an odd address. -/
theorem cpuInCksum_rangeOnly_iff (chain : List MbufShape) (args : CksumArgs) (initialSum : UInt32) :
    RangeOnly u e chain args initialSum ↔ ¬ EmptyAtOdd chain args := by
  constructor
  · intro rangeOnly emptyAtOdd
    obtain ⟨_, _, _, _, _, above, below⟩ := rangeOnly.reads _ (map_zeroMbuf chain) _
      (reads_outside u e emptyAtOdd initialSum _)
    have no := emptyAtOdd.1
    omega
  · intro usual
    have bnd := cpuInCksumReads_within u e usual initialSum
    exact ⟨fun _ _ _ _ agree => bnd.value_congr agree,
      fun mbufs _ => bnd.allowed_of_mem (bytesAt mbufs)⟩

/-- With an empty range at an odd address the result changes with a byte that is not in the
range. -/
theorem emptyRange_depends :
    let mbuf (byte : UInt8) : Mbuf := ⟨1, fun i => if i = 0 then byte else 0, 1, by decide⟩
    let sum (u : Ulong) (byte : UInt8) : Int :=
      (cpuInCksumReads u .little [MbufShape.of (mbuf byte)] ⟨0, 0, by decide, by decide⟩ 0).value
        (bytesAt [mbuf byte])
    (sum .bits32 0 = 0xffff ∧ sum .bits32 1 = 0xfffe) ∧
      sum .bits64 0 = 0xffff ∧ sum .bits64 1 = 0xfffe := by
  decide +kernel

end Chain

/-! ### The plain model -/

section Plain

variable (u : Ulong) (e : Endian) {memory : Place → UInt8}

def Holds (memory : Place → UInt8) (k : Nat) (chain : List Mbuf) : Prop :=
  ∀ i m, chain[i]? = some m → ∀ j, memory (k + i, j) = m.data j

theorem Holds.tail {k : Nat} {m : Mbuf} {tl : List Mbuf} (holds : Holds memory k (m :: tl)) :
    Holds memory (k + 1) tl := by
  intro i oth fnd j
  have plc : k + 1 + i = k + (i + 1) := by omega
  rw [plc]
  exact holds (i + 1) oth fnd j

theorem holds_bytesAt (chain : List Mbuf) : Holds (bytesAt chain) 0 chain := by
  intro i m fnd j
  rw [bytesAt, zero_add, fnd]

theorem value_readMbuf {k : Nat} {m : Mbuf} {tl : List Mbuf} (holds : Holds memory k (m :: tl))
    (off : Nat) (pos' : 0 < mlen) (odd : Bool) (sum : Nat) :
    (readMbuf u e k (MbufShape.of m) off mlen odd sum).value memory =
      accumulate u e u.acc (advance m off) mlen odd sum := by
  have bytes : (fun i => memory (k, off + i)) = (advance m off).data := by
    funext i
    exact holds 0 m rfl (off + i)
  rw [readMbuf, value_relocate, bytes]
  exact value_readSegment u e pos' odd sum (advance m off) rfl

theorem advance_zero (m : Mbuf) : advance m 0 = m := by
  have bytes : (fun i => m.data (0 + i)) = m.data := by
    funext i
    rw [Nat.zero_add]
  simp only [advance, bytes, Nat.add_zero, Nat.sub_zero]

theorem value_readChain {k : Nat} {chain : List Mbuf} (holds : Holds memory k chain) (len : Nat)
    (odd : Bool) (sum : Nat) :
    (readChain u e k (chain.map MbufShape.of) len odd sum).value memory =
      sumChain u e chain len odd sum := by
  induction chain generalizing k len odd sum with
  | nil => rfl
  | cons m tl ih =>
    rw [map_cons, readChain, sumChain]
    by_cases fin : len = 0
    · rw [if_pos fin, if_pos fin, value_pure]
    rw [if_neg fin, if_neg fin]
    change (if m.m_len = 0 then _ else _ : Reading Place UInt8 (Option Nat)).value memory = _
    by_cases empty : m.m_len = 0
    · rw [if_pos empty, if_pos empty]
      exact ih holds.tail len odd sum
    have pos' : 0 < min m.m_len len := by omega
    rw [if_neg empty, if_neg empty]
    simp only [value_bind]
    rw [ih holds.tail]
    have segment := value_readMbuf u e holds 0 pos' odd sum
    rw [advance_zero] at segment
    rw [← segment]
    rfl

theorem value_readFrom {k : Nat} {chain : List Mbuf} (holds : Holds memory k chain) (off : Nat)
    {len : Nat} (pos' : 0 < len) (sum : Nat) :
    (readFrom u e k (chain.map MbufShape.of) off len sum).value memory =
      (skipTo chain off).bind fun tl => sumChain u e tl len false sum := by
  induction chain generalizing k off with
  | nil => rfl
  | cons m tl ih =>
    rw [skipTo]
    change (if off < m.m_len then _ else _ : Reading Place UInt8 (Option Nat)).value memory = _
    by_cases fnd : off < m.m_len
    · have left : (advance m off).m_len ≠ 0 := Nat.sub_ne_zero_of_lt fnd
      have pos : 0 < min (m.m_len - off) len := by omega
      rw [if_pos fnd, if_pos fnd, Option.bind_some, sumChain, if_neg (by omega), if_neg left]
      simp only [value_bind]
      rw [value_readChain u e holds.tail]
      have segment := value_readMbuf u e holds off pos false sum
      change _ = accumulate u e u.acc (advance m off) (min (advance m off).m_len len) false sum
        at segment
      rw [← segment]
      rfl
    · rw [if_neg fnd, if_neg fnd, if_neg (by omega)]
      exact ih holds.tail (off - m.m_len)

theorem value_cpuInCksumReads (chain : List Mbuf) (range : CksumRange) (initialSum : UInt32) :
    (cpuInCksumReads u e (chain.map MbufShape.of)
        ⟨range.off, range.len, range.off_le, range.len_le⟩ initialSum).value (bytesAt chain) =
      cpuInCksum u e chain range initialSum := by
  rw [cpuInCksumReads, cpuInCksum, value_bind,
    value_readFrom u e (holds_bytesAt chain) range.off range.len_pos]
  cases (skipTo chain range.off).bind fun tl =>
      sumChain u e tl range.len false (startSum u initialSum) with
  | none => rfl
  | some sum => rfl

end Plain

end NetBSD.Netinet
