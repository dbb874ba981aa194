import NetBSD.Kern.Mbuf

/-!
Owns the two versions of `cpu_in_cksum` in `sys/netinet/cpu_in_cksum.c`, for
32-bit and 64-bit `unsigned long` and for both byte orders. Accumulators are
natural numbers reduced modulo their width at every addition. The width of
`sum` is a parameter of the segment code, so that the same code can be read
with an unbounded `sum`.
-/

namespace NetBSD.Netinet

open NetBSD.Kern

/-- `_BYTE_ORDER`. -/
inductive Endian where
  | little
  | big
deriving DecidableEq, Repr

inductive Ulong where
  | bits32
  | bits64
deriving DecidableEq, Repr

/-- The bits of one operand of the inner loop: half an accumulator. -/
def Ulong.operandBits : Ulong → Nat
  | .bits32 => 16
  | .bits64 => 32

def Ulong.operandBytes : Ulong → Nat
  | .bits32 => 2
  | .bits64 => 4

/-- One more than the largest operand. -/
def Ulong.operand (u : Ulong) : Nat := 2 ^ u.operandBits

/-- One more than the largest accumulator value. -/
def Ulong.acc (u : Ulong) : Nat := 2 ^ (2 * u.operandBits)

/-- The 16-bit word that two bytes form in memory. -/
def half (e : Endian) (b0 b1 : UInt8) : Nat :=
  match e with
  | .little => b0.toNat + 256 * b1.toNat
  | .big => 256 * b0.toNat + b1.toNat

section Segment

variable (u : Ulong) (e : Endian) (d : Nat → UInt8)

def load16 (i : Nat) : Nat := half e (d i) (d (i + 1))

def load32 (i : Nat) : Nat :=
  match e with
  | .little => load16 e d i + 65536 * load16 e d (i + 2)
  | .big => 65536 * load16 e d i + load16 e d (i + 2)

def load (i : Nat) : Nat :=
  match u with
  | .bits32 => load16 e d i
  | .bits64 => load32 e d i

/-- `n` successive additions `partial += ...`. -/
def addLoads : (n pos part : Nat) → Nat
  | 0, _, part => part
  | n + 1, pos, part => addLoads n (pos + u.operandBytes) ((part + load u e d pos) % u.acc)

/-- `(partial << 8) + (partial >> (width - 8))`. -/
def swapBytes (part : Nat) : Nat :=
  (part * 256 % u.acc + part / (u.acc / 256)) % u.acc

/-- The partial sum in the byte lane of the packet. -/
def aligned (needsSwap : Bool) (part : Nat) : Nat :=
  if needsSwap then swapBytes u part else part

/-- One of the two top bits of `partial` is set. -/
def nearlyFull (part : Nat) : Bool := part / (u.acc / 4) % 4 != 0

/-- The flush inside the loop: the two halves are added to `sum`. -/
def flush (modulus : Nat) (needsSwap : Bool) (sum part : Nat) : Nat :=
  let part := aligned u needsSwap part
  ((sum + part / u.operand) % modulus + part % u.operand) % modulus

/-- `while (mlen >= block)`, for the `blocks` blocks of sixteen operands that
the segment holds. -/
def blockLoop (modulus : Nat) (needsSwap : Bool) : (blocks pos part sum : Nat) → Nat × Nat
  | 0, _, part, sum => (part, sum)
  | blocks + 1, pos, part, sum =>
    let part := addLoads u e d 16 pos part
    let pos := pos + 16 * u.operandBytes
    if nearlyFull u part then
      blockLoop modulus needsSwap blocks pos 0 (flush u modulus needsSwap sum part)
    else
      blockLoop modulus needsSwap blocks pos part sum

def bitSet (mlen bit : Nat) : Bool := mlen / bit % 2 == 1

def tailLoads (mlen : Nat) : (counts : List Nat) → (pos part : Nat) → Nat × Nat
  | [], pos, part => (pos, part)
  | n :: rest, pos, part =>
    if bitSet mlen (n * u.operandBytes) then
      tailLoads mlen rest (pos + n * u.operandBytes) (addLoads u e d n pos part)
    else
      tailLoads mlen rest pos part

def trailingByte (mlen pos part : Nat) : Nat :=
  if bitSet mlen 1 then (part + half e (d pos) 0) % u.acc else part

/-- `sum += (partial >> half) + (partial & mask)` at the end of a segment. -/
def addPart (modulus : Nat) (needsSwap : Bool) (sum part : Nat) : Nat :=
  let part := aligned u needsSwap part
  (sum + (part / u.operand + part % u.operand)) % modulus

/-- The partial sum after the alignment on a two-byte boundary: a first byte at
an odd address is the second byte of a word. -/
def firstByte (addr : Nat) : Nat := if addr % 2 = 1 then half e 0 (d 0) else 0

def skew (addr : Nat) : Nat := if addr % 2 = 1 then 1 else 0

/-- One segment in the 32-bit version, up to the last addition to `sum`. -/
def accumulate32 (modulus addr mlen : Nat) (startedOnOdd : Bool) (sum : Nat) : Bool × Nat :=
  let startedOnOdd := if addr % 2 = 1 then !startedOnOdd else startedOnOdd
  let part := firstByte e d addr
  let pos := skew addr
  let mlen := mlen - skew addr
  let needsSwap := startedOnOdd
  let looped := blockLoop .bits32 e d modulus needsSwap (mlen / 32) pos part sum
  let pos := pos + mlen / 32 * 32
  let mlen := mlen % 32
  let tail := tailLoads .bits32 e d mlen [8, 4, 2, 1] pos looped.1
  let part := trailingByte .bits32 e d mlen tail.1 tail.2
  let startedOnOdd := if bitSet mlen 1 then !startedOnOdd else startedOnOdd
  (startedOnOdd, addPart .bits32 modulus needsSwap looped.2 part)

/-- The 64-bit loop and tail, from a four-byte boundary on. -/
def accumulateAligned64 (modulus : Nat) (needsSwap : Bool) (mlen pos part sum : Nat) : Nat :=
  let looped := blockLoop .bits64 e d modulus needsSwap (mlen / 64) pos part sum
  let pos := pos + mlen / 64 * 64
  let mlen := mlen % 64
  let tail := tailLoads .bits64 e d mlen [8, 4, 2, 1] pos looped.1
  let part := if bitSet mlen 2 then (tail.2 + load16 e d tail.1) % Ulong.bits64.acc else tail.2
  let pos := if bitSet mlen 2 then tail.1 + 2 else tail.1
  addPart .bits64 modulus needsSwap looped.2 (trailingByte .bits64 e d mlen pos part)

/-- One segment in the 64-bit version, up to the last addition to `sum`. -/
def accumulate64 (modulus addr mlen : Nat) (startedOnOdd : Bool) (sum : Nat) : Bool × Nat :=
  let startedOnOdd := if addr % 2 = 1 then !startedOnOdd else startedOnOdd
  let part := firstByte e d addr
  let pos := skew addr
  let mlen := mlen - skew addr
  let needsSwap := startedOnOdd
  let startedOnOdd := if bitSet mlen 1 then !startedOnOdd else startedOnOdd
  let sum :=
    if (addr + pos) / 2 % 2 = 1 then
      if mlen < 2 then
        addPart .bits64 modulus needsSwap sum (trailingByte .bits64 e d mlen pos part)
      else
        accumulateAligned64 e d modulus needsSwap (mlen - 2) (pos + 2)
          ((part + load16 e d pos) % Ulong.bits64.acc) sum
    else
      accumulateAligned64 e d modulus needsSwap mlen pos part sum
  (startedOnOdd, sum)

end Segment

/-- One segment up to the last addition, in either version. -/
def accumulate (u : Ulong) (e : Endian) (modulus : Nat) (m : Mbuf) (mlen : Nat)
    (startedOnOdd : Bool) (sum : Nat) : Bool × Nat :=
  match u with
  | .bits32 => accumulate32 e m.data modulus m.addr mlen startedOnOdd sum
  | .bits64 => accumulate64 e m.data modulus m.addr mlen startedOnOdd sum

def reduce (u : Ulong) (sum : Nat) : Nat := sum / u.operand + sum % u.operand

/-- `for (; len > 0; m = m->m_next)`; `none` is `in_cksum: out of data`. -/
def sumChain (u : Ulong) (e : Endian) : List Mbuf → (len : Nat) → (startedOnOdd : Bool) →
    (sum : Nat) → Option Nat
  | [], len, _, sum => if len = 0 then some sum else none
  | m :: rest, len, startedOnOdd, sum =>
    if len = 0 then some sum
    else if m.m_len = 0 then sumChain u e rest len startedOnOdd sum
    else
      let mlen := min m.m_len len
      let segment := accumulate u e u.acc m mlen startedOnOdd sum
      sumChain u e rest (len - mlen) segment.1 (reduce u segment.2)

/-- `mtod(m, uint8_t *) + off` with the bytes that remain. -/
def advance (m : Mbuf) (off : Nat) : Mbuf :=
  ⟨m.addr + off, fun i => m.data (off + i), m.m_len - off, Nat.le_trans (Nat.sub_le _ _) m.m_len_le⟩

/-- The first loop: the rest of the mbuf that holds byte `off`, and the mbufs
after it. -/
def skipTo : List Mbuf → Nat → Option (List Mbuf)
  | [], _ => none
  | m :: rest, off =>
    if off < m.m_len then some (advance m off :: rest) else skipTo rest (off - m.m_len)

/-- The arguments `off` and `len`, with at least one byte to sum. -/
structure CksumRange where
  off : Nat
  len : Nat
  off_le : off ≤ intMax
  len_pos : 0 < len
  len_le : len ≤ intMax

def startSum (u : Ulong) (initialSum : UInt32) : Nat :=
  match u with
  | .bits32 => initialSum.toNat / 65536 + initialSum.toNat % 65536
  | .bits64 => initialSum.toNat

/-- One step of the final reduction to 16 bits. -/
def fold16 (v : Nat) : Nat := v / 65536 + v % 65536

def finalAcc (u : Ulong) (sum : Nat) : Nat :=
  match u with
  | .bits32 => fold16 (sum / 65536 % 65536 + sum % 65536)
  | .bits64 =>
    fold16 (fold16 (sum / 2 ^ 48 + sum / 2 ^ 32 % 65536 + sum / 65536 % 65536 + sum % 65536))

def complement16 (v : Nat) : Nat := 0xffff - v % 65536

def cpuInCksum (u : Ulong) (e : Endian) (chain : List Mbuf) (range : CksumRange)
    (initialSum : UInt32) : Int :=
  match (skipTo chain range.off).bind fun rest =>
      sumChain u e rest range.len false (startSum u initialSum) with
  | none => -1
  | some sum => complement16 (finalAcc u sum)

end NetBSD.Netinet
