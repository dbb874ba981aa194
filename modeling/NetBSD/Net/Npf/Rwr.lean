import NetBSD.Netinet.InCksumSegment

/-!
Owns the address and port translation of `sys/net/npf/npf_inet.c`: the incremental
checksum updates, `npf_rwrcksum`, `npf_rwrip`, `npf_rwrport` and `npf_napt_rwr`. A
packet is the bytes of its IP header with all options and extension headers, and the
bytes behind it; `e` is the byte order in which the machine loads words. A failed
`KASSERT` is `none`.
-/

namespace NetBSD.Net.Npf.Rwr

open NetBSD.Netinet List UInt16

def npfFixup16Cksum (cksum odatum ndatum : UInt16) : UInt16 :=
  let sum : UInt32 := ~~~cksum.toUInt32 &&& 0xffff
  let sum := sum + ((~~~odatum.toUInt32 &&& 0xffff) + ndatum.toUInt32)
  let sum := (sum >>> 16) + (sum &&& 0xffff)
  let sum := sum + (sum >>> 16)
  (~~~sum &&& 0xffff).toUInt16

def npfFixup32Cksum (cksum : UInt16) (odatum ndatum : UInt32) : UInt16 :=
  let sum : UInt32 := ~~~cksum.toUInt32 &&& 0xffff
  let sum := sum + ((~~~odatum &&& 0xffff) + (ndatum &&& 0xffff))
  let sum := sum + ((~~~odatum >>> 16) + (ndatum >>> 16))
  let sum := (sum >>> 16) + (sum &&& 0xffff)
  let sum := sum + (sum >>> 16)
  (~~~sum &&& 0xffff).toUInt16

/-- The bytes of a string, read by position. -/
def bytesOf (bytes : List UInt8) (i : Nat) : UInt8 := bytes.getD i 0

def addrCksumLoop (e : Endian) (oaddr naddr : Nat → UInt8) : (words pos : Nat) → UInt16 → UInt16
  | 0, _, cksum => cksum
  | words + 1, pos, cksum =>
    addrCksumLoop e oaddr naddr words (pos + 4)
      (npfFixup32Cksum cksum (UInt32.ofNat (load32 e oaddr pos))
        (UInt32.ofNat (load32 e naddr pos)))

def npfAddrCksum (e : Endian) (cksum : UInt16) (sz : Nat) (oaddr naddr : List UInt8) : UInt16 :=
  addrCksumLoop e (bytesOf oaddr) (bytesOf naddr) (sz / 4) 0 cksum

def ipprotoIcmp : Nat := 1
def ipprotoTcp : Nat := 6
def ipprotoUdp : Nat := 17
def ipprotoIcmpv6 : Nat := 58

def enotsup : Nat := 86

/-- `NPF_SRC` and `NPF_DST`. -/
inductive Which where
  | src
  | dst
deriving DecidableEq, Repr

/-- A packet in the cache: whether it is IPv4, `npc_proto`, the `npc_hlen` bytes of the IP header
and the bytes behind them. -/
structure Packet where
  ip4 : Bool
  npc_proto : Nat
  header : List UInt8
  segment : List UInt8
deriving DecidableEq, Repr

def Packet.npc_alen (p : Packet) : Nat := if p.ip4 then 4 else 16

def Packet.ipsOffset (p : Packet) : Which → Nat
  | .src => if p.ip4 then 12 else 8
  | .dst => if p.ip4 then 16 else 24

def Packet.npc_ips (p : Packet) (which : Which) : List UInt8 :=
  (p.header.drop (p.ipsOffset which)).take p.npc_alen

def portOffset : Which → Nat
  | .src => 0
  | .dst => 2

/-- Bytes written over those from an offset on. -/
def store (bytes : List UInt8) (off : Nat) (new : List UInt8) : List UInt8 :=
  bytes.take off ++ (new ++ bytes.drop (off + new.length))

def bytes16 (e : Endian) (v : UInt16) : List UInt8 :=
  match e with
  | .little => [v.toUInt8, (v >>> 8).toUInt8]
  | .big => [(v >>> 8).toUInt8, v.toUInt8]

def loadWord (e : Endian) (bytes : List UInt8) (off : Nat) : UInt16 :=
  UInt16.ofNat (load16 e (bytesOf bytes) off)

/-- `offsetof(struct ip, ip_sum)`, `offsetof(struct tcphdr, th_sum)` and
`offsetof(struct udphdr, uh_sum)`. -/
def ipSumOffset : Nat := 10
def thSumOffset : Nat := 16
def uhSumOffset : Nat := 6

section Rewrite

variable (e : Endian)

/-- The IPv4 checksum after the address has changed. -/
def rwrIpSum (p : Packet) (which : Which) (addr : List UInt8) : Packet :=
  if p.ip4 then
    { p with
      header := store p.header ipSumOffset (bytes16 e
          (npfAddrCksum e (loadWord e p.header ipSumOffset) p.npc_alen (p.npc_ips which) addr)) }
  else p

/-- The transport checksum at an offset after the address and the port have changed. -/
def rwrL4Sum (p : Packet) (which : Which) (oaddr addr : List UInt8) (port : UInt16)
    (off : Nat) : Packet :=
  let oport := loadWord e p.segment (portOffset which)
  let cksum := npfAddrCksum e (loadWord e p.segment off) p.npc_alen oaddr addr
  let cksum := if port ≠ 0 then npfFixup16Cksum cksum oport port else cksum
  { p with segment := store p.segment off (bytes16 e cksum) }

def npfRwrcksum (p : Packet) (which : Which) (addr : List UInt8) (port : UInt16) : Option Packet :=
  let oaddr := p.npc_ips which
  let p := rwrIpSum e p which addr
  if p.npc_proto = ipprotoIcmp ∨ p.npc_proto = ipprotoIcmpv6 then some p
  else if p.npc_proto = ipprotoTcp then some (rwrL4Sum e p which oaddr addr port thSumOffset)
  else if p.npc_proto = ipprotoUdp then
    if loadWord e p.segment uhSumOffset = 0 then some p
    else some (rwrL4Sum e p which oaddr addr port uhSumOffset)
  else none

def npfRwrip (p : Packet) (which : Which) (addr : List UInt8) : Packet :=
  { p with header := store p.header (p.ipsOffset which) (addr.take p.npc_alen) }

def npfRwrport (p : Packet) (which : Which) (port : UInt16) : Packet :=
  { p with segment := store p.segment (portOffset which) (bytes16 e port) }

/-- `npf_napt_rwr`: the value it returns and the packet. Its port is an `in_addr_t`, those of the
functions it calls an `in_port_t`. -/
def npfNaptRwr (p : Packet) (which : Which) (addr : List UInt8) (port : UInt32) :
    Option (Nat × Packet) :=
  (npfRwrcksum e p which addr port.toUInt16).map fun p =>
    let p := npfRwrip p which addr
    if port = 0 then (0, p)
    else if p.npc_proto = ipprotoTcp ∨ p.npc_proto = ipprotoUdp then
      (0, npfRwrport e p which port.toUInt16)
    else if p.npc_proto = ipprotoIcmp ∨ p.npc_proto = ipprotoIcmpv6 then (0, p)
    else (enotsup, p)

end Rewrite

/-! ### What a checksum covers -/

/-- The pseudo-header of RFC 793 or of RFC 8200, in network byte order. -/
def Packet.pseudoHeader (p : Packet) : List UInt8 :=
  let len := p.segment.length
  let byte (v : Nat) : UInt8 := UInt8.ofNat v
  p.npc_ips .src ++ (p.npc_ips .dst ++
    (if p.ip4 then [0, byte p.npc_proto, byte (len / 256), byte len]
    else [byte (len / 16777216), byte (len / 65536), byte (len / 256), byte len,
      0, 0, 0, byte p.npc_proto]))

/-!
### The sums under translation

The sums under address and port translation. One incremental update computes
the end-around representative of `~cksum + ~old + new`; over all words of an address
and a port the new checksum plus the new words is congruent to the old checksum plus
the old words, which is what the bytes written change the packet's sum by.
-/

open NetBSD.Arith

/-! ### Sums of byte strings -/

/-- The ones'-complement sum of the words of a byte string is 0xffff. -/
def Verifies (e : Endian) (bytes : List UInt8) : Prop := Same (Netinet.wordSum e bytes) 0xffff

section Bytes

variable {e : Endian} {bytes pre back new : List UInt8} {off off' n : Nat}

theorem wordSum_append_even (even : pre.length % 2 = 0) :
    Same (Netinet.wordSum e (pre ++ back)) (Netinet.wordSum e pre + Netinet.wordSum e back) := by
  have split := wordSum_append e pre back
  have sameLane : oddLen pre.length = false := by simp [oddLen, even]
  rwa [sameLane] at split

theorem wordSum_little (bytes : List UInt8) :
    Same (Netinet.wordSum .little bytes) (256 * Netinet.wordSum .big bytes) := by
  induction bytes using wordsOf.induct with
  | case1 => exact SameSum.refl _ _
  | case2 b0 =>
    have shape : 256 * half .big b0 0 = 65536 * half .little b0 0 := by
      simp [half]
      omega
    rw [wordSum_singleton, wordSum_singleton, shape]
    exact (same_65536 _).symm
  | case3 b0 b1 tl ih =>
    have shape : 256 * half .big b0 b1 = 65536 * b0.toNat + 256 * b1.toNat := by
      simp only [half]
      omega
    rw [wordSum_cons_cons, wordSum_cons_cons, mul_add, shape]
    exact (((same_65536 _).symm).add (SameSum.refl _ _)).add ih

theorem verifies_little_iff : Verifies .little bytes ↔ Verifies .big bytes := by
  have scaled := wordSum_little bytes
  constructor
  · intro verifies
    have twice := (scaled.symm.trans verifies).mul 256
    rw [← mul_assoc] at twice
    exact (same_65536 _).symm.trans (twice.trans ⟨by decide, by decide⟩)
  · intro verifies
    exact scaled.trans ((verifies.mul 256).trans ⟨by decide, by decide⟩)

theorem verifies_iff (e e' : Endian) : Verifies e bytes ↔ Verifies e' bytes := by
  cases e <;> cases e'
  · exact Iff.rfl
  · exact verifies_little_iff
  · exact verifies_little_iff.symm
  · exact Iff.rfl

theorem wordSum_ne_zero {b : UInt8} (isMem : b ∈ bytes) (hsome : b ≠ 0) :
    Netinet.wordSum e bytes ≠ 0 := by
  obtain ⟨pre, back, rfl⟩ := append_of_mem isMem
  have pos : 0 < b.toNat := pos_of_ne_zero fun zero =>
    hsome (UInt8.toNat_inj.mp zero)
  have tail : Netinet.wordSum e (b :: back) ≠ 0 := by
    intro zero
    have parts := (wordSum_cons e b back).2.mp zero
    have fst : half e b 0 = 0 := by omega
    cases e <;> simp [half] at fst <;> omega
  intro zero
  have parts := (wordSum_append e pre (b :: back)).2.mp zero
  have lanes : lane (oddLen pre.length) (Netinet.wordSum e (b :: back)) = 0 := by omega
  unfold lane at lanes
  split at lanes <;> omega

/-- The bytes of a string from an offset on. -/
def part (bytes : List UInt8) (off n : Nat) : List UInt8 := (bytes.drop off).take n

theorem part_length (ins : off + n ≤ bytes.length) : (part bytes off n).length = n := by
  unfold part
  rw [length_take, length_drop]
  omega

section

variable (ins : off + new.length ≤ bytes.length)

include ins

theorem store_length : (store bytes off new).length = bytes.length := by
  unfold store
  rw [length_append, length_append, length_take, length_drop]
  omega

theorem part_store_same : part (store bytes off new) off new.length = new := by
  unfold part store
  have len : (bytes.take off).length = off := length_take_of_le (by omega)
  rw [drop_append_of_le_length (le_of_eq len.symm), drop_of_length_le
    (le_of_eq len), nil_append, take_left]

theorem getElem?_store_of_lt {i : Nat} (prev : i < off) :
    (store bytes off new)[i]? = bytes[i]? := by
  have len : (bytes.take off).length = off := length_take_of_le (by omega)
  unfold store
  rw [getElem?_append_left (by omega), getElem?_take_of_lt prev]

theorem getElem?_store_of_ge {i : Nat} (tail : off + new.length ≤ i) :
    (store bytes off new)[i]? = bytes[i]? := by
  have len : (bytes.take off).length = off := length_take_of_le (by omega)
  unfold store
  rw [getElem?_append_right (by omega), getElem?_append_right (by omega),
    getElem?_drop]
  congr 1
  omega

theorem part_store_other (apart : off' + n ≤ off ∨ off + new.length ≤ off') :
    part (store bytes off new) off' n = part bytes off' n := by
  unfold part
  apply ext_getElem?
  intro i
  by_cases below : i < n
  · rw [getElem?_take_of_lt below, getElem?_take_of_lt below, getElem?_drop,
      getElem?_drop]
    cases apart with
    | inl prev => exact getElem?_store_of_lt ins (by omega)
    | inr tail => exact getElem?_store_of_ge ins (by omega)
  · rw [getElem?_take_eq_none (by omega), getElem?_take_eq_none (by omega)]

theorem wordSum_store (evenOff : off % 2 = 0) (evenLength : new.length % 2 = 0) :
    Netinet.wordSum e (store bytes off new) + Netinet.wordSum e (part bytes off new.length) ≡
      Netinet.wordSum e bytes + Netinet.wordSum e new [MOD 65535] := by
  have whole : bytes = bytes.take off ++ (part bytes off new.length ++
      bytes.drop (off + new.length)) := by
    rw [part, ← drop_drop, take_append_drop, take_append_drop]
  have evenFront : (bytes.take off).length % 2 = 0 := by
    rw [length_take_of_le (by omega), evenOff]
  have evenPart : (part bytes off new.length).length % 2 = 0 := by
    rw [part_length ins, evenLength]
  have kept := (wordSum_append_even evenFront).1.trans
    ((@wordSum_append_even e new (bytes.drop (off + new.length)) evenLength).1.add_left
      (Netinet.wordSum e (bytes.take off)))
  have old := (wordSum_append_even evenFront).1.trans
    ((@wordSum_append_even e _ (bytes.drop (off + new.length)) evenPart).1.add_left
      (Netinet.wordSum e (bytes.take off)))
  rw [← whole] at old
  change Netinet.wordSum e (store bytes off new) ≡ _ [MOD 65535] at kept
  unfold Nat.ModEq at kept old ⊢
  omega

end

end Bytes

/-! ### Incremental updates -/

theorem foldTwice {sum : Nat} (sml : sum ≤ 5 * 65535) :
    (sum / 65536 + sum % 65536 + (sum / 65536 + sum % 65536) / 65536) % 65536 =
      endAround 65535 sum := by
  have unit : 65536 ≡ 1 [MOD 65535] := by decide
  have once := SameSum.fold unit (by decide) sum
  have twice := SameSum.fold unit (by decide) (sum / 65536 + sum % 65536)
  apply SameSum.eq_endAround (by decide) _ (by omega)
  refine SameSum.trans (SameSum.of_eq ?_) (twice.trans once)
  omega

theorem toNat_and_ffff (v : UInt32) : (v &&& 0xffff).toNat = v.toNat % 65536 := by
  exact Nat.and_two_pow_sub_one_eq_mod v.toNat 16

theorem toNat_shift16 (v : UInt32) : (v >>> 16).toNat = v.toNat / 65536 := by
  exact Nat.shiftRight_eq_div_pow v.toNat 16

theorem toNat_complement (v : UInt32) : (~~~v).toNat = 2 ^ 32 - 1 - v.toNat := UInt32.toNat_not v

theorem toNat_finish {sum : UInt32} (sml : sum.toNat ≤ 5 * 65535) :
    (~~~((sum >>> 16) + (sum &&& (0xffff : UInt32)) +
        ((sum >>> 16) + (sum &&& (0xffff : UInt32))) >>> 16) &&&
      (0xffff : UInt32)).toUInt16.toNat = 65535 - endAround 65535 sum.toNat := by
  have folded : ((sum >>> 16) + (sum &&& 0xffff)).toNat =
      sum.toNat / 65536 + sum.toNat % 65536 := by
    rw [UInt32.toNat_add, toNat_shift16, toNat_and_ffff]
    omega
  rw [← foldTwice sml, UInt32.toNat_toUInt16, toNat_and_ffff, toNat_complement, UInt32.toNat_add,
    toNat_shift16, folded]
  omega

theorem toNat_npfFixup16Cksum (cksum odatum ndatum : UInt16) :
    (npfFixup16Cksum cksum odatum ndatum).toNat = 65535 - endAround 65535
      ((65535 - cksum.toNat) + ((65535 - odatum.toNat) + ndatum.toNat)) := by
  have boundC := cksum.toNat_lt
  have boundO := odatum.toNat_lt
  have boundN := ndatum.toNat_lt
  have isSum : ((~~~cksum.toUInt32 &&& (0xffff : UInt32)) +
      ((~~~odatum.toUInt32 &&& (0xffff : UInt32)) + ndatum.toUInt32)).toNat =
      (65535 - cksum.toNat) + ((65535 - odatum.toNat) + ndatum.toNat) := by
    rw [UInt32.toNat_add, UInt32.toNat_add, toNat_and_ffff, toNat_and_ffff, toNat_complement,
      toNat_complement, toNat_toUInt32, toNat_toUInt32, toNat_toUInt32]
    omega
  rw [← isSum]
  exact toNat_finish (by rw [isSum]; omega)

theorem toNat_npfFixup32Cksum (cksum : UInt16) (odatum ndatum : UInt32) :
    (npfFixup32Cksum cksum odatum ndatum).toNat = 65535 - endAround 65535 ((65535 - cksum.toNat) +
        ((65535 - odatum.toNat % 65536) + ndatum.toNat % 65536) +
        ((65535 - odatum.toNat / 65536) + ndatum.toNat / 65536)) := by
  have boundC := cksum.toNat_lt
  have boundO := odatum.toNat_lt
  have boundN := ndatum.toNat_lt
  have isSum : ((~~~cksum.toUInt32 &&& (0xffff : UInt32)) +
      ((~~~odatum &&& (0xffff : UInt32)) + (ndatum &&& (0xffff : UInt32))) +
      ((~~~odatum >>> 16) + (ndatum >>> 16))).toNat = (65535 - cksum.toNat) +
        ((65535 - odatum.toNat % 65536) + ndatum.toNat % 65536) +
        ((65535 - odatum.toNat / 65536) + ndatum.toNat / 65536) := by
    rw [UInt32.toNat_add, UInt32.toNat_add, UInt32.toNat_add, UInt32.toNat_add, toNat_and_ffff,
      toNat_and_ffff, toNat_and_ffff, toNat_shift16, toNat_shift16, toNat_complement,
      toNat_complement, toNat_toUInt32]
    omega
  rw [← isSum]
  exact toNat_finish (by rw [isSum]; omega)

/-- What an update does to a sum: the new checksum with the new word is the old one with the old
word, and it is 0xffff only when nothing is left to add. -/
structure Updates (cksum result old new : Nat) (allOnes : Prop) : Prop where
  balance : result + new ≡ cksum + old [MOD 65535]
  ones : result = 65535 ↔ cksum = 65535 ∧ allOnes

theorem endAround_zero_iff (sum : Nat) : endAround 65535 sum = 0 ↔ sum = 0 :=
  (endAround_sameSum 65535 sum).2

theorem npfFixup16Cksum_updates (cksum odatum ndatum : UInt16) :
    Updates cksum.toNat (npfFixup16Cksum cksum odatum ndatum).toNat odatum.toNat ndatum.toNat
      (odatum.toNat = 65535 ∧ ndatum.toNat = 0) := by
  have boundC := cksum.toNat_lt
  have boundO := odatum.toNat_lt
  have isNat := toNat_npfFixup16Cksum cksum odatum ndatum
  generalize isTotal : (65535 - cksum.toNat) + ((65535 - odatum.toNat) + ndatum.toNat) = total
    at isNat
  have same := (endAround_sameSum 65535 total).1
  have upTo := @endAround_le 65535 (by decide) total
  have zero := endAround_zero_iff total
  constructor
  · unfold Nat.ModEq at same ⊢
    omega
  · omega

theorem load32_halves (e : Endian) (d : Nat → UInt8) (pos : Nat) : load32 e d pos < 2 ^ 32 ∧
    load32 e d pos % 65536 + load32 e d pos / 65536 = load16 e d pos + load16 e d (pos + 2) ∧
    (load32 e d pos % 65536 = load16 e d pos ∧ load32 e d pos / 65536 = load16 e d (pos + 2) ∨
      load32 e d pos % 65536 = load16 e d (pos + 2) ∧ load32 e d pos / 65536 = load16 e d pos) := by
  have fst : load16 e d pos ≤ 65535 := half_le e _ _
  have snd : load16 e d (pos + 2) ≤ 65535 := half_le e _ _
  cases e <;> simp only [load32] <;> omega

theorem npfFixup32Cksum_updates (e : Endian) (cksum : UInt16) (oaddr naddr : Nat → UInt8)
    (pos : Nat) : Updates cksum.toNat (npfFixup32Cksum cksum (UInt32.ofNat (load32 e oaddr pos))
        (UInt32.ofNat (load32 e naddr pos))).toNat
      (load16 e oaddr pos + load16 e oaddr (pos + 2)) (load16 e naddr pos + load16 e naddr (pos + 2))
      ((load16 e oaddr pos = 65535 ∧ load16 e oaddr (pos + 2) = 65535) ∧
        load16 e naddr pos = 0 ∧ load16 e naddr (pos + 2) = 0) := by
  have boundC := cksum.toNat_lt
  obtain ⟨oldSmall, oldSum, oldHalves⟩ := load32_halves e oaddr pos
  obtain ⟨newSmall, newSum, newHalves⟩ := load32_halves e naddr pos
  have fst : load16 e oaddr pos ≤ 65535 := half_le e _ _
  have snd : load16 e oaddr (pos + 2) ≤ 65535 := half_le e _ _
  have isNat := toNat_npfFixup32Cksum cksum (UInt32.ofNat (load32 e oaddr pos))
    (UInt32.ofNat (load32 e naddr pos))
  rw [UInt32.toNat_ofNat_of_lt' oldSmall, UInt32.toNat_ofNat_of_lt' newSmall] at isNat
  generalize load32 e oaddr pos % 65536 = oldLow at *
  generalize load32 e oaddr pos / 65536 = oldHigh at *
  generalize load32 e naddr pos % 65536 = newLow at *
  generalize load32 e naddr pos / 65536 = newHigh at *
  generalize isTotal : (65535 - cksum.toNat) + ((65535 - oldLow) + newLow) +
    ((65535 - oldHigh) + newHigh) = total at isNat
  have same := (endAround_sameSum 65535 total).1
  have upTo := @endAround_le 65535 (by decide) total
  have zero := endAround_zero_iff total
  constructor
  · unfold Nat.ModEq at same ⊢
    omega
  · omega

/-! ### Words of a list -/

section Words

variable {e : Endian} {bytes : List UInt8} {off n : Nat}

theorem slice_bytesOf (ins : off + n ≤ bytes.length) :
    slice (bytesOf bytes) off n = part bytes off n := by
  induction n generalizing off with
  | zero => rw [slice, part, take_zero]
  | succ n ih =>
    have below : off < bytes.length := by omega
    have isByte : bytesOf bytes off = bytes[off] := by
      rw [bytesOf, getD_eq_getElem?_getD, getElem?_eq_getElem below]
      rfl
    rw [slice, ih (by omega), part, part, drop_eq_getElem_cons below,
      take_succ_cons, isByte]

variable {d : Nat → UInt8}

theorem load16_eq_max_iff {pos : Nat} :
    load16 e d pos = 65535 ↔ d pos = 255 ∧ d (pos + 1) = 255 := by
  have fst := (d pos).toNat_lt
  have snd := (d (pos + 1)).toNat_lt
  rw [← UInt8.toNat_inj, ← UInt8.toNat_inj]
  have isMax : (255 : UInt8).toNat = 255 := rfl
  cases e <;> simp only [load16, half] <;> omega

theorem load16_eq_zero_iff {pos : Nat} : load16 e d pos = 0 ↔ d pos = 0 ∧ d (pos + 1) = 0 := by
  rw [← UInt8.toNat_inj, ← UInt8.toNat_inj]
  have zero : (0 : UInt8).toNat = 0 := rfl
  cases e <;> simp only [load16, half] <;> omega

theorem wordSum_slice_four (d : Nat → UInt8) (pos n : Nat) :
    Netinet.wordSum e (slice d pos (4 + n)) ≡
      load16 e d pos + load16 e d (pos + 2) + Netinet.wordSum e (slice d (pos + 4) n) [MOD 65535] := by
  have split := (wordSum_slice_even e d pos (n := 4) (by decide) n).1
  have halves := (wordSum_slice_even e d pos (n := 2) (by decide) 2).1
  exact split.trans (halves.add_right _)

theorem forall_four {v : UInt8} {pos : Nat} : (∀ i < 4 * (n + 1), d (pos + i) = v) ↔
      ((d pos = v ∧ d (pos + 1) = v) ∧ d (pos + 2) = v ∧ d (pos + 2 + 1) = v) ∧
        ∀ i < 4 * n, d (pos + 4 + i) = v := by
  constructor
  · intro all
    refine ⟨⟨⟨all 0 (by omega), all 1 (by omega)⟩, all 2 (by omega), all 3 (by omega)⟩, ?_⟩
    intro i below
    have here := all (4 + i) (by omega)
    rwa [← add_assoc] at here
  rintro ⟨⟨⟨fst, snd⟩, third, fourth⟩, tl⟩ i below
  by_cases sml : i < 4
  · have cases : i = 0 ∨ i = 1 ∨ i = 2 ∨ i = 3 := by omega
    rcases cases with rfl | rfl | rfl | rfl
    · exact fst
    · exact snd
    · exact third
    · exact fourth
  · have later := tl (i - 4) (by omega)
    have plc : pos + 4 + (i - 4) = pos + i := by omega
    rwa [plc] at later

theorem addrCksumLoop_updates (oaddr naddr : Nat → UInt8) (words pos : Nat) (cksum : UInt16) :
    Updates cksum.toNat (addrCksumLoop e oaddr naddr words pos cksum).toNat
      (Netinet.wordSum e (slice oaddr pos (4 * words))) (Netinet.wordSum e (slice naddr pos (4 * words)))
      ((∀ i < 4 * words, oaddr (pos + i) = 255) ∧ ∀ i < 4 * words, naddr (pos + i) = 0) := by
  induction words generalizing pos cksum with
  | zero => exact ⟨Nat.ModEq.refl _, ⟨fun isMax => ⟨isMax, nofun, nofun⟩, fun both => both.1⟩⟩
  | succ words ih =>
    obtain ⟨balance, ones⟩ := npfFixup32Cksum_updates e cksum oaddr naddr pos
    obtain ⟨balance', ones'⟩ := ih (pos + 4)
      (npfFixup32Cksum cksum (UInt32.ofNat (load32 e oaddr pos))
        (UInt32.ofNat (load32 e naddr pos)))
    have old := wordSum_slice_four (e := e) oaddr pos (4 * words)
    have new := wordSum_slice_four (e := e) naddr pos (4 * words)
    have len : 4 * (words + 1) = 4 + 4 * words := by omega
    rw [addrCksumLoop]
    constructor
    · rw [len]
      unfold Nat.ModEq at *
      omega
    · rw [ones', ones, forall_four, forall_four, load16_eq_max_iff, load16_eq_max_iff,
        load16_eq_zero_iff, load16_eq_zero_iff]
      tauto

theorem forall_bytes {v : UInt8} (len : bytes.length = n) :
    (∀ i < n, bytesOf bytes (0 + i) = v) ↔ ∀ b ∈ bytes, b = v := by
  subst len
  rw [forall_mem_iff_forall_getElem]
  refine forall₂_congr fun i below => ?_
  rw [zero_add, bytesOf, getD_eq_getElem?_getD, getElem?_eq_getElem below]
  rfl

theorem npfAddrCksum_updates {oaddr naddr : List UInt8} {words : Nat} (cksum : UInt16)
    (isOld : oaddr.length = 4 * words) (isNew : 4 * words ≤ naddr.length) :
    Updates cksum.toNat (npfAddrCksum e cksum (4 * words) oaddr naddr).toNat
      (Netinet.wordSum e oaddr) (Netinet.wordSum e (naddr.take (4 * words)))
      ((∀ b ∈ oaddr, b = 255) ∧ ∀ b ∈ naddr.take (4 * words), b = 0) := by
  have updates := addrCksumLoop_updates (e := e) (bytesOf oaddr) (bytesOf naddr) words 0 cksum
  have isQuarter : 4 * words / 4 = words := Nat.mul_div_cancel_left words (by decide)
  have isOldSlice : slice (bytesOf oaddr) 0 (4 * words) = oaddr := by
    rw [slice_bytesOf (by omega), part, drop_zero, take_of_length_le (by omega)]
  have isNewSlice : slice (bytesOf naddr) 0 (4 * words) = naddr.take (4 * words) := by
    rw [slice_bytesOf (by omega), part, drop_zero]
  have newBytes : (∀ i < 4 * words, bytesOf naddr (0 + i) = 0) ↔
      ∀ b ∈ naddr.take (4 * words), b = 0 := by
    rw [← forall_bytes (n := 4 * words) (by rw [length_take_of_le isNew])]
    refine forall₂_congr fun i below => ?_
    rw [zero_add, bytesOf, bytesOf, getD_eq_getElem?_getD, getD_eq_getElem?_getD,
      getElem?_take_of_lt below]
  rw [npfAddrCksum, isQuarter]
  rw [isOldSlice, isNewSlice, forall_bytes isOld, newBytes] at updates
  exact updates

theorem bytes16_length (v : UInt16) : (bytes16 e v).length = 2 := by
  cases e <;> rfl

theorem wordSum_bytes16 (v : UInt16) : Netinet.wordSum e (bytes16 e v) = v.toNat := by
  have bound := v.toNat_lt
  have low : v.toUInt8.toNat = v.toNat % 256 := toNat_toUInt8 v
  have high : (v >>> 8).toUInt8.toNat = v.toNat / 256 := by
    rw [toNat_toUInt8, UInt16.toNat_shiftRight]
    have shift : v.toNat >>> ((8 : UInt16).toNat % 16) = v.toNat / 256 :=
      Nat.shiftRight_eq_div_pow v.toNat 8
    omega
  cases e <;> simp only [bytes16, wordSum_cons_cons, wordSum_nil, half] <;> omega

theorem toNat_loadWord (ins : off + 2 ≤ bytes.length) :
    (loadWord e bytes off).toNat = Netinet.wordSum e (part bytes off 2) := by
  have sml : load16 e (bytesOf bytes) off < 65536 := Nat.lt_succ_of_le (half_le e _ _)
  rw [loadWord, toNat_ofNat_of_lt' sml, ← slice_bytesOf ins, wordSum_slice_two]

end Words

end NetBSD.Net.Npf.Rwr
