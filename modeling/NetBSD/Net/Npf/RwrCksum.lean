import NetBSD.Net.Npf.Rwr

/-!
Owns the checksums of a translated packet. The header and the pseudo-header change
by the words of one address, the segment by those of one port, and each checksum
field by what its updates have computed.
-/

namespace NetBSD.Net.Npf.Rwr

open NetBSD.Netinet NetBSD.Arith List Packet

/-- A packet whose headers the cache has found to be there. -/
structure Cached (p : Packet) : Prop where
  header : (if p.ip4 then 20 else 40) ≤ p.header.length
  version : bytesOf p.header 0 / 16 = if p.ip4 then 4 else 6
  tcp : p.npc_proto = ipprotoTcp → 20 ≤ p.segment.length
  udp : p.npc_proto = ipprotoUdp → 8 ≤ p.segment.length

/-- The IP header after the translation. -/
def naptHeader (e : Endian) (p : Packet) (which : Which) (addr : List UInt8) : List UInt8 :=
  store (rwrIpSum e p which addr).header (p.ipsOffset which) (addr.take p.npc_alen)

section Header

variable {e : Endian} {p p' : Packet} {which other : Which} {addr : List UInt8}

theorem npc_alen_eq (p : Packet) : ∃ words, p.npc_alen = 4 * words ∧ p.npc_alen ≤ 16 ∧
    0 < words := by
  unfold npc_alen
  cases p.ip4 with
  | true => exact ⟨1, rfl, by decide, by decide⟩
  | false => exact ⟨4, rfl, by decide, by decide⟩

theorem ipsOffset_inside (cached : Cached p) (which : Which) :
    p.ipsOffset which + p.npc_alen ≤ p.header.length ∧ p.ipsOffset which % 2 = 0 ∧
      8 ≤ p.ipsOffset which ∧ (p.ip4 = true → 12 ≤ p.ipsOffset which) := by
  have header := cached.header
  unfold ipsOffset npc_alen
  cases isIp4 : p.ip4 <;> rw [isIp4] at header <;> cases which <;> simp at header ⊢ <;> omega

theorem ipsOffset_apart (differ : other ≠ which) :
    p.ipsOffset other + p.npc_alen ≤ p.ipsOffset which ∨
      p.ipsOffset which + p.npc_alen ≤ p.ipsOffset other := by
  unfold ipsOffset npc_alen
  cases p.ip4 <;> cases which <;> cases other <;> simp at differ ⊢

theorem npc_ips_length (cached : Cached p) (which : Which) :
    (p.npc_ips which).length = p.npc_alen :=
  part_length (ipsOffset_inside cached which).1

theorem rwrIpSum_part (cached : Cached p) {off n : Nat} (apart : p.ip4 = true → 12 ≤ off) :
    part (rwrIpSum e p which addr).header off n = part p.header off n := by
  unfold rwrIpSum
  cases isIp4 : p.ip4 with
  | false => rw [if_neg Bool.false_ne_true]
  | true =>
    have header := cached.header
    rw [isIp4, if_pos rfl] at header
    refine part_store_other ?_ (.inr ?_)
    · rw [bytes16_length, ipSumOffset]
      omega
    · rw [bytes16_length]
      exact apart isIp4

theorem rwrIpSum_length (cached : Cached p) :
    (rwrIpSum e p which addr).header.length = p.header.length := by
  unfold rwrIpSum
  cases isIp4 : p.ip4 with
  | false => rw [if_neg Bool.false_ne_true]
  | true =>
    have header := cached.header
    rw [isIp4, if_pos rfl] at header
    refine store_length ?_
    rw [bytes16_length, ipSumOffset]
    omega

variable (cached : Cached p) (isAddr : addr.length = 16)

include isAddr in
theorem take_length : (addr.take p.npc_alen).length = p.npc_alen := by
  obtain ⟨_, _, sml, _⟩ := npc_alen_eq p
  exact length_take_of_le (by omega)

include cached isAddr

theorem naptHeader_which : part (naptHeader e p which addr) (p.ipsOffset which) p.npc_alen =
    addr.take p.npc_alen := by
  have len := take_length isAddr (p := p)
  have ins := (ipsOffset_inside cached which).1
  have kept := @part_store_same (rwrIpSum e p which addr).header (addr.take p.npc_alen)
    (p.ipsOffset which)
    (by rw [rwrIpSum_length cached, len]; exact ins)
  rwa [len] at kept

theorem naptHeader_other (differ : other ≠ which) :
    part (naptHeader e p which addr) (p.ipsOffset other) p.npc_alen = p.npc_ips other := by
  have len := take_length isAddr (p := p)
  have ins := (ipsOffset_inside cached which).1
  rw [naptHeader, part_store_other (by rw [rwrIpSum_length cached, len]; exact ins)
    (by rw [len]; exact ipsOffset_apart differ),
    rwrIpSum_part cached (ipsOffset_inside cached other).2.2.2]
  rfl

theorem wordSum_naptHeader (isIp4 : p.ip4 = true) :
    Netinet.wordSum e (naptHeader e p which addr) ≡ Netinet.wordSum e p.header [MOD 65535] := by
  have len := take_length isAddr (p := p)
  obtain ⟨ins, evenOff, _, behind⟩ := ipsOffset_inside cached which
  obtain ⟨words, isWords, sml, _⟩ := npc_alen_eq p
  have updates := (@npfAddrCksum_updates e (p.npc_ips which) addr words
    (loadWord e p.header ipSumOffset) (isWords ▸ npc_ips_length cached which) (by omega)).balance
  rw [← isWords, toNat_loadWord (by rw [ipSumOffset]; omega)] at updates
  have isSum : (rwrIpSum e p which addr).header = store p.header ipSumOffset (bytes16 e
        (npfAddrCksum e (loadWord e p.header ipSumOffset) p.npc_alen (p.npc_ips which) addr)) := by
    rw [rwrIpSum, if_pos isIp4]
  have fst := @wordSum_store e p.header (bytes16 e
      (npfAddrCksum e (loadWord e p.header ipSumOffset) p.npc_alen (p.npc_ips which) addr))
    ipSumOffset (by rw [bytes16_length, ipSumOffset]; omega) (by decide) (by rw [bytes16_length])
  have snd := @wordSum_store e (rwrIpSum e p which addr).header (addr.take p.npc_alen)
    (p.ipsOffset which)
    (by rw [rwrIpSum_length cached, len]; exact ins) evenOff (by rw [len]; omega)
  rw [len, rwrIpSum_part cached behind] at snd
  rw [wordSum_bytes16, bytes16_length, ← isSum] at fst
  change Netinet.wordSum e (naptHeader e p which addr) + Netinet.wordSum e (p.npc_ips which) ≡ _ [MOD 65535]
    at snd
  unfold Nat.ModEq at *
  omega

theorem naptHeader_length : (naptHeader e p which addr).length = p.header.length := by
  have ins := (ipsOffset_inside cached which).1
  rw [naptHeader, store_length (by rw [rwrIpSum_length cached, take_length isAddr]; exact ins),
    rwrIpSum_length cached]

theorem bytesOf_naptHeader : bytesOf (naptHeader e p which addr) 0 = bytesOf p.header 0 := by
  have len := take_length isAddr (p := p)
  obtain ⟨ins, _, behind, _⟩ := ipsOffset_inside cached which
  rw [bytesOf, bytesOf, getD_eq_getElem?_getD, getD_eq_getElem?_getD, naptHeader,
    getElem?_store_of_lt (by rw [rwrIpSum_length cached, len]; exact ins) (by omega)]
  unfold rwrIpSum
  cases isIp4 : p.ip4 with
  | false => rw [if_neg Bool.false_ne_true]
  | true =>
    have header := cached.header
    rw [isIp4, if_pos rfl] at header
    rw [if_pos rfl, getElem?_store_of_lt (by rw [bytes16_length, ipSumOffset]; omega) (by decide)]

theorem wordSum_naptHeader_ne_zero : Netinet.wordSum e (naptHeader e p which addr) ≠ 0 := by
  obtain ⟨ins, _, behind, _⟩ := ipsOffset_inside cached which
  have ver := cached.version
  have fst : bytesOf (naptHeader e p which addr) 0 ∈ naptHeader e p which addr := by
    have below : 0 < (naptHeader e p which addr).length := by
      rw [naptHeader_length cached isAddr]
      omega
    rw [bytesOf, getD_eq_getElem?_getD, getElem?_eq_getElem below]
    exact getElem_mem below
  refine wordSum_ne_zero fst fun zero => ?_
  rw [bytesOf_naptHeader cached isAddr] at zero
  rw [zero] at ver
  cases isIp4 : p.ip4 <;> rw [isIp4] at ver <;> exact absurd ver (by decide)

end Header

/-! ### The transport checksum -/

/-- What the transport checksum covers. -/
def Packet.covered (p : Packet) : List UInt8 := p.pseudoHeader ++ p.segment

section Segment

variable {e : Endian} {p : Packet} {which : Which} {addr segment : List UInt8} {port : UInt16}
  {off : Nat}

/-- The pseudo-header behind the addresses. -/
def Packet.pseudoTail (p : Packet) : List UInt8 :=
  let len := p.segment.length
  let byte (v : Nat) : UInt8 := UInt8.ofNat v
  if p.ip4 then [0, byte p.npc_proto, byte (len / 256), byte len]
  else [byte (len / 16777216), byte (len / 65536), byte (len / 256), byte len,
    0, 0, 0, byte p.npc_proto]

theorem pseudoHeader_eq (p : Packet) :
    p.pseudoHeader = p.npc_ips .src ++ (p.npc_ips .dst ++ p.pseudoTail) := rfl

theorem pseudoTail_even (p : Packet) : p.pseudoTail.length % 2 = 0 := by
  cases isIp4 : p.ip4 <;> simp [pseudoTail, isIp4]

theorem wordSum_covered (cached : Cached p) : Netinet.wordSum e p.covered ≡
    Netinet.wordSum e (p.npc_ips .src) + (Netinet.wordSum e (p.npc_ips .dst) +
      (Netinet.wordSum e p.pseudoTail + Netinet.wordSum e p.segment)) [MOD 65535] := by
  obtain ⟨words, isWords, _⟩ := npc_alen_eq p
  have src : (p.npc_ips .src).length % 2 = 0 := by
    rw [npc_ips_length cached]
    omega
  have dst : (p.npc_ips .dst).length % 2 = 0 := by
    rw [npc_ips_length cached]
    omega
  have tail := pseudoTail_even p
  rw [covered, pseudoHeader_eq, append_assoc, append_assoc]
  exact (wordSum_append_even src).1.trans (((wordSum_append_even dst).1.trans
    ((wordSum_append_even tail).1.add_left _)).add_left _)

/-- The packet with a new header and a new segment of the same length. -/
def translated (e : Endian) (p : Packet) (which : Which) (addr segment : List UInt8) : Packet :=
  { p with header := naptHeader e p which addr, segment := segment }

theorem Cached.translated (cached : Cached p) (isAddr : addr.length = 16)
    (eqLen : segment.length = p.segment.length) :
    Cached (translated e p which addr segment) where
  header := (naptHeader_length cached isAddr).symm ▸ cached.header
  version := (bytesOf_naptHeader cached isAddr).symm ▸ cached.version
  tcp := eqLen.symm ▸ cached.tcp
  udp := eqLen.symm ▸ cached.udp

theorem wordSum_covered_translated (cached : Cached p) (isAddr : addr.length = 16)
    (eqLen : segment.length = p.segment.length) :
    Netinet.wordSum e (translated e p which addr segment).covered + (Netinet.wordSum e (p.npc_ips which) +
      Netinet.wordSum e p.segment) ≡ Netinet.wordSum e p.covered +
      (Netinet.wordSum e (addr.take p.npc_alen) + Netinet.wordSum e segment) [MOD 65535] := by
  have tail : (translated e p which addr segment).pseudoTail = p.pseudoTail := by
    unfold pseudoTail translated
    rw [eqLen]
  have changed : (translated e p which addr segment).npc_ips which = addr.take p.npc_alen :=
    naptHeader_which cached isAddr
  have prev := @wordSum_covered e p cached
  have s' := @wordSum_covered e _ (@Cached.translated e p which addr segment cached isAddr
    eqLen)
  rw [tail] at s'
  change Netinet.wordSum e (translated e p which addr segment).covered ≡
    _ + (_ + (_ + Netinet.wordSum e segment)) [MOD 65535] at s'
  cases which with
  | src =>
    have kept : (translated e p .src addr segment).npc_ips .dst = p.npc_ips .dst :=
      @naptHeader_other e p .src .dst addr cached isAddr (by decide)
    rw [changed, kept] at s'
    unfold Nat.ModEq at *
    omega
  | dst =>
    have kept : (translated e p .dst addr segment).npc_ips .src = p.npc_ips .src :=
      @naptHeader_other e p .dst .src addr cached isAddr (by decide)
    rw [changed, kept] at s'
    unfold Nat.ModEq at *
    omega

theorem wordSum_covered_ne_zero (isProto : UInt8.ofNat p.npc_proto ≠ 0) :
    Netinet.wordSum e p.covered ≠ 0 := by
  refine wordSum_ne_zero (b := UInt8.ofNat p.npc_proto) ?_ isProto
  have inTail : UInt8.ofNat p.npc_proto ∈ p.pseudoTail := by
    unfold pseudoTail
    cases p.ip4 <;> simp
  exact mem_append_left _ (mem_append_right _ (mem_append_right _ inTail))

end Segment

section Port

variable {e : Endian} {p : Packet} {which : Which} {addr : List UInt8} {port : UInt16} {off : Nat}

/-- The checksum that `npf_rwrcksum` computes for the segment. -/
def naptCksum (e : Endian) (p : Packet) (which : Which) (addr : List UInt8) (port : UInt16)
    (off : Nat) : UInt16 :=
  let cksum := npfAddrCksum e (loadWord e p.segment off) p.npc_alen (p.npc_ips which) addr
  if port ≠ 0 then npfFixup16Cksum cksum (loadWord e p.segment (portOffset which)) port else cksum

/-- The segment after the translation: the checksum at an offset, and the port. -/
def naptSegment (e : Endian) (p : Packet) (which : Which) (addr : List UInt8) (port : UInt16)
    (off : Nat) : List UInt8 :=
  let segment := store p.segment off (bytes16 e (naptCksum e p which addr port off))
  if port = 0 then segment else store segment (portOffset which) (bytes16 e port)

/-- The words that the translation takes out of what the checksum covers. -/
def oldWords (e : Endian) (p : Packet) (which : Which) (port : UInt16) : Nat :=
  Netinet.wordSum e (p.npc_ips which) +
    if port = 0 then 0 else (loadWord e p.segment (portOffset which)).toNat

def newWords (e : Endian) (p : Packet) (addr : List UInt8) (port : UInt16) : Nat :=
  Netinet.wordSum e (addr.take p.npc_alen) + port.toNat

/-- An update whose words leave nothing to add. -/
def AllOnes (p : Packet) (which : Which) (addr : List UInt8) (port : UInt16) : Prop :=
  ((∀ b ∈ p.npc_ips which, b = 255) ∧ ∀ b ∈ addr.take p.npc_alen, b = 0) ∧ port = 0

theorem naptCksum_updates (cached : Cached p) (isAddr : addr.length = 16) :
    Updates (loadWord e p.segment off).toNat (naptCksum e p which addr port off).toNat
      (oldWords e p which port) (newWords e p addr port) (AllOnes p which addr port) := by
  obtain ⟨words, isWords, sml, _⟩ := npc_alen_eq p
  have ofAddr := @npfAddrCksum_updates e (p.npc_ips which) addr words (loadWord e p.segment off)
    (isWords ▸ npc_ips_length cached which) (by omega)
  rw [← isWords] at ofAddr
  by_cases noPort : port = 0
  · subst noPort
    exact ⟨ofAddr.balance, ofAddr.ones.trans (and_congr_right fun _ => (and_iff_left rfl).symm)⟩
  have hsome : port.toNat ≠ 0 := fun zero => noPort (UInt16.toNat_inj.mp zero)
  have ofPort := npfFixup16Cksum_updates
    (npfAddrCksum e (loadWord e p.segment off) p.npc_alen (p.npc_ips which) addr)
    (loadWord e p.segment (portOffset which)) port
  unfold naptCksum oldWords newWords AllOnes
  rw [if_pos noPort, if_neg noPort]
  constructor
  · have fst := ofAddr.balance
    have snd := ofPort.balance
    unfold Nat.ModEq at *
    omega
  · constructor
    · intro isMax
      exact absurd (ofPort.ones.mp isMax).2.2 hsome
    · intro both
      exact absurd both.2.2 noPort

variable (ins : off + 2 ≤ p.segment.length) (behind : 4 ≤ off)

include ins

theorem naptStore_length (word : UInt16) :
    (store p.segment off (bytes16 e word)).length = p.segment.length :=
  store_length (by rw [bytes16_length]; exact ins)

include behind

theorem portOffset_inside (which : Which) :
    portOffset which + 2 ≤ p.segment.length ∧ portOffset which % 2 = 0 ∧
      portOffset which + 2 ≤ off := by
  have upTo : portOffset which ≤ 2 := by cases which <;> decide
  have even : portOffset which % 2 = 0 := by cases which <;> rfl
  omega

theorem naptSegment_length : (naptSegment e p which addr port off).length = p.segment.length := by
  have portInside := (portOffset_inside ins behind which).1
  unfold naptSegment
  by_cases noPort : port = 0
  · rw [if_pos noPort]
    exact naptStore_length ins _
  · rw [if_neg noPort,
      store_length (by rw [naptStore_length ins, bytes16_length]; exact portInside)]
    exact naptStore_length ins _

theorem loadWord_naptSegment :
    loadWord e (naptSegment e p which addr port off) off = naptCksum e p which addr port off := by
  obtain ⟨portInside, _, prev⟩ := portOffset_inside ins behind which
  have len := @naptStore_length e p off ins (naptCksum e p which addr port off)
  have wrote : part (store p.segment off (bytes16 e (naptCksum e p which addr port off))) off 2 =
      bytes16 e (naptCksum e p which addr port off) := by
    have stored := @part_store_same p.segment (bytes16 e (naptCksum e p which addr port off)) off
      (by rw [bytes16_length]; exact ins)
    rwa [bytes16_length] at stored
  have kept : part (naptSegment e p which addr port off) off 2 =
      bytes16 e (naptCksum e p which addr port off) := by
    unfold naptSegment
    by_cases noPort : port = 0
    · rw [if_pos noPort, wrote]
    · rw [if_neg noPort, part_store_other (by rw [len, bytes16_length]; exact portInside)
        (.inr (by rw [bytes16_length]; exact prev)), wrote]
  apply UInt16.toNat_inj.mp
  rw [toNat_loadWord (by rw [naptSegment_length ins behind]; exact ins), kept,
    wordSum_bytes16]

variable (evenOff : off % 2 = 0)

include evenOff

theorem wordSum_naptSegment (cached : Cached p) (isAddr : addr.length = 16) :
    Netinet.wordSum e (naptSegment e p which addr port off) + Netinet.wordSum e (addr.take p.npc_alen) ≡
      Netinet.wordSum e p.segment + Netinet.wordSum e (p.npc_ips which) [MOD 65535] := by
  obtain ⟨portInside, portEven, prev⟩ := portOffset_inside ins behind which
  have len := @naptStore_length e p off ins (naptCksum e p which addr port off)
  have balance := (@naptCksum_updates e p which addr port off cached isAddr).balance
  have fst := @wordSum_store e p.segment (bytes16 e (naptCksum e p which addr port off)) off
  rw [bytes16_length, wordSum_bytes16, ← toNat_loadWord ins] at fst
  unfold oldWords newWords at balance
  by_cases noPort : port = 0
  · rw [naptSegment, if_pos noPort]
    have zero : port.toNat = 0 := by rw [noPort]; rfl
    rw [if_pos noPort] at balance
    unfold Nat.ModEq at *
    omega
  have snd := @wordSum_store e
    (store p.segment off (bytes16 e (naptCksum e p which addr port off))) (bytes16 e port)
    (portOffset which) (by rw [len, bytes16_length]; exact portInside) portEven
  rw [bytes16_length, wordSum_bytes16,
    part_store_other (by rw [bytes16_length]; exact ins) (.inl prev),
    ← toNat_loadWord portInside] at snd
  rw [naptSegment, if_neg noPort]
  rw [if_neg noPort] at balance
  unfold Nat.ModEq at *
  omega

theorem wordSum_covered_napt (cached : Cached p) (isAddr : addr.length = 16) :
    Netinet.wordSum e (translated e p which addr (naptSegment e p which addr port off)).covered ≡
      Netinet.wordSum e p.covered [MOD 65535] := by
  have whole := @wordSum_covered_translated e p which addr _ cached isAddr
    (@naptSegment_length e p which addr port off ins behind)
  have segment := @wordSum_naptSegment e p which addr port off ins behind evenOff cached isAddr
  unfold Nat.ModEq at *
  omega

end Port

/-!
### The checksums of a packet

What `npf_napt_rwr` does to the checksums of a whole packet: the IPv4 header and
a TCP or UDP segment that verified still verify, and the packets whose transport
checksum is lost are those of ICMPv6 whose address words change their sum and those
of UDP whose new checksum is the zero that means none.
-/

section Calls

variable {e : Endian} {p : Packet} {which : Which} {addr : List UInt8} {port : UInt16} {off : Nat}

theorem rwrIpSum_eq : rwrIpSum e p which addr =
    { p with header := (rwrIpSum e p which addr).header } := by
  unfold rwrIpSum
  cases isIp4 : p.ip4 with
  | false => rw [if_neg Bool.false_ne_true, ← isIp4]
  | true => rw [if_pos rfl, ← isIp4]

theorem toUInt32_eq_zero_iff : port.toUInt32 = 0 ↔ port = 0 := by
  rw [← UInt32.toNat_inj, ← UInt16.toNat_inj]
  exact Iff.rfl

theorem rwrL4Sum_eq : rwrL4Sum e (rwrIpSum e p which addr) which (p.npc_ips which) addr port off =
    { p with
      header := (rwrIpSum e p which addr).header
      segment := store p.segment off (bytes16 e (naptCksum e p which addr port off)) } := by
  rw [rwrIpSum_eq]
  rfl

theorem npfRwrcksum_tcp (isTcp : p.npc_proto = ipprotoTcp) : npfRwrcksum e p which addr port =
      some (rwrL4Sum e (rwrIpSum e p which addr) which (p.npc_ips which) addr port thSumOffset) := by
  have kept : (rwrIpSum e p which addr).npc_proto = ipprotoTcp := by
    rw [rwrIpSum_eq]
    exact isTcp
  unfold npfRwrcksum
  dsimp only
  rw [kept, if_neg (by decide), if_pos rfl]

theorem npfRwrcksum_udp (isUdp : p.npc_proto = ipprotoUdp)
    (hsome : loadWord e p.segment uhSumOffset ≠ 0) :
    npfRwrcksum e p which addr port =
      some (rwrL4Sum e (rwrIpSum e p which addr) which (p.npc_ips which) addr port uhSumOffset) := by
  have kept : (rwrIpSum e p which addr).npc_proto = ipprotoUdp := by
    rw [rwrIpSum_eq]
    exact isUdp
  have segment : (rwrIpSum e p which addr).segment = p.segment := by
    rw [rwrIpSum_eq]
  unfold npfRwrcksum
  dsimp only
  rw [kept, segment, if_neg (by decide), if_neg (by decide), if_pos rfl, if_neg hsome]

theorem npfNaptRwr_ports (isPorts : p.npc_proto = ipprotoTcp ∨ p.npc_proto = ipprotoUdp)
    (cksum : npfRwrcksum e p which addr port =
      some (rwrL4Sum e (rwrIpSum e p which addr) which (p.npc_ips which) addr port off)) :
    npfNaptRwr e p which addr port.toUInt32 =
      some (0, translated e p which addr (naptSegment e p which addr port off)) := by
  unfold npfNaptRwr
  rw [UInt16.toUInt16_toUInt32, cksum, rwrL4Sum_eq, Option.map_some]
  by_cases noPort : port = 0
  · rw [if_pos (toUInt32_eq_zero_iff.mpr noPort), naptSegment, if_pos noPort]
    rfl
  · rw [if_neg fun zero => noPort (toUInt32_eq_zero_iff.mp zero), naptSegment, if_neg noPort]
    exact congrArg some (if_pos isPorts)

theorem npfNaptRwr_icmp6 (isIcmp6 : p.npc_proto = ipprotoIcmpv6) :
    npfNaptRwr e p which addr port.toUInt32 = some (0, translated e p which addr p.segment) := by
  have kept : (rwrIpSum e p which addr).npc_proto = ipprotoIcmpv6 := by
    rw [rwrIpSum_eq]
    exact isIcmp6
  have cksum : npfRwrcksum e p which addr port = some (rwrIpSum e p which addr) := by
    unfold npfRwrcksum
    dsimp only
    rw [kept, if_pos (.inr rfl)]
  have wrote : npfRwrip (rwrIpSum e p which addr) which addr =
      translated e p which addr p.segment := by
    rw [rwrIpSum_eq]
    rfl
  have proto : (translated e p which addr p.segment).npc_proto = ipprotoIcmpv6 := isIcmp6
  unfold npfNaptRwr
  rw [UInt16.toUInt16_toUInt32, cksum, Option.map_some, wrote]
  dsimp only
  have notPorts : ¬(ipprotoIcmpv6 = ipprotoTcp ∨ ipprotoIcmpv6 = ipprotoUdp) := by decide
  have isIcmp : ipprotoIcmpv6 = ipprotoIcmp ∨ ipprotoIcmpv6 = ipprotoIcmpv6 := by decide
  rw [proto, if_neg notPorts, if_pos isIcmp, ite_self]

end Calls

section Napt

variable {e e' : Endian} {p p' : Packet} {which : Which} {addr : List UInt8} {port : UInt16}

/-- The offset of the transport checksum. -/
def sumOffset (p : Packet) : Nat := if p.npc_proto = ipprotoTcp then thSumOffset else uhSumOffset

def Summed (e : Endian) (p : Packet) : Prop :=
  p.npc_proto = ipprotoTcp ∨ p.npc_proto = ipprotoUdp ∧ loadWord e p.segment uhSumOffset ≠ 0

theorem npfNaptRwr_summed (summed : Summed e p) : npfNaptRwr e p which addr port.toUInt32 =
    some (0, translated e p which addr (naptSegment e p which addr port (sumOffset p))) := by
  cases summed with
  | inl isTcp =>
    rw [sumOffset, if_pos isTcp]
    exact npfNaptRwr_ports (.inl isTcp) (npfRwrcksum_tcp isTcp)
  | inr isUdp =>
    have notTcp : p.npc_proto ≠ ipprotoTcp := by rw [isUdp.1]; decide
    rw [sumOffset, if_neg notTcp]
    exact npfNaptRwr_ports (.inr isUdp.1) (npfRwrcksum_udp isUdp.1 isUdp.2)

theorem sumOffset_inside (cached : Cached p) (summed : Summed e p) :
    sumOffset p + 2 ≤ p.segment.length ∧ 4 ≤ sumOffset p ∧ sumOffset p % 2 = 0 ∧
      UInt8.ofNat p.npc_proto ≠ 0 := by
  cases summed with
  | inl isTcp =>
    have long := cached.tcp isTcp
    rw [sumOffset, if_pos isTcp, isTcp]
    exact ⟨by rw [thSumOffset]; omega, by decide, by decide, by decide⟩
  | inr isUdp =>
    have notTcp : p.npc_proto ≠ ipprotoTcp := by rw [isUdp.1]; decide
    have long := cached.udp isUdp.1
    rw [sumOffset, if_neg notTcp, isUdp.1]
    exact ⟨by rw [uhSumOffset]; omega, by decide, by decide, by decide⟩

theorem Verifies.of_modEq {bytes bytes' : List UInt8} (verifies : Verifies e bytes)
    (same : Netinet.wordSum e bytes' ≡ Netinet.wordSum e bytes [MOD 65535])
    (hsome : Netinet.wordSum e bytes' ≠ 0) :
    Verifies e bytes' :=
  ⟨same.trans verifies.1, iff_of_false hsome (by decide)⟩

theorem covered_verifies (cached : Cached p) (isAddr : addr.length = 16) (summed : Summed e p)
    (cov : Verifies e p.covered) :
    Verifies e
      (translated e p which addr (naptSegment e p which addr port (sumOffset p))).covered := by
  obtain ⟨ins, behind, evenOff, isProto⟩ := sumOffset_inside cached summed
  exact cov.of_modEq (wordSum_covered_napt ins behind evenOff cached isAddr)
    (@wordSum_covered_ne_zero e (translated e p which addr _) isProto)

theorem loadWord_port (cached : Cached p) (summed : Summed e p) (isPort : port ≠ 0) :
    loadWord e (naptSegment e p which addr port (sumOffset p)) (portOffset which) = port := by
  obtain ⟨ins, behind, _, _⟩ := sumOffset_inside cached summed
  have portInside := (portOffset_inside ins behind which).1
  have len := @naptStore_length e p _ ins (naptCksum e p which addr port (sumOffset p))
  have kept := @part_store_same
    (store p.segment (sumOffset p) (bytes16 e (naptCksum e p which addr port (sumOffset p))))
    (bytes16 e port) (portOffset which) (by rw [len, bytes16_length]; exact portInside)
  rw [bytes16_length] at kept
  apply UInt16.toNat_inj.mp
  rw [toNat_loadWord (by rw [naptSegment_length ins behind]; exact portInside), naptSegment,
    if_neg isPort, kept, wordSum_bytes16]

/-- The translation writes the address and the port, and keeps both checksums right in whatever
byte order the words are read. -/
theorem npfNaptRwr_verifies (e e' : Endian) (p : Packet) (which : Which) (addr : List UInt8)
    (port : UInt16) (cached : Cached p) (isAddr : addr.length = 16) (summed : Summed e p)
    (header : p.ip4 = true → Verifies e' p.header) (covered : Verifies e' p.covered) :
    ∃ p', npfNaptRwr e p which addr port.toUInt32 = some (0, p') ∧
      p'.npc_ips which = addr.take p.npc_alen ∧
      (port ≠ 0 → loadWord e p'.segment (portOffset which) = port) ∧
      (p'.ip4 = true → Verifies e' p'.header) ∧ Verifies e' p'.covered := by
  refine ⟨_, npfNaptRwr_summed summed, naptHeader_which cached isAddr, loadWord_port cached summed,
    ?_, ?_⟩
  · intro isIp4
    exact (verifies_iff e e').mp (((verifies_iff e' e).mp (header isIp4)).of_modEq
      (wordSum_naptHeader cached isAddr isIp4) (wordSum_naptHeader_ne_zero cached isAddr))
  · exact (verifies_iff e e').mp
      (covered_verifies cached isAddr summed ((verifies_iff e' e).mp covered))

def datagram : Packet where
  ip4 := true
  npc_proto := ipprotoUdp
  header := [0x45, 0, 0, 28, 0, 0, 0, 0, 64, 17, 0x66, 0xcf, 10, 0, 0, 1, 10, 0, 0, 2]
  segment := [0xeb, 0xa3, 0, 53, 0, 8, 0, 3]

theorem datagram_cached : Cached datagram := ⟨by decide, by decide, by decide, by decide⟩

theorem npfNaptRwr_verifies_datagram : ∃ p',
    npfNaptRwr .little datagram .src ([10, 4, 0, 1] ++ List.replicate 12 0) (80 : UInt16).toUInt32 =
      some (0, p') ∧
      p'.npc_ips .src = [10, 4, 0, 1] ∧ ((80 : UInt16) ≠ 0 → loadWord .little p'.segment 0 = 80) ∧
      (p'.ip4 = true → Verifies .big p'.header) ∧ Verifies .big p'.covered :=
  npfNaptRwr_verifies .little .big datagram .src ([10, 4, 0, 1] ++ List.replicate 12 0) 80
    datagram_cached (by decide) (.inr (by decide)) (fun _ => ⟨by decide, by decide⟩)
    ⟨by decide, by decide⟩

/-! ### Packets that lose their checksum -/

/-- The transport checksum covers the addresses. -/
def Covers (e : Endian) (p : Packet) : Prop := Summed e p ∨ p.npc_proto = ipprotoIcmpv6

/-- The transport checksum verifies, and that of UDP is not the zero that means none. -/
def Protected (e : Endian) (p : Packet) : Prop :=
  Verifies e p.covered ∧ (p.npc_proto = ipprotoUdp → loadWord e p.segment uhSumOffset ≠ 0)

/-- The translations that keep a packet protected: for UDP those after which the checksum is not
zero, for ICMPv6 those that do not change the sum of the address. -/
def Keeps (e : Endian) (p : Packet) (which : Which) (addr : List UInt8) (port : UInt16) : Prop :=
  (p.npc_proto = ipprotoUdp → ¬ (loadWord e p.segment uhSumOffset).toNat + oldWords e p which port ≡
        newWords e p addr port [MOD 65535] ∨
      (loadWord e p.segment uhSumOffset).toNat = 65535 ∧ AllOnes p which addr port) ∧
  (p.npc_proto = ipprotoIcmpv6 →
    Netinet.wordSum e (p.npc_ips which) ≡ Netinet.wordSum e (addr.take p.npc_alen) [MOD 65535])

theorem Updates.ne_zero_iff {cksum res old new : Nat} {allOnes : Prop}
    (updates : Updates cksum res old new allOnes) (sml : res ≤ 65535) :
    res ≠ 0 ↔ ¬ cksum + old ≡ new [MOD 65535] ∨ cksum = 65535 ∧ allOnes := by
  have balance := updates.balance
  rw [← updates.ones]
  unfold Nat.ModEq at *
  omega

theorem uhSum_ne_zero_iff (cached : Cached p) (isAddr : addr.length = 16)
    (isUdp : p.npc_proto = ipprotoUdp) :
    loadWord e (naptSegment e p which addr port uhSumOffset) uhSumOffset ≠ 0 ↔
      (¬ (loadWord e p.segment uhSumOffset).toNat + oldWords e p which port ≡
          newWords e p addr port [MOD 65535] ∨
        (loadWord e p.segment uhSumOffset).toNat = 65535 ∧ AllOnes p which addr port) := by
  have ins : uhSumOffset + 2 ≤ p.segment.length := cached.udp isUdp
  have updates := @naptCksum_updates e p which addr port uhSumOffset cached isAddr
  have sml := (naptCksum e p which addr port uhSumOffset).toNat_lt
  rw [loadWord_naptSegment ins (by decide), ← updates.ne_zero_iff (by omega), Ne, Ne,
    ← UInt16.toNat_inj]
  exact Iff.rfl

theorem covered_icmp6_iff (cached : Cached p) (isAddr : addr.length = 16)
    (isIcmp6 : p.npc_proto = ipprotoIcmpv6) (cov : Verifies e p.covered) :
    Verifies e (translated e p which addr p.segment).covered ↔
      Netinet.wordSum e (p.npc_ips which) ≡ Netinet.wordSum e (addr.take p.npc_alen) [MOD 65535] := by
  have whole := @wordSum_covered_translated e p which addr p.segment cached isAddr rfl
  have isProto : UInt8.ofNat (translated e p which addr p.segment).npc_proto ≠ 0 := by
    change UInt8.ofNat p.npc_proto ≠ 0
    rw [isIcmp6]
    decide
  constructor
  · intro verifies
    have prev := cov.1
    have s' := verifies.1
    unfold Nat.ModEq at *
    omega
  · intro same
    refine cov.of_modEq ?_ (wordSum_covered_ne_zero isProto)
    unfold Nat.ModEq at *
    omega

/-- The packets accepted that stay protected. -/
theorem npfNaptRwr_protected_iff (e : Endian) (p p' : Packet) (which : Which)
    (addr : List UInt8) (port : UInt16) (cached : Cached p) (isAddr : addr.length = 16)
    (accepted : npfNaptRwr e p which addr port.toUInt32 = some (0, p')) (covers : Covers e p)
    (verifies : Verifies e p.covered) :
    Protected e p' ↔ Keeps e p which addr port := by
  cases covers with
  | inl summed =>
    rw [npfNaptRwr_summed summed] at accepted
    cases accepted
    have cov := @covered_verifies e p which addr port cached isAddr summed verifies
    have notIcmp6 : p.npc_proto ≠ ipprotoIcmpv6 := by
      cases summed with
      | inl isTcp => rw [isTcp]; decide
      | inr isUdp => rw [isUdp.1]; decide
    unfold Protected Keeps
    rw [and_iff_right cov, and_iff_left fun isIcmp6 => absurd isIcmp6 notIcmp6]
    refine imp_congr_right fun isUdp : p.npc_proto = ipprotoUdp => ?_
    have notTcp : p.npc_proto ≠ ipprotoTcp := by
      rw [isUdp]
      decide
    have isOffset : sumOffset p = uhSumOffset := if_neg notTcp
    rw [isOffset]
    exact uhSum_ne_zero_iff cached isAddr isUdp
  | inr isIcmp6 =>
    rw [npfNaptRwr_icmp6 isIcmp6] at accepted
    cases accepted
    have notUdp : p.npc_proto ≠ ipprotoUdp := by
      rw [isIcmp6]
      decide
    have address := @covered_icmp6_iff e p which addr cached isAddr isIcmp6 verifies
    constructor
    · intro isProtected
      exact ⟨fun isUdp => absurd isUdp notUdp, fun _ => address.mp isProtected.1⟩
    · intro keeps
      exact ⟨address.mpr (keeps.2 isIcmp6), fun isUdp => absurd isUdp notUdp⟩

theorem npfNaptRwr_protected_datagram :
    Protected .little (translated .little datagram .src ([10, 4, 0, 1] ++ List.replicate 12 0)
      (naptSegment .little datagram .src ([10, 4, 0, 1] ++ List.replicate 12 0) 80 uhSumOffset)) ↔
      Keeps .little datagram .src ([10, 4, 0, 1] ++ List.replicate 12 0) 80 :=
  npfNaptRwr_protected_iff .little datagram _ .src ([10, 4, 0, 1] ++ List.replicate 12 0) 80
    datagram_cached (by decide) (by decide) (.inl (.inr (by decide))) ⟨by decide, by decide⟩

def echoRequest : Packet where
  ip4 := false
  npc_proto := ipprotoIcmpv6
  header := [0x60, 0, 0, 0, 0, 8, 58, 64] ++
    ([0xfe, 0x80, 0, 0, 0, 0, 0, 0, 0, 0, 0, 0, 0, 0, 0, 1] ++
      [0xfe, 0x80, 0, 0, 0, 0, 0, 0, 0, 0, 0, 0, 0, 0, 0, 2])
  segment := [128, 0, 0x82, 0xb8, 0, 0, 0, 0]

theorem echoRequest_cached : Cached echoRequest := ⟨by decide, by decide, by decide, by decide⟩

/-- The checksum of a datagram becomes zero, that of an echo request wrong. -/
theorem checksum_lost : (Cached datagram ∧ Covers .little datagram ∧ Protected .little datagram ∧
      ∃ p', npfNaptRwr .little datagram .src ([10, 3, 0, 1] ++ List.replicate 12 0) 0 =
        some (0, p') ∧ ¬ Protected .little p') ∧
    Cached echoRequest ∧ Covers .little echoRequest ∧ Protected .little echoRequest ∧
      ∃ p', npfNaptRwr .little echoRequest .src
          [0xfe, 0x80, 0, 0, 0, 0, 0, 0, 0, 0, 0, 0, 0, 0, 0, 3] 0 = some (0, p') ∧
        ¬ Protected .little p' := by
  constructor
  · refine ⟨datagram_cached, .inl (.inr (by decide)),
      ⟨⟨by decide, by decide⟩, fun _ => by decide⟩, _, rfl, ?_⟩
    intro isProtected
    exact isProtected.2 (by decide) (by decide)
  · refine ⟨echoRequest_cached, .inr rfl,
      ⟨⟨by decide, by decide⟩, fun isUdp => absurd isUdp (by decide)⟩, _, rfl, ?_⟩
    intro isProtected
    exact absurd isProtected.1.1 (by decide)

end Napt

end NetBSD.Net.Npf.Rwr
