import NetBSD.Netinet.InCksumSegment

/-!
Owns the checksum of a whole chain. The walk over the mbufs keeps the sum of
the bytes seen so far, in the lane that the number of these bytes gives, up to
the carries that `sum` loses inside one segment. A lost carry changes the
result, and only the 32-bit version can lose one.
-/

namespace NetBSD.Netinet

open NetBSD.Kern NetBSD.Arith List Nat Ulong SameSum

/-! ### Specification -/

/-- The 16-bit end-around-carry sum of `initial_sum` and the words of a byte
string, complemented. -/
def inCksumSpec (e : Endian) (initialSum : UInt32) (bytes : List UInt8) : Nat :=
  0xffff - ((initialSum.toNat / 65536) :: (initialSum.toNat % 65536) :: wordsOf e bytes).foldl
    (eacAdd 0xffff) 0

def cksumSpec (e : Endian) (chain : List Mbuf) (range : CksumRange) (initialSum : UInt32) : Int :=
  if range.off + range.len ≤ mlength chain then
    inCksumSpec e initialSum (((mbytes chain).drop range.off).take range.len)
  else
    -1

theorem wordsOf_le (e : Endian) (bytes : List UInt8) : ∀ w ∈ wordsOf e bytes, w ≤ 0xffff := by
  induction bytes using wordsOf.induct with
  | case1 => simp [wordsOf]
  | case2 b0 => simpa [wordsOf] using half_le e b0 0
  | case3 b0 b1 tl ih =>
    intro w mem
    rw [wordsOf, mem_cons] at mem
    rcases mem with rfl | later
    · exact half_le e b0 b1
    · exact ih w later

theorem inCksumSpec_eq (e : Endian) (initialSum : UInt32) (bytes : List UInt8) :
    inCksumSpec e initialSum bytes =
      0xffff - endAround 0xffff (fold16 initialSum.toNat + wordSum e bytes) := by
  have initialLt := initialSum.toNat_lt
  rw [inCksumSpec, foldl_eacAdd (by decide) _ (zero_le _)]
  · rw [sum_cons, sum_cons, zero_add, fold16, wordSum, add_assoc]
  intro w mem
  rw [mem_cons, mem_cons] at mem
  rcases mem with rfl | rfl | word
  · omega
  · omega
  · exact wordsOf_le e bytes w word

/-! ### Lost carries -/

/-- In every segment the unbounded `sum` stays below the width of the real
one. -/
def CarriesKept (u : Ulong) (e : Endian) : List Mbuf → (len : Nat) → (startedOnOdd : Bool) →
    (sum : Nat) → Prop
  | [], _, _, _ => True
  | m :: rest, len, startedOnOdd, sum =>
    if len = 0 then True
    else if m.m_len = 0 then CarriesKept u e rest len startedOnOdd sum
    else
      let mlen := min m.m_len len
      let segment := accumulate u e 0 m mlen startedOnOdd sum
      segment.2 < u.acc ∧ CarriesKept u e rest (len - mlen) segment.1 (reduce u segment.2)

theorem reduce_same (u : Ulong) (v : Nat) : Same (reduce u v) v := by
  have base := operand_ge u
  exact SameSum.fold (operand_unit u) (by omega) v

theorem reduce_le {u : Ulong} {v : Nat} (bnd : v < u.acc) : reduce u v ≤ 2 * u.operand := by
  have base := operand_ge u
  have pos : 0 < u.operand := by omega
  have high : v / u.operand < u.operand := by
    rw [div_lt_iff_lt_mul pos, ← acc_eq]
    exact bnd
  have low := mod_lt v pos
  rw [reduce]
  omega

theorem accumulate_lost {u : Ulong} (e : Endian) (m : Mbuf) {mlen sum : Nat} (pos : 0 < mlen)
    (mlenLe : mlen ≤ intMax) (odd : Bool) (sml : sum ≤ 2 * u.operand) :
    (accumulate u e 0 m mlen odd sum).2 / u.acc ≤ mlen / 2 ^ 19 := by
  have bound := (accumulate_adds u e m pos odd sum).bound
  rw [intMax] at mlenLe
  cases u with
  | bits32 =>
    have acc : bits32.acc = 2 ^ 32 := by decide
    have operand : bits32.operand = 2 ^ 16 := by decide
    rw [operand] at sml bound
    rw [acc]
    have blks : mlen / (16 * bits32.operandBytes) = mlen / 32 := rfl
    omega
  | bits64 =>
    have acc : bits64.acc = 2 ^ 64 := by decide
    have operand : bits64.operand = 2 ^ 32 := by decide
    rw [operand] at sml bound
    rw [acc]
    have blks : mlen / (16 * bits64.operandBytes) = mlen / 64 := rfl
    omega

theorem accumulate64_lt (e : Endian) (m : Mbuf) {mlen sum : Nat} (pos : 0 < mlen)
    (mlenLe : mlen ≤ intMax) (odd : Bool) (sml : sum ≤ 2 * bits64.operand) :
    (accumulate .bits64 e 0 m mlen odd sum).2 < bits64.acc := by
  have bound := (accumulate_adds .bits64 e m pos odd sum).bound
  have acc : bits64.acc = 2 ^ 64 := by decide
  have operand : bits64.operand = 2 ^ 32 := by decide
  have blks : mlen / (16 * bits64.operandBytes) = mlen / 64 := rfl
  rw [operand] at bound
  rw [intMax] at mlenLe
  omega

/-! ### The walk -/

theorem bytes_eq_slice (m : Mbuf) : m.bytes = slice m.data 0 m.m_len := by
  apply ext_getElem?
  intro i
  have general : ∀ pos n, (slice m.data pos n)[i]? = if i < n then some (m.data (pos + i)) else none := by
    intro pos n
    induction n generalizing pos i with
    | zero => simp [slice]
    | succ n ih =>
      cases i with
      | zero => simp [slice]
      | succ i =>
        rw [slice, getElem?_cons_succ, ih]
        have shift : pos + 1 + i = pos + (i + 1) := by omega
        rw [shift]
        simp
  rw [general]
  by_cases lt : i < m.m_len
  · rw [m.getElem?_bytes lt, if_pos lt, zero_add]
  · rw [if_neg lt]
    exact getElem?_eq_none (by simpa using lt)

theorem take_mbytes_cons (m : Mbuf) (tl : List Mbuf) (len : Nat) : (mbytes (m :: tl)).take len =
      slice m.data 0 (min m.m_len len) ++ (mbytes tl).take (len - min m.m_len len) := by
  rw [mbytes_cons, bytes_eq_slice, take_append, length_slice]
  rcases Nat.le_total m.m_len len with short | long
  · rw [Nat.min_eq_left short, take_of_length_le (by simpa using short)]
  rw [Nat.min_eq_right long, Nat.sub_self, Nat.sub_eq_zero_of_le long, take_zero,
    append_nil]
  have split := slice_add m.data 0 len (m.m_len - len)
  rw [Nat.add_sub_cancel' long] at split
  rw [split]
  simp

/-- What the walk over a chain returns: the sum of the bytes up to `lost`
carries, exactly that sum when none is lost. -/
structure Walked (u : Ulong) (e : Endian) (chain : List Mbuf) (len : Nat) (startedOnOdd : Bool)
    (sum after lost : Nat) : Prop where
  bounded : after ≤ 2 * u.operand
  few : lost ≤ len / 2 ^ 19
  congruent : after + lost ≡
    sum + lane startedOnOdd (wordSum e ((mbytes chain).take len)) [MOD 65535]
  kept : CarriesKept u e chain len startedOnOdd sum ↔ lost = 0
  exact : lost = 0 → Same after (sum + lane startedOnOdd (wordSum e ((mbytes chain).take len)))

theorem same_segment (e : Endian) (m : Mbuf) (tl : List Mbuf) (len : Nat) (odd : Bool)
    (sum : Nat) :
    Same (sum + lane odd (wordSum e (slice m.data 0 (min m.m_len len))) +
        lane (odd ^^ oddLen (min m.m_len len))
          (wordSum e ((mbytes tl).take (len - min m.m_len len))))
      (sum + lane odd (wordSum e ((mbytes (m :: tl)).take len))) := by
  rw [take_mbytes_cons, add_assoc]
  have split := wordSum_append e (slice m.data 0 (min m.m_len len))
    ((mbytes tl).take (len - min m.m_len len))
  rw [length_slice] at split
  have lanes := lane_same odd split
  rw [lane_add] at lanes
  have composed := lane_lane odd (oddLen (min m.m_len len))
    (wordSum e ((mbytes tl).take (len - min m.m_len len)))
  exact (refl _ _).add ((lanes.trans ((refl _ _).add composed)).symm)

theorem acc_unit (u : Ulong) : u.acc ≡ 1 [MOD 65535] := by
  cases u <;> decide

theorem mod_acc_congruent (u : Ulong) (v : Nat) : v % u.acc + v / u.acc ≡ v [MOD 65535] := by
  have carries := ((acc_unit u).mul_right (v / u.acc)).symm
  rw [one_mul] at carries
  have parts := (Nat.ModEq.refl (v % u.acc)).add carries
  rwa [mod_add_div] at parts

/-- The sum over the mbufs, with what it lost on the way. -/
theorem sumChain_walked (u : Ulong) (e : Endian) {chain : List Mbuf} {len : Nat}
    (odd : Bool) {sum : Nat} (lenLe : len ≤ intMax) (lt : len ≤ mlength chain)
    (sml : sum ≤ 2 * u.operand) :
    ∃ s' lost, sumChain u e chain len odd sum = some s' ∧
      Walked u e chain len odd sum s' lost := by
  induction chain generalizing len odd sum with
  | nil =>
    have no : len = 0 := by simpa [mlength] using lt
    subst no
    refine ⟨sum, 0, rfl, sml, zero_le _, ?_, ⟨fun _ => rfl, fun _ => trivial⟩, ?_⟩
    · cases odd <;> simp [lane, Nat.ModEq.refl]
    · intro _
      cases odd <;> simp [lane, refl]
  | cons m tl ih =>
    by_cases done : len = 0
    · subst done
      refine ⟨sum, 0, by simp [sumChain], sml, zero_le _, ?_, ?_, ?_⟩
      · cases odd <;> simp [lane, Nat.ModEq.refl]
      · simp [CarriesKept]
      · intro _
        cases odd <;> simp [lane, refl]
    simp only [sumChain, if_neg done]
    rw [mlength] at lt
    by_cases empty : m.m_len = 0
    · rw [if_pos empty]
      obtain ⟨s', lost, walked, spec⟩ :=
        ih odd lenLe (by omega) sml
      have noBytes : m.bytes = [] := eq_nil_of_length_eq_zero (by simpa using empty)
      have sameBytes : mbytes (m :: tl) = mbytes tl := by
        rw [mbytes_cons, noBytes, nil_append]
      refine ⟨s', lost, walked, spec.bounded, spec.few, ?_, ?_, ?_⟩
      · rw [sameBytes]
        exact spec.congruent
      · simp only [CarriesKept, if_neg done, if_pos empty]
        exact spec.kept
      · rw [sameBytes]
        exact spec.exact
    rw [if_neg empty]
    have pos : 0 < min m.m_len len := by omega
    have adds := accumulate_adds u e m pos odd sum
    have few := accumulate_lost e m pos (by omega) odd sml
    have accPositive : 0 < u.acc := by cases u <;> decide
    have smallMod : sum % u.acc = sum := by
      have rm := acc_room u
      exact mod_eq_of_lt (by omega)
    have real := accumulate_mod u e u.acc m (min m.m_len len) odd sum
    rw [smallMod] at real
    simp only [real]
    have isLane := adds.lane
    have same := adds.same
    have keptHere : CarriesKept u e (m :: tl) len odd sum ↔
        (accumulate u e 0 m (min m.m_len len) odd sum).2 < u.acc ∧
        CarriesKept u e tl (len - min m.m_len len)
          (accumulate u e 0 m (min m.m_len len) odd sum).1
          (reduce u (accumulate u e 0 m (min m.m_len len) odd sum).2) := by
      simp only [CarriesKept, if_neg done, if_neg empty]
    rw [isLane] at keptHere ⊢
    generalize (accumulate u e 0 m (min m.m_len len) odd sum).2 = total at *
    have modLt := mod_lt total accPositive
    obtain ⟨s', lost, walked, spec⟩ := @ih (len - min m.m_len len)
      (odd ^^ oddLen (min m.m_len len)) (reduce u (total % u.acc)) (by omega)
      (by omega) (reduce_le modLt)
    have segment := same_segment e m tl len odd sum
    refine ⟨s', total / u.acc + lost, walked, spec.bounded, ?_, ?_, ?_, ?_⟩
    · have later := spec.few
      omega
    · have fst := ((reduce_same u (total % u.acc)).1.add_right (total / u.acc)).trans
        (mod_acc_congruent u total)
      have both := spec.congruent.add_right (total / u.acc)
      have shape : s' + (total / u.acc + lost) = s' + lost + total / u.acc := by omega
      rw [shape]
      refine both.trans ?_
      rw [add_right_comm]
      exact ((fst.trans same.1).add_right _).trans segment.1
    · rw [keptHere]
      by_cases fits : total < u.acc
      · have no : total / u.acc = 0 := div_eq_of_lt fits
        rw [no, zero_add, ← spec.kept, mod_eq_of_lt fits]
        exact ⟨fun both => both.2, fun later => ⟨fits, later⟩⟩
      have any : 0 < total / u.acc := div_pos (by omega) accPositive
      constructor
      · intro both
        exact absurd both.1 fits
      · intro zero
        rw [Nat.add_eq_zero_iff] at zero
        exact absurd zero.1 (ne_of_gt any)
    · intro zero
      rw [Nat.add_eq_zero_iff, div_eq_zero_iff_lt accPositive] at zero
      obtain ⟨fits, noneLater⟩ := zero
      have later := spec.exact noneLater
      rw [mod_eq_of_lt fits] at later
      refine later.trans ?_
      exact (((reduce_same u total).trans same).add (refl _ _)).trans segment

theorem sumChain_outOfData (u : Ulong) (e : Endian) {chain : List Mbuf} {len : Nat}
    (odd : Bool) {sum : Nat} (far : mlength chain < len) :
    sumChain u e chain len odd sum = none := by
  induction chain generalizing len odd sum with
  | nil =>
    rw [sumChain, if_neg (by omega)]
  | cons m tl ih =>
    rw [mlength] at far
    simp only [sumChain]
    rw [if_neg (by omega)]
    by_cases empty : m.m_len = 0
    · rw [if_pos empty]
      exact ih odd (by omega)
    · rw [if_neg empty]
      exact ih _ (by omega)

/-! ### The range -/

/-- Skipping leaves the bytes from the offset on. -/
theorem skipTo_spec {chain : List Mbuf} {off : Nat} (lt : off < mlength chain) :
    ∃ tl, skipTo chain off = some tl ∧ mbytes tl = (mbytes chain).drop off ∧
      mlength tl = mlength chain - off := by
  induction chain generalizing off with
  | nil => simp [mlength] at lt
  | cons m tl ih =>
    rw [mlength] at lt
    by_cases here : off < m.m_len
    · refine ⟨advance m off :: tl, by rw [skipTo, if_pos here], ?_, ?_⟩
      · have shd : (advance m off).bytes = m.bytes.drop off := by
          rw [bytes_eq_slice, bytes_eq_slice]
          have split := slice_add m.data 0 off (m.m_len - off)
          rw [Nat.add_sub_cancel' (by omega)] at split
          rw [split, drop_append_of_le_length (by simp), drop_of_length_le (by simp),
            nil_append]
          have reindexed : ∀ pos n, slice (advance m off).data pos n =
              slice m.data (off + pos) n := by
            intro pos n
            induction n generalizing pos with
            | zero => rfl
            | succ n ih =>
              rw [slice, ih]
              rfl
          rw [reindexed, zero_add]
          rfl
        rw [mbytes_cons, mbytes_cons, shd, drop_append_of_le_length (by simp; omega)]
      · show m.m_len - off + mlength tl = m.m_len + mlength tl - off
        omega
    · obtain ⟨tail, fnd, bytes, len⟩ := @ih (off - m.m_len) (by omega)
      refine ⟨tail, by rw [skipTo, if_neg here, fnd], ?_, ?_⟩
      · have skip : m.bytes.drop off = [] :=
          drop_of_length_le (by rw [Mbuf.length_bytes]; omega)
        rw [bytes, mbytes_cons, drop_append, skip, nil_append, Mbuf.length_bytes]
      · rw [mlength]
        omega

theorem skipTo_outOfData {chain : List Mbuf} {off : Nat} (far : mlength chain ≤ off) :
    skipTo chain off = none := by
  induction chain generalizing off with
  | nil => rfl
  | cons m tl ih =>
    rw [mlength] at far
    rw [skipTo, if_neg (by omega)]
    exact ih (by omega)

/-! ### The final reduction -/

theorem startSum_same (u : Ulong) (initialSum : UInt32) :
    Same (startSum u initialSum) (fold16 initialSum.toNat) ∧
      startSum u initialSum ≤ 2 * u.operand := by
  have initialLt := initialSum.toNat_lt
  cases u with
  | bits32 =>
    refine ⟨refl _ _, ?_⟩
    show initialSum.toNat / 65536 + initialSum.toNat % 65536 ≤ 2 * 65536
    omega
  | bits64 =>
    refine ⟨(SameSum.fold (by decide) (by decide) _).symm, ?_⟩
    show initialSum.toNat ≤ 2 * 4294967296
    omega

theorem fold16_same (v : Nat) : Same (fold16 v) v := SameSum.fold (by decide) (by decide) v

theorem finalAcc_spec {u : Ulong} {sum : Nat} (bnd : sum ≤ 2 * u.operand) :
    Same (finalAcc u sum) sum ∧ finalAcc u sum ≤ 0xffff := by
  cases u with
  | bits32 =>
    have bound : sum ≤ 2 * 65536 := bnd
    have high : sum / 65536 % 65536 = sum / 65536 := mod_eq_of_lt (by omega)
    simp only [finalAcc, high]
    refine ⟨(fold16_same _).trans (fold16_same sum), ?_⟩
    rw [fold16]
    omega
  | bits64 =>
    have bound : sum ≤ 2 * 4294967296 := bnd
    have top : sum / 2 ^ 48 = 0 := div_eq_of_lt (by omega)
    have third : sum / 2 ^ 32 % 65536 = sum / 65536 / 65536 := by omega
    have same : Same (sum / 2 ^ 48 + sum / 2 ^ 32 % 65536 + sum / 65536 % 65536 + sum % 65536)
        sum := by
      rw [top, third, zero_add]
      exact ((fold16_same (sum / 65536)).add (refl _ _)).trans (fold16_same sum)
    have sml : sum / 2 ^ 48 + sum / 2 ^ 32 % 65536 + sum / 65536 % 65536 + sum % 65536 ≤
        3 * 65536 := by omega
    simp only [finalAcc]
    refine ⟨(fold16_same _).trans ((fold16_same _).trans same), ?_⟩
    generalize sum / 2 ^ 48 + sum / 2 ^ 32 % 65536 + sum / 65536 % 65536 + sum % 65536 = folded
      at sml
    simp only [fold16]
    omega

/-! ### The checksum -/

/-- The walk starts behind the offset with the folded initial sum. -/
def RangeKept (u : Ulong) (e : Endian) (chain : List Mbuf) (range : CksumRange)
    (initialSum : UInt32) : Prop :=
  ∀ rest, skipTo chain range.off = some rest →
    CarriesKept u e rest range.len false (startSum u initialSum)

theorem cpuInCksum_outOfData (u : Ulong) (e : Endian) {chain : List Mbuf} {range : CksumRange}
    (far : mlength chain < range.off + range.len) (initialSum : UInt32) :
    cpuInCksum u e chain range initialSum = -1 := by
  rw [cpuInCksum]
  by_cases lt : range.off < mlength chain
  · obtain ⟨tl, fnd, -, len⟩ := skipTo_spec lt
    rw [fnd, Option.bind_some, sumChain_outOfData u e false (by omega)]
  · rw [skipTo_outOfData (by omega)]
    rfl

/-- For a range inside the chain, exact when the range is kept. -/
theorem cpuInCksum_inside_iff (u : Ulong) (e : Endian) {chain : List Mbuf} {range : CksumRange}
    (lt : range.off + range.len ≤ mlength chain) (initialSum : UInt32) :
    cpuInCksum u e chain range initialSum =
        inCksumSpec e initialSum (((mbytes chain).drop range.off).take range.len) ↔
      RangeKept u e chain range initialSum := by
  have lenPos := range.len_pos
  have lenLe := range.len_le
  obtain ⟨tl, fnd, bytes, len⟩ := skipTo_spec (by omega : range.off < mlength chain)
  obtain ⟨beg, startSmall⟩ := startSum_same u initialSum
  obtain ⟨s', lost, walked, spec⟩ :=
    sumChain_walked u e false lenLe (by omega : range.len ≤ mlength tl) startSmall
  have bnd := spec.bounded
  have cong := spec.congruent
  have exactSum := spec.exact
  rw [bytes] at cong exactSum
  have kept : RangeKept u e chain range initialSum ↔ lost = 0 := by
    rw [← spec.kept, RangeKept]
    constructor
    · intro all
      exact all tl fnd
    · intro one rest' hit'
      rw [fnd] at hit'
      obtain rfl := Option.some.inj hit'
      exact one
  obtain ⟨finalSame, finalLe⟩ := finalAcc_spec bnd
  have value : cpuInCksum u e chain range initialSum = (0xffff - finalAcc u s' : Nat) := by
    rw [cpuInCksum, fnd, Option.bind_some, walked]
    show ((0xffff - finalAcc u s' % 65536 : Nat) : Int) = _
    rw [mod_eq_of_lt (by omega)]
  rw [value, inCksumSpec_eq, kept]
  generalize wordSum e (((mbytes chain).drop range.off).take range.len) = words at *
  have words_lane : lane false words = words := rfl
  have specLe := endAround_le (by decide : 0 < 0xffff) (fold16 initialSum.toNat + words)
  have specSame := endAround_sameSum 0xffff (fold16 initialSum.toNat + words)
  constructor
  · intro equal
    have equalNat : finalAcc u s' = endAround 0xffff (fold16 initialSum.toNat + words) := by
      omega
    -- The two values differ by the number of lost carries modulo 65535.
    have few := spec.few
    have left : s' ≡ fold16 initialSum.toNat + words [MOD 65535] := by
      have viaFinal := finalSame.1.symm
      rw [equalNat] at viaFinal
      exact viaFinal.trans specSame.1
    have right := cong.trans (beg.1.add_right words)
    have zero : lost ≡ 0 [MOD 65535] := by
      have shd : s' + lost ≡ s' + 0 [MOD 65535] := by
        rw [add_zero]
        exact right.trans left.symm
      exact Nat.ModEq.add_left_cancel' s' shd
    rw [Nat.ModEq] at zero
    rw [intMax] at lenLe
    omega
  · intro no
    have same := finalSame.trans ((exactSum no).trans (beg.add (refl _ words)))
    rw [same.eq_endAround (by decide) finalLe]

theorem carriesKept64 (e : Endian) {chain : List Mbuf} {len : Nat} (odd : Bool)
    {sum : Nat} (lenLe : len ≤ intMax) (sml : sum ≤ 2 * bits64.operand) :
    CarriesKept .bits64 e chain len odd sum := by
  induction chain generalizing len odd sum with
  | nil => trivial
  | cons m tl ih =>
    simp only [CarriesKept]
    by_cases done : len = 0
    · rw [if_pos done]
      trivial
    rw [if_neg done]
    by_cases empty : m.m_len = 0
    · rw [if_pos empty]
      exact ih odd lenLe sml
    · rw [if_neg empty]
      have fits := accumulate64_lt e m (by omega : 0 < min m.m_len len) (by omega)
        odd sml
      exact ⟨fits, ih _ (by omega) (reduce_le fits)⟩

/-! ### Segments below a gigabyte -/

/-- A flush pays for what it adds: the partial sum it empties has reached
`2 ^ 30`, and it adds at most `2 ^ 17`. -/
theorem blockLoop32_potential (e : Endian) (d : Nat → UInt8) (swap : Bool) (blks pos : Nat)
    {part : Nat} (sum : Nat) (sml : part < 2 ^ 30) :
    let loop := blockLoop .bits32 e d 0 swap blks pos part sum
    8192 * loop.2 + loop.1 ≤ 8192 * sum + part + loadSum .bits32 e d (blks * 16) pos := by
  have acc : bits32.acc = 2 ^ 32 := by decide
  have operand : bits32.operand = 2 ^ 16 := by decide
  induction blks generalizing pos part sum with
  | zero => simp [blockLoop, loadSum]
  | succ blks ih =>
    have block := loadSum_le .bits32 e d 16 pos
    have added : addLoads .bits32 e d 16 pos part = part + loadSum .bits32 e d 16 pos :=
      addLoads_eq .bits32 e d pos (by rw [operand]; omega)
    have bnd : part + loadSum .bits32 e d 16 pos < bits32.acc := by
      omega
    have total : loadSum .bits32 e d ((blks + 1) * 16) pos = loadSum .bits32 e d 16 pos +
        loadSum .bits32 e d (blks * 16) (pos + 16 * bits32.operandBytes) := by
      rw [← loadSum_add]
      congr 1
      omega
    have isFull := nearlyFull_iff bnd
    simp only [blockLoop, added]
    by_cases full : nearlyFull .bits32 (part + loadSum .bits32 e d 16 pos) = true
    · rw [if_pos full, flush_zero]
      have halves := (halves_spec swap bnd).2
      have filled := isFull.mp full
      have later := @ih (pos + 16 * bits32.operandBytes) 0
        (sum + (aligned .bits32 swap (part + loadSum .bits32 e d 16 pos) /
            bits32.operand +
          aligned .bits32 swap (part + loadSum .bits32 e d 16 pos) %
            bits32.operand)) (by decide)
      omega
    · rw [if_neg full]
      have notFilled : ¬ 2 ^ 32 / 4 ≤ part + loadSum .bits32 e d 16 pos := fun filled =>
        full (isFull.mpr filled)
      have later := @ih (pos + 16 * bits32.operandBytes)
        (part + loadSum .bits32 e d 16 pos) sum (by omega)
      omega

theorem accumulate32_lt_of_short (e : Endian) (m : Mbuf) {mlen sum : Nat} (pos : 0 < mlen)
    (short : mlen ≤ 2 ^ 30 - 2 ^ 18) (odd : Bool) (sml : sum ≤ 2 * 2 ^ 16) :
    (accumulate .bits32 e 0 m mlen odd sum).2 < bits32.acc := by
  have operand : bits32.operand = 2 ^ 16 := by decide
  have total := (@accumulate32_total e m.data m.addr mlen odd sum).2
  have fst := firstByte_le e m.data m.addr
  have potential := blockLoop32_potential e m.data
    (if m.addr % 2 = 1 then !odd else odd) ((mlen - skew m.addr) / 32)
    (skew m.addr) sum (by omega : firstByte e m.data m.addr < 2 ^ 30)
  have loads := loadSum_le .bits32 e m.data ((mlen - skew m.addr) / 32 * 16) (skew m.addr)
  rw [operand] at total loads
  show (accumulate32 e m.data 0 m.addr mlen odd sum).2 < 2 ^ 32
  have loop : (looped32 e m.data m.addr mlen odd sum).2 ≤ 2 ^ 32 - 2 ^ 19 := by
    rw [looped32]
    omega
  omega

theorem carriesKept32_of_short (e : Endian) {chain : List Mbuf} {len : Nat} (odd : Bool)
    {sum : Nat} (short : ∀ m ∈ chain, m.m_len ≤ 2 ^ 30 - 2 ^ 18) (sml : sum ≤ 2 * 2 ^ 16) :
    CarriesKept .bits32 e chain len odd sum := by
  induction chain generalizing len odd sum with
  | nil => trivial
  | cons m tl ih =>
    have shortRest : ∀ m ∈ tl, m.m_len ≤ 2 ^ 30 - 2 ^ 18 := fun m' mem =>
      short m' (mem_cons_of_mem m mem)
    have shortHere := short m mem_cons_self
    simp only [CarriesKept]
    by_cases done : len = 0
    · rw [if_pos done]
      trivial
    rw [if_neg done]
    by_cases empty : m.m_len = 0
    · rw [if_pos empty]
      exact ih odd shortRest sml
    · rw [if_neg empty]
      have fits := accumulate32_lt_of_short e m (by omega : 0 < min m.m_len len) (by omega)
        odd sml
      exact ⟨fits, ih _ shortRest (reduce_le fits)⟩

theorem skipTo_short {chain tl : List Mbuf} {off bound : Nat}
    (short : ∀ m ∈ chain, m.m_len ≤ bound) (fnd : skipTo chain off = some tl) :
    ∀ m ∈ tl, m.m_len ≤ bound := by
  induction chain generalizing off with
  | nil => simp [skipTo] at fnd
  | cons head tail ih =>
    have shortTail : ∀ m ∈ tail, m.m_len ≤ bound := (forall_mem_cons.mp short).2
    rw [skipTo] at fnd
    split at fnd
    · obtain rfl := Option.some.inj fnd
      exact forall_mem_cons.mpr ⟨(sub_le _ _).trans (short head mem_cons_self), shortTail⟩
    · exact ih shortTail fnd

/-- The checksum is independent of the layout: the 64-bit version always
returns the sum of the bytes, and the 32-bit version does so exactly when the
range leaves the chain or no segment fills `sum`, which a segment below a
gigabyte never does. -/
theorem cpuInCksum_layout (e : Endian) (chain : List Mbuf) (range : CksumRange)
    (initialSum : UInt32) :
    cpuInCksum .bits64 e chain range initialSum = cksumSpec e chain range initialSum ∧
    (cpuInCksum .bits32 e chain range initialSum = cksumSpec e chain range initialSum ↔
      (range.off + range.len ≤ mlength chain → RangeKept .bits32 e chain range initialSum)) ∧
    ((∀ m ∈ chain, m.m_len ≤ 2 ^ 30 - 2 ^ 18) → RangeKept .bits32 e chain range initialSum) := by
  refine ⟨?_, ?_, ?_⟩
  · by_cases lt : range.off + range.len ≤ mlength chain
    · rw [cksumSpec, if_pos lt, cpuInCksum_inside_iff .bits64 e lt]
      intro tl _
      exact carriesKept64 e false range.len_le (startSum_same .bits64 initialSum).2
    · rw [cksumSpec, if_neg lt, cpuInCksum_outOfData _ e (by omega)]
  · by_cases lt : range.off + range.len ≤ mlength chain
    · rw [cksumSpec, if_pos lt, cpuInCksum_inside_iff .bits32 e lt]
      exact ⟨fun kept _ => kept, fun kept => kept lt⟩
    · rw [cksumSpec, if_neg lt, cpuInCksum_outOfData _ e (by omega)]
      exact ⟨fun _ contradiction => absurd contradiction lt, fun _ => rfl⟩
  · intro short tl fnd
    exact carriesKept32_of_short e false (skipTo_short short fnd)
      (startSum_same .bits32 initialSum).2

/-! ### A segment that fills `sum` -/

/-- Memory in which every word is `0xfffc`. -/
def fullWords (i : Nat) : UInt8 := if i % 2 = 0 then 0xfc else 0xff

/-- 1025 blocks of these words fill the partial sum once. -/
def fullMbuf : Mbuf := ⟨0, fullWords, 52461 * 1025 * 32, by decide⟩

def fullRange : CksumRange := ⟨0, 52461 * 1025 * 32, by decide, by decide, by decide⟩

theorem addLoads_fullWords {n part pos : Nat} (even : pos % 2 = 0)
    (rm : part + n * 65536 ≤ 2 ^ 32) :
    addLoads .bits32 .little fullWords n pos part = part + n * 65532 := by
  induction n generalizing part pos with
  | zero => simp [addLoads]
  | succ n ih =>
    have word : load .bits32 .little fullWords pos = 65532 := by
      have odd : (pos + 1) % 2 = 1 := by omega
      simp [load, load16, half, fullWords, even, odd]
    have acc : bits32.acc = 2 ^ 32 := by decide
    have bytes : operandBytes .bits32 = 2 := rfl
    rw [addLoads, bytes, mod_eq_of_lt (by omega), ih (by omega) (by omega)]
    omega

theorem blockLoop_fullWords_adds (cnt blks : Nat) {part pos : Nat} (sum : Nat)
    (even : pos % 2 = 0) (rm : part + cnt * 1048512 < 2 ^ 30) :
    blockLoop .bits32 .little fullWords 0 false (blks + cnt) pos part sum =
      blockLoop .bits32 .little fullWords 0 false blks (pos + cnt * 32)
        (part + cnt * 1048512) sum := by
  induction cnt generalizing part pos with
  | zero => simp
  | succ cnt ih =>
    have added : addLoads .bits32 .little fullWords 16 pos part = part + 1048512 := by
      rw [addLoads_fullWords even (by omega)]
    have notFull : nearlyFull .bits32 (part + 1048512) = false := by
      have quarter : bits32.acc / 4 = 2 ^ 30 := by decide
      rw [nearlyFull, div_eq_of_lt (by omega)]
      rfl
    have bytes : operandBytes .bits32 = 2 := rfl
    rw [← Nat.add_assoc, blockLoop]
    simp only [added, notFull, Bool.false_eq_true, if_false]
    rw [ih (by omega) (by omega)]
    congr 1 <;> omega

theorem blockLoop_fullWords (rnds : Nat) {pos : Nat} (sum : Nat) (even : pos % 2 = 0) :
    blockLoop .bits32 .little fullWords 0 false (rnds * 1025) pos 0 sum =
      (0, sum + rnds * 81870) := by
  induction rnds generalizing pos sum with
  | zero => simp [blockLoop]
  | succ rnds ih =>
    have shape : (rnds + 1) * 1025 = rnds * 1025 + 1 + 1024 := by omega
    rw [shape, blockLoop_fullWords_adds 1024 (rnds * 1025 + 1) sum even (by decide), blockLoop]
    have added : addLoads .bits32 .little fullWords 16 (pos + 1024 * 32) (0 + 1024 * 1048512) =
        1074724800 := by
      rw [addLoads_fullWords (by omega) (by decide)]
    have full : nearlyFull .bits32 1074724800 = true := by decide
    have flushed : flush .bits32 0 false sum 1074724800 = sum + 81870 := by
      rw [flush_zero]
      rfl
    simp only [added, full, if_true]
    rw [ih _ (by simp only [operandBytes]; omega)]
    congr 1
    omega

theorem accumulate32_fullWords (rnds sum : Nat) :
    (accumulate32 .little fullWords 0 0 (rnds * 1025 * 32) false sum).2 =
      sum + rnds * 81870 := by
  have aligned0 : skew 0 = 0 := rfl
  have fst : firstByte .little fullWords 0 = 0 := rfl
  have blks : rnds * 1025 * 32 / 32 = rnds * 1025 := by omega
  have noRest : rnds * 1025 * 32 % 32 = 0 := by omega
  have noTail : ∀ pos part, tailLoads .bits32 .little fullWords 0 [8, 4, 2, 1] pos part =
      (pos, part) := fun pos part => rfl
  have noByte : ∀ pos part, trailingByte .bits32 .little fullWords 0 pos part = part :=
    fun pos part => rfl
  simp only [accumulate32, aligned0, fst, Nat.sub_zero, blks, noRest]
  have even : (0 : Nat) % 2 ≠ 1 := by decide
  rw [if_neg even, blockLoop_fullWords rnds sum rfl, noTail, noByte]
  simp [addPart, aligned]

theorem cpuInCksum_fullMbuf :
    ¬ ∀ (u : Ulong) (e : Endian) (chain : List Mbuf) (range : CksumRange) (initialSum : UInt32),
      cpuInCksum u e chain range initialSum = cksumSpec e chain range initialSum := by
  intro claim
  have lt : fullRange.off + fullRange.len ≤ mlength [fullMbuf] := by decide
  have right := claim .bits32 .little [fullMbuf] fullRange 0
  rw [cksumSpec, if_pos lt, cpuInCksum_inside_iff .bits32 .little lt] at right
  have fnd : skipTo [fullMbuf] fullRange.off = some [fullMbuf] := by
    rw [skipTo]
    simp [advance, fullMbuf, fullRange]
  have kept := right [fullMbuf] fnd
  simp only [CarriesKept] at kept
  have total : (accumulate .bits32 .little 0 fullMbuf (min fullMbuf.m_len fullRange.len) false
      (startSum .bits32 0)).2 = 52461 * 81870 := by
    exact (accumulate32_fullWords 52461 0).trans (zero_add _)
  rw [total] at kept
  exact absurd kept.1 (by decide)

/-! ### Writing and verifying -/

section Verify

variable {u v : Ulong} {e : Endian} {chain chain' : List Mbuf} {range : CksumRange}
  {initialSum : UInt32} {pre back : List UInt8} {b0 b1 : UInt8}

/-- The chain holds the bytes in the range, and the version does not lose a carry on it. -/
structure Carries (u : Ulong) (chain : List Mbuf) (range : CksumRange) (bytes : List UInt8) :
    Prop where
  inside : range.off + range.len ≤ mlength chain
  bytes : ((mbytes chain).drop range.off).take range.len = bytes
  short : u = .bits32 → ∀ m ∈ chain, m.m_len ≤ 2 ^ 30 - 2 ^ 18

theorem Carries.cksum {bytes : List UInt8} (carries : Carries u chain range bytes) :
    cpuInCksum u e chain range initialSum =
      ↑(0xffff - endAround 0xffff (fold16 initialSum.toNat + wordSum e bytes)) := by
  rw [← inCksumSpec_eq, ← carries.bytes]
  refine (cpuInCksum_inside_iff u e carries.inside initialSum).mpr fun tl fnd => ?_
  obtain ⟨-, sml⟩ := startSum_same u initialSum
  cases u with
  | bits32 => exact carriesKept32_of_short e false (skipTo_short (carries.short rfl) fnd) sml
  | bits64 => exact carriesKept64 e false range.len_le sml

/-- What a sender writes verifies: the checksum of a packet with a blank field at an even offset,
put into the field, makes the checksum of the packet 0, however the two chains are cut. -/
theorem cpuInCksum_verifies (even : pre.length % 2 = 0)
    (blank : Carries u chain range (pre ++ 0 :: 0 :: back))
    (filled : Carries v chain' range (pre ++ b0 :: b1 :: back))
    (written : (half e b0 b1 : Int) = cpuInCksum u e chain range initialSum) :
    cpuInCksum v e chain' range initialSum = 0 := by
  have isEven : oddLen pre.length = false := by simp [oddLen, even]
  have sum (b0 b1 : UInt8) : Same (wordSum e (pre ++ b0 :: b1 :: back))
      (wordSum e pre + (half e b0 b1 + wordSum e back)) := by
    have parts := wordSum_append e pre (b0 :: b1 :: back)
    rwa [isEven, wordSum_cons_cons] at parts
  have zero : half e 0 0 = 0 := by cases e <;> rfl
  have blankSum := (refl 65535 (fold16 initialSum.toNat)).add (sum 0 0)
  rw [zero, zero_add] at blankSum
  rw [blank.cksum, Int.natCast_inj] at written
  generalize fold16 initialSum.toNat + wordSum e (pre ++ 0 :: 0 :: back) = total
    at blankSum written
  have whole : Same 0xffff (fold16 initialSum.toNat + wordSum e (pre ++ b0 :: b1 :: back)) := by
    have added := ((endAround_sameSum 0xffff total).trans blankSum).add (refl 65535 (half e b0 b1))
    rw [written, Nat.add_sub_cancel' (endAround_le (by decide) total), ← written] at added
    refine added.trans ((of_eq ?_).trans ((refl _ _).add (sum b0 b1).symm))
    ring
  rw [filled.cksum, ← whole.eq_endAround (by decide) (le_refl _), Nat.sub_self]
  rfl

/-- A header of two words, with the second one blank and then filled. -/
theorem cpuInCksum_verifies_header : cpuInCksum .bits64 .big
    [⟨1, fun _ => 0x45, 1, by decide⟩, ⟨6, fun i => [0, 0xba, 0xff].getD i 0, 3, by decide⟩]
    ⟨0, 4, by decide, by decide, by decide⟩ 0 = 0 :=
  cpuInCksum_verifies rfl
    (show Carries .bits32 [⟨0, fun i => [0x45, 0, 0, 0].getD i 0, 4, by decide⟩] _
      ([0x45, 0] ++ 0 :: 0 :: []) from ⟨by decide, by decide, by decide⟩)
    (show Carries _ _ _ ([0x45, 0] ++ 0xba :: 0xff :: []) from ⟨by decide, by decide, nofun⟩)
    (by decide)

end Verify

end NetBSD.Netinet
