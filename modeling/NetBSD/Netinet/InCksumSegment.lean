import NetBSD.Arith.Ones
import NetBSD.Netinet.InCksum

/-!
Owns what one segment adds to the checksum. A byte string has the sum of its
16-bit words; putting a byte in front of it shifts every byte to the other lane,
which multiplies the sum by 256. The segment code with an unbounded `sum` adds
the words of the segment in the lane of the packet, and the real code computes
the same value modulo the width of `sum`.
-/

namespace NetBSD.Netinet

open NetBSD.Kern NetBSD.Arith Nat SameSum Ulong

/-! ### Words of a byte string -/

/-- The 16-bit words of a byte string in memory order; a last odd byte is
padded with zero. -/
def wordsOf (e : Endian) : List UInt8 → List Nat
  | [] => []
  | [b0] => [half e b0 0]
  | b0 :: b1 :: rest => half e b0 b1 :: wordsOf e rest

def wordSum (e : Endian) (bytes : List UInt8) : Nat := (wordsOf e bytes).sum

@[simp] theorem wordSum_nil (e : Endian) : wordSum e [] = 0 := rfl

@[simp] theorem wordSum_singleton (e : Endian) (b0 : UInt8) : wordSum e [b0] = half e b0 0 := by
  simp [wordSum, wordsOf]

@[simp] theorem wordSum_cons_cons (e : Endian) (b0 b1 : UInt8) (tl : List UInt8) :
    wordSum e (b0 :: b1 :: tl) = half e b0 b1 + wordSum e tl := by
  simp [wordSum, wordsOf]

/-- The residue of 16-bit ones'-complement sums. -/
abbrev Same (a b : Nat) : Prop := SameSum 65535 a b

theorem half_split (e : Endian) (b0 b1 : UInt8) : half e b0 b1 = half e b0 0 + half e 0 b1 := by
  cases e <;> simp [half]

theorem half_le (e : Endian) (b0 b1 : UInt8) : half e b0 b1 ≤ 65535 := by
  have left := b0.toNat_lt
  have right := b1.toNat_lt
  cases e <;> simp only [half] <;> omega

theorem half_swap (e : Endian) (b : UInt8) : Same (256 * half e b 0) (half e 0 b) := by
  cases e with
  | little => exact of_eq (by simp [half])
  | big =>
    have shape : 256 * half .big b 0 = 65536 * half .big 0 b := by
      simp [half]
      omega
    rw [shape]
    exact scale (by decide) (by decide) _

theorem same_65536 (v : Nat) : Same (65536 * v) v := scale (by decide) (by decide) v

theorem wordSum_cons (e : Endian) (b0 : UInt8) (tl : List UInt8) :
    Same (wordSum e (b0 :: tl)) (half e b0 0 + 256 * wordSum e tl) := by
  induction tl generalizing b0 with
  | nil => exact of_eq (by simp)
  | cons b1 tl ih =>
    have tail : Same (256 * wordSum e (b1 :: tl)) (half e 0 b1 + wordSum e tl) := by
      have scaled := (ih b1).mul 256
      have shape : 256 * (half e b1 0 + 256 * wordSum e tl) =
          256 * half e b1 0 + 65536 * wordSum e tl := by omega
      rw [shape] at scaled
      exact scaled.trans ((half_swap e b1).add (same_65536 _))
    rw [wordSum_cons_cons, half_split, add_assoc]
    exact ((refl _ _).add tail).symm

/-- The sum of a byte string that starts in the given lane. -/
def lane (odd : Bool) (v : Nat) : Nat := if odd then 256 * v else v

theorem lane_add (odd : Bool) (v w : Nat) : lane odd (v + w) = lane odd v + lane odd w := by
  cases odd <;> simp [lane]
  omega

theorem lane_same (odd : Bool) {v w : Nat} (same : Same v w) : Same (lane odd v) (lane odd w) := by
  cases odd
  · exact same
  · exact same.mul 256

theorem lane_lane (odd odd' : Bool) (v : Nat) :
    Same (lane odd (lane odd' v)) (lane (odd ^^ odd') v) := by
  cases odd <;> cases odd'
  · exact refl _ _
  · exact refl _ _
  · exact refl _ _
  · have shape : lane true (lane true v) = 65536 * v := by
      simp only [lane, if_true]
      omega
    rw [shape]
    exact same_65536 v

def oddLen (n : Nat) : Bool := n % 2 == 1

theorem oddLen_succ (n : Nat) : oddLen (n + 1) = !oddLen n := by
  simp only [oddLen]
  rcases mod_two_eq_zero_or_one n with even | odd
  · have next : (n + 1) % 2 = 1 := by omega
    simp [even, next]
  · have next : (n + 1) % 2 = 0 := by omega
    simp [odd, next]

theorem wordSum_append (e : Endian) (pre back : List UInt8) : Same (wordSum e (pre ++ back))
      (wordSum e pre + lane (oddLen pre.length) (wordSum e back)) := by
  induction pre with
  | nil => exact of_eq (by simp [lane, oddLen])
  | cons b0 pre ih =>
    have whole := wordSum_cons e b0 (pre ++ back)
    have scaled := ih.mul 256
    rw [mul_add] at scaled
    have oth : Same (256 * lane (oddLen pre.length) (wordSum e back))
        (lane (oddLen (b0 :: pre).length) (wordSum e back)) := by
      have composed := lane_lane true (oddLen pre.length) (wordSum e back)
      rw [List.length_cons, oddLen_succ]
      simpa [lane] using composed
    have parts := ((refl 65535 (half e b0 0)).add (scaled.trans
      ((refl _ _).add oth)))
    rw [← add_assoc] at parts
    exact whole.trans (parts.trans ((wordSum_cons e b0 pre).symm.add (refl _ _)))

/-! ### Slices of memory -/

def slice (d : Nat → UInt8) : (pos n : Nat) → List UInt8
  | _, 0 => []
  | pos, n + 1 => d pos :: slice d (pos + 1) n

@[simp] theorem length_slice (d : Nat → UInt8) (pos n : Nat) : (slice d pos n).length = n := by
  induction n generalizing pos with
  | zero => rfl
  | succ n ih => simp [slice, ih]

theorem slice_add (d : Nat → UInt8) (pos n k : Nat) :
    slice d pos (n + k) = slice d pos n ++ slice d (pos + n) k := by
  induction n generalizing pos with
  | zero => simp [slice]
  | succ n ih =>
    have shift : n + 1 + k = n + k + 1 := by omega
    rw [shift, slice, slice, ih, List.cons_append, add_right_comm, add_assoc]

theorem wordSum_slice_two (e : Endian) (d : Nat → UInt8) (pos : Nat) :
    wordSum e (slice d pos 2) = load16 e d pos := by
  simp [slice, load16]

theorem wordSum_slice_even (e : Endian) (d : Nat → UInt8) (pos : Nat) {n : Nat} (even : n % 2 = 0)
    (k : Nat) : Same (wordSum e (slice d pos (n + k)))
      (wordSum e (slice d pos n) + wordSum e (slice d (pos + n) k)) := by
  have split := wordSum_append e (slice d pos n) (slice d (pos + n) k)
  rw [← slice_add, length_slice] at split
  have sameLane : oddLen n = false := by simp [oddLen, even]
  rwa [sameLane] at split

/-! ### Operands -/

section Operands

variable (u : Ulong) (e : Endian) (d : Nat → UInt8)

theorem acc_eq : u.acc = u.operand * u.operand := by
  rw [acc, operand, ← pow_add, two_mul]

theorem operand_ge : 65536 ≤ u.operand := by
  cases u <;> decide

theorem operand_unit : u.operand ≡ 1 [MOD 65535] := by
  cases u <;> decide

theorem load_lt (pos : Nat) : load u e d pos < u.operand := by
  have left := half_le e (d pos) (d (pos + 1))
  have right := half_le e (d (pos + 2)) (d (pos + 2 + 1))
  cases u with
  | bits32 =>
    show load16 e d pos < 65536
    rw [load16]
    omega
  | bits64 =>
    show load32 e d pos < 4294967296
    cases e <;> simp only [load32, load16] <;> omega

theorem load_same (pos : Nat) : Same (load u e d pos) (wordSum e (slice d pos u.operandBytes)) := by
  cases u with
  | bits32 => exact of_eq (wordSum_slice_two e d pos).symm
  | bits64 =>
    cases e with
    | little => exact (refl _ _).add (same_65536 _)
    | big => exact (same_65536 _).add (refl _ _)

def loadSum : (n pos : Nat) → Nat
  | 0, _ => 0
  | n + 1, pos => load u e d pos + loadSum n (pos + u.operandBytes)

theorem loadSum_le (n pos : Nat) : loadSum u e d n pos ≤ n * u.operand := by
  induction n generalizing pos with
  | zero => simp [loadSum]
  | succ n ih =>
    have fst := load_lt u e d pos
    have tl := ih (pos + u.operandBytes)
    rw [loadSum, succ_mul]
    omega

theorem loadSum_add (n k pos : Nat) : loadSum u e d (n + k) pos =
      loadSum u e d n pos + loadSum u e d k (pos + n * u.operandBytes) := by
  induction n generalizing pos with
  | zero => simp [loadSum]
  | succ n ih =>
    have shift : n + 1 + k = n + k + 1 := by omega
    have next : pos + u.operandBytes + n * u.operandBytes = pos + (n + 1) * u.operandBytes := by
      rw [succ_mul]
      omega
    rw [shift, loadSum, loadSum, ih, next, add_assoc]

theorem even_operandBytes : u.operandBytes % 2 = 0 := by
  cases u <;> decide

theorem loadSum_same (n pos : Nat) :
    Same (loadSum u e d n pos) (wordSum e (slice d pos (n * u.operandBytes))) := by
  induction n generalizing pos with
  | zero => exact of_eq (by simp [loadSum, slice])
  | succ n ih =>
    have split := wordSum_slice_even e d pos (even_operandBytes u) (n * u.operandBytes)
    have shift : (n + 1) * u.operandBytes = u.operandBytes + n * u.operandBytes := by
      rw [succ_mul, add_comm]
    rw [shift]
    exact ((load_same u e d pos).add (ih _)).trans split.symm

theorem addLoads_eq {n part : Nat} (pos : Nat) (rm : part + n * u.operand ≤ u.acc) :
    addLoads u e d n pos part = part + loadSum u e d n pos := by
  induction n generalizing pos part with
  | zero => rfl
  | succ n ih =>
    have fst := load_lt u e d pos
    rw [succ_mul] at rm
    rw [addLoads, mod_eq_of_lt (by omega), ih _ (by omega), loadSum, add_assoc]

end Operands

/-! ### The accumulators -/

section Accumulators

variable {u : Ulong}

theorem swapBytes_spec {part : Nat} (bnd : part < u.acc) :
    Same (swapBytes u part) (256 * part) ∧ swapBytes u part < u.acc := by
  obtain ⟨q, isQ, pos⟩ : ∃ q, u.acc = 256 * q ∧ 0 < q := by
    cases u
    · exact ⟨2 ^ 24, by decide, by decide⟩
    · exact ⟨2 ^ 56, by decide, by decide⟩
  have unit : 256 * q ≡ 1 [MOD 65535] := by
    rw [← isQ]
    cases u <;> decide
  have quo : u.acc / 256 = q := by omega
  have low : part * 256 % (256 * q) = 256 * (part % q) := by
    rw [mul_comm part 256, mul_mod_mul_left]
  have highLt : part / q < 256 := by
    rw [div_lt_iff_lt_mul pos]
    omega
  have lowLt := mod_lt part pos
  have noWrap : 256 * (part % q) + part / q < 256 * q := by omega
  have v : swapBytes u part = 256 * (part % q) + part / q := by
    rw [swapBytes, quo, isQ, low, mod_eq_of_lt noWrap]
  rw [v]
  refine ⟨?_, by omega⟩
  have shape : 256 * part = 256 * (part % q) + 256 * q * (part / q) := by
    have parts := div_add_mod part q
    rw [mul_assoc, ← mul_add, add_comm (part % q), parts]
  rw [shape]
  exact (refl _ _).add (scale unit (by omega) _).symm

theorem aligned_spec (swap : Bool) {part : Nat} (bnd : part < u.acc) :
    Same (aligned u swap part) (lane swap part) ∧ aligned u swap part < u.acc := by
  cases swap with
  | false => exact ⟨refl _ _, bnd⟩
  | true => exact swapBytes_spec bnd

theorem halves_spec (swap : Bool) {part : Nat} (bnd : part < u.acc) :
    Same (aligned u swap part / u.operand + aligned u swap part % u.operand)
      (lane swap part) ∧
    aligned u swap part / u.operand + aligned u swap part % u.operand ≤
      2 * u.operand := by
  obtain ⟨same, sml⟩ := aligned_spec swap bnd
  have base := operand_ge u
  have pos : 0 < u.operand := by omega
  constructor
  · exact (fold (operand_unit u) pos _).trans same
  · have high : aligned u swap part / u.operand < u.operand := by
      rw [div_lt_iff_lt_mul pos, ← acc_eq]
      exact sml
    have low := mod_lt (aligned u swap part) pos
    omega

theorem flush_zero (swap : Bool) (sum part : Nat) : flush u 0 swap sum part = sum +
      (aligned u swap part / u.operand + aligned u swap part % u.operand) := by
  simp only [flush, mod_zero, add_assoc]

theorem flush_mod (modulus : Nat) (swap : Bool) (sum part : Nat) :
    flush u modulus swap (sum % modulus) part = flush u 0 swap sum part % modulus := by
  simp only [flush, mod_zero, mod_add_mod]

theorem addPart_mod (modulus : Nat) (swap : Bool) (sum part : Nat) :
    addPart u modulus swap (sum % modulus) part =
      addPart u 0 swap sum part % modulus := by
  simp only [addPart, mod_zero, mod_add_mod]

theorem nearlyFull_iff {part : Nat} (bnd : part < u.acc) :
    nearlyFull u part = true ↔ u.acc / 4 ≤ part := by
  obtain ⟨q, isQ, pos⟩ : ∃ q, u.acc = 4 * q ∧ 0 < q := by
    cases u
    · exact ⟨2 ^ 30, by decide, by decide⟩
    · exact ⟨2 ^ 62, by decide, by decide⟩
  have quo : u.acc / 4 = q := by omega
  have lt : part / q < 4 := by
    rw [div_lt_iff_lt_mul pos]
    omega
  rw [nearlyFull, quo, mod_eq_of_lt lt]
  simp only [bne_iff_ne, ne_eq, Nat.div_eq_zero_iff]
  omega

end Accumulators

/-! ### The inner loop -/

variable {mlen : Nat}

section Loop

variable (u : Ulong) (e : Endian) (d : Nat → UInt8)

/-- Room for a block, the tail and an odd byte on top of a partial sum that the
loop leaves. -/
theorem acc_room : u.acc / 4 + 20 * u.operand ≤ u.acc := by
  cases u <;> decide

/-- The unrolled loop adds whole blocks. -/
theorem blockLoop_spec (swap : Bool) (blks pos : Nat) {part : Nat} (sum : Nat)
    (sml : part < u.acc / 4) : let loop := blockLoop u e d 0 swap blks pos part sum
    loop.1 < u.acc / 4 ∧ loop.2 ≤ sum + blks * (2 * u.operand) ∧
      Same (loop.2 + lane swap loop.1) (sum + lane swap
        (part + loadSum u e d (blks * 16) pos)) := by
  induction blks generalizing pos part sum with
  | zero =>
    simp only [zero_mul, loadSum]
    exact ⟨sml, le_refl _, refl _ _⟩
  | succ blks ih =>
    have rm := acc_room u
    have block := loadSum_le u e d 16 pos
    have added : addLoads u e d 16 pos part = part + loadSum u e d 16 pos :=
      addLoads_eq u e d pos (by omega)
    have bnd : part + loadSum u e d 16 pos < u.acc := by omega
    have total : loadSum u e d ((blks + 1) * 16) pos = loadSum u e d 16 pos +
        loadSum u e d (blks * 16) (pos + 16 * u.operandBytes) := by
      rw [← loadSum_add]
      congr 1
      omega
    simp only [blockLoop, added]
    by_cases full : nearlyFull u (part + loadSum u e d 16 pos) = true
    · rw [if_pos full, flush_zero]
      have empty : 0 < u.acc / 4 := by omega
      obtain ⟨halves, halvesLe⟩ := halves_spec swap bnd
      obtain ⟨partSmall, sumLe, same⟩ := ih (pos + 16 * u.operandBytes)
        (sum + (aligned u swap (part + loadSum u e d 16 pos) / u.operand +
          aligned u swap (part + loadSum u e d 16 pos) % u.operand)) empty
      refine ⟨partSmall, ?_, ?_⟩
      · rw [succ_mul blks]
        omega
      · refine same.trans ?_
        rw [total, ← add_assoc part, lane_add _ (part + _), zero_add,
          ← add_assoc sum (lane swap (part + loadSum u e d 16 pos))]
        exact ((refl _ sum).add halves).add (refl _ _)
    · rw [if_neg full]
      rw [nearlyFull_iff bnd] at full
      obtain ⟨partSmall, sumLe, same⟩ := @ih (pos + 16 * u.operandBytes)
        (part + loadSum u e d 16 pos) sum (by omega)
      refine ⟨partSmall, ?_, ?_⟩
      · rw [succ_mul blks]
        omega
      · rw [total, ← add_assoc part]
        exact same

theorem blockLoop_mod (modulus : Nat) (swap : Bool) (blks pos part sum : Nat) :
    blockLoop u e d modulus swap blks pos part (sum % modulus) =
      ((blockLoop u e d 0 swap blks pos part sum).1,
        (blockLoop u e d 0 swap blks pos part sum).2 % modulus) := by
  induction blks generalizing pos part sum with
  | zero => rfl
  | succ blks ih =>
    simp only [blockLoop]
    split
    · rw [flush_mod, ih]
    · rw [ih]

def tailCount (mlen : Nat) : List Nat → Nat
  | [] => 0
  | n :: rest => (if bitSet mlen (n * u.operandBytes) then n else 0) + tailCount mlen rest

/-- The tests of the bits 8, 4, 2 and 1 of the operand count cover a rest shorter
than a block. -/
theorem tailCount_eq (short : mlen < 16 * u.operandBytes) :
    tailCount u mlen [8, 4, 2, 1] = mlen / u.operandBytes := by
  cases u with
  | bits32 =>
    have all : ∀ m < 32, tailCount .bits32 m [8, 4, 2, 1] = m / 2 := by decide
    exact all mlen short
  | bits64 =>
    have all : ∀ m < 64, tailCount .bits64 m [8, 4, 2, 1] = m / 4 := by decide
    exact all mlen short

theorem tailLoads_eq (mlen : Nat) (cnts : List Nat) (pos : Nat) {part : Nat}
    (rm : part + cnts.sum * u.operand ≤ u.acc) :
    tailLoads u e d mlen cnts pos part = (pos + tailCount u mlen cnts * u.operandBytes,
        part + loadSum u e d (tailCount u mlen cnts) pos) := by
  induction cnts generalizing pos part with
  | nil => simp [tailLoads, tailCount, loadSum]
  | cons n tl ih =>
    rw [List.sum_cons, add_mul] at rm
    have block := loadSum_le u e d n pos
    simp only [tailLoads, tailCount]
    by_cases set : bitSet mlen (n * u.operandBytes) = true
    · rw [if_pos set, if_pos set, addLoads_eq u e d pos (by omega),
        ih _ (by omega), loadSum_add, add_mul]
      simp only [add_assoc]
    · rw [if_neg set, if_neg set, ih _ (by omega), zero_add]

end Loop

/-! ### One segment -/

section Segment

variable (e : Endian) (d : Nat → UInt8)

theorem trailingByte_spec (u : Ulong) (mlen pos : Nat) {part : Nat}
    (rm : part + u.operand ≤ u.acc) :
    trailingByte u e d mlen pos part = part + wordSum e (slice d pos (mlen % 2)) := by
  have word := half_le e (d pos) 0
  have base := operand_ge u
  unfold trailingByte bitSet
  rcases mod_two_eq_zero_or_one mlen with even | odd
  · simp [even, slice]
  · simp only [Nat.div_one, odd, slice, wordSum_singleton]
    exact mod_eq_of_lt (by omega)

theorem firstByte_same {addr mlen : Nat} (pos : 0 < mlen) :
    Same (firstByte e d addr + wordSum e (slice d (skew addr) (mlen - skew addr)))
      (lane (oddLen addr) (wordSum e (slice d 0 mlen))) := by
  unfold firstByte skew
  rcases mod_two_eq_zero_or_one addr with even | odd
  · simp [even, oddLen, lane, refl]
  obtain ⟨n, rfl⟩ : ∃ n, mlen = n + 1 := ⟨mlen - 1, by omega⟩
  simp only [odd, oddLen, BEq.rfl, lane, slice]
  have pre := (wordSum_cons e (d 0) (slice d (0 + 1) n)).mul 256
  have shape : 256 * (half e (d 0) 0 + 256 * wordSum e (slice d (0 + 1) n)) =
      256 * half e (d 0) 0 + 65536 * wordSum e (slice d (0 + 1) n) := by omega
  rw [shape] at pre
  exact (pre.trans ((half_swap e (d 0)).add (same_65536 _))).symm

theorem firstByte_le (addr : Nat) : firstByte e d addr ≤ 65535 := by
  unfold firstByte
  split
  · exact half_le e 0 (d 0)
  · omega

theorem skew_le {addr : Nat} (pos : 0 < mlen) : skew addr ≤ mlen := by
  unfold skew
  split <;> omega

theorem lane_after (addr mlen : Nat) (pos : 0 < mlen) (startedOnOdd : Bool) :
    (if bitSet (mlen - skew addr) 1 then
        !(if addr % 2 = 1 then !startedOnOdd else startedOnOdd)
      else (if addr % 2 = 1 then !startedOnOdd else startedOnOdd)) =
      (startedOnOdd ^^ oddLen mlen) := by
  unfold bitSet skew oddLen
  rcases mod_two_eq_zero_or_one addr with even | odd
  · rcases mod_two_eq_zero_or_one mlen with evenLen | oddLen' <;>
      cases startedOnOdd <;> simp [*]
  · rcases mod_two_eq_zero_or_one mlen with evenLen | oddLen'
    · have tl : (mlen - 1) % 2 = 1 := by omega
      cases startedOnOdd <;> simp [*]
    · have tl : (mlen - 1) % 2 = 0 := by omega
      cases startedOnOdd <;> simp [*]

theorem addPart_spec {u : Ulong} (swap : Bool) (sum : Nat) {part : Nat}
    (bnd : part < u.acc) : Same (addPart u 0 swap sum part) (sum + lane swap part) ∧
      addPart u 0 swap sum part ≤ sum + 2 * u.operand := by
  obtain ⟨halves, halvesLe⟩ := halves_spec swap bnd
  simp only [addPart, mod_zero]
  exact ⟨(refl _ _).add halves, by omega⟩

/-- The tail adds what the blocks left. -/
theorem blockTail_spec (u : Ulong) (swap : Bool) {block : Nat}
    (blk : block = 16 * u.operandBytes) (mlen pos sum : Nat) {part : Nat}
    (sml : part < u.acc / 4) :
    let loop := blockLoop u e d 0 swap (mlen / block) pos part sum
    let tail := tailLoads u e d (mlen % block) [8, 4, 2, 1] (pos + mlen / block * block) loop.1
    tail.1 = pos + mlen / u.operandBytes * u.operandBytes ∧ tail.2 ≤ u.acc / 4 + 15 * u.operand ∧
      loop.2 ≤ sum + mlen / block * (2 * u.operand) ∧
      Same (loop.2 + lane swap tail.2) (sum + lane swap
        (part + wordSum e (slice d pos (mlen / u.operandBytes * u.operandBytes)))) := by
  have rm := acc_room u
  have pos' : 0 < u.operandBytes := by cases u <;> decide
  have blockPositive : 0 < block := by omega
  have short := mod_lt mlen blockPositive
  obtain ⟨partSmall, sumLe, same⟩ := blockLoop_spec u e d swap (mlen / block) pos sum sml
  have cnt : mlen / block * 16 + mlen % block / u.operandBytes = mlen / u.operandBytes := by
    have parts : mlen % block + mlen / block * 16 * u.operandBytes = mlen := by
      rw [mul_assoc, ← blk, mul_comm]
      exact mod_add_div mlen block
    nth_rewrite 3 [← parts]
    rw [add_mul_div_right _ _ pos', add_comm]
  simp only
  rw [tailLoads_eq u e d _ _ _ (by simp only [List.sum_cons, List.sum_nil]; omega),
    tailCount_eq u (by omega)]
  have tl := loadSum_le u e d (mlen % block / u.operandBytes) (pos + mlen / block * block)
  have restCount : mlen % block / u.operandBytes ≤ 15 := by
    have lt : mlen % block / u.operandBytes < 16 := by
      rw [div_lt_iff_lt_mul pos']
      omega
    omega
  have restLe : mlen % block / u.operandBytes * u.operand ≤ 15 * u.operand :=
    mul_le_mul_right _ restCount
  have off' : mlen / block * block = mlen / block * 16 * u.operandBytes := by
    rw [blk, mul_assoc]
  refine ⟨?_, ?_, sumLe, ?_⟩
  · rw [← cnt, add_mul, off', add_assoc]
  · simp only
    omega
  · simp only
    have joined : loadSum u e d (mlen / block * 16) pos +
        loadSum u e d (mlen % block / u.operandBytes) (pos + mlen / block * block) =
        loadSum u e d (mlen / u.operandBytes) pos := by
      rw [off', ← loadSum_add, cnt]
    rw [lane_add, ← add_assoc]
    refine (same.add (refl _ _)).trans ?_
    rw [add_assoc sum, ← lane_add, add_assoc part, joined]
    exact (refl _ _).add (lane_same swap
      ((refl _ _).add (loadSum_same u e d _ _)))

/-- A segment adds its words, in the lane of the packet, to an unbounded
`sum`. -/
structure Adds (u : Ulong) (e : Endian) (d : Nat → UInt8) (mlen : Nat) (startedOnOdd : Bool)
    (sum : Nat) (after : Bool × Nat) : Prop where
  lane : after.1 = (startedOnOdd ^^ oddLen mlen)
  same : Same after.2 (sum + Netinet.lane startedOnOdd (wordSum e (slice d 0 mlen)))
  bound : after.2 ≤ sum + (mlen / (16 * u.operandBytes) + 1) * (2 * u.operand)

theorem lanes_compose (addr : Nat) (startedOnOdd : Bool) (pos : 0 < mlen) :
    Same (lane (if addr % 2 = 1 then !startedOnOdd else startedOnOdd)
        (firstByte e d addr + wordSum e (slice d (skew addr) (mlen - skew addr))))
      (lane startedOnOdd (wordSum e (slice d 0 mlen))) := by
  have swapped : (if addr % 2 = 1 then !startedOnOdd else startedOnOdd) =
      (startedOnOdd ^^ oddLen addr) := by
    unfold oddLen
    rcases mod_two_eq_zero_or_one addr with even | odd
    · simp [even]
    · simp [odd]
  rw [swapped]
  have inner := lane_same (startedOnOdd ^^ oddLen addr) (@firstByte_same e d addr mlen pos)
  refine inner.trans ((lane_lane _ _ _).trans ?_)
  rw [Bool.xor_assoc, Bool.xor_self, Bool.xor_false]
  exact refl _ _

theorem trailing_spec {u : Ulong} (swap : Bool) {mlen pos cnt tl part sum tail s' : Nat}
    (rm : tail + u.operand < u.acc) (even : cnt % 2 = 0) (split : cnt + tl % 2 = mlen)
    (same : Same (s' + lane swap tail)
      (sum + lane swap (part + wordSum e (slice d pos cnt)))) :
    Same (addPart u 0 swap s' (trailingByte u e d tl (pos + cnt) tail))
        (sum + lane swap (part + wordSum e (slice d pos mlen))) ∧
      addPart u 0 swap s' (trailingByte u e d tl (pos + cnt) tail) ≤
        s' + 2 * u.operand := by
  have byte : wordSum e (slice d (pos + cnt) (tl % 2)) ≤ 65535 := by
    rcases mod_two_eq_zero_or_one tl with no | one
    · simp [no, slice]
    · simpa [one, slice] using half_le e (d (pos + cnt)) 0
  have base := operand_ge u
  rw [trailingByte_spec e d u tl (pos + cnt) (by omega)]
  have added := addPart_spec swap s'
    (by omega : tail + wordSum e (slice d (pos + cnt) (tl % 2)) < u.acc)
  refine ⟨added.1.trans ?_, added.2⟩
  rw [lane_add, ← add_assoc]
  refine (same.add (refl _ _)).trans ?_
  rw [add_assoc sum, ← lane_add, add_assoc part, ← split]
  exact (refl _ _).add (lane_same swap
    ((refl _ _).add (wordSum_slice_even e d pos even (tl % 2)).symm))

/-- The loop of the 32-bit version on one segment. -/
def looped32 (addr mlen : Nat) (startedOnOdd : Bool) (sum : Nat) : Nat × Nat :=
  blockLoop .bits32 e d 0 (if addr % 2 = 1 then !startedOnOdd else startedOnOdd)
    ((mlen - skew addr) / 32) (skew addr) (firstByte e d addr) sum

theorem firstByte_small (addr : Nat) : firstByte e d addr < bits32.acc / 4 := by
  have fst := firstByte_le e d addr
  have v : bits32.acc / 4 = 2 ^ 30 := by decide
  omega

theorem accumulate32_total {addr mlen : Nat} (odd : Bool) (sum : Nat) :
    Same (accumulate32 e d 0 addr mlen odd sum).2
        (sum + lane (if addr % 2 = 1 then !odd else odd)
          (firstByte e d addr + wordSum e (slice d (skew addr) (mlen - skew addr)))) ∧
      (accumulate32 e d 0 addr mlen odd sum).2 ≤
        (looped32 e d addr mlen odd sum).2 + 2 * bits32.operand := by
  have rm := acc_room .bits32
  have base := operand_ge .bits32
  obtain ⟨isPos, tailLe, -, same⟩ := blockTail_spec e d .bits32
    (if addr % 2 = 1 then !odd else odd)
    (rfl : 32 = 16 * operandBytes .bits32) (mlen - skew addr) (skew addr) sum
    (firstByte_small e d addr)
  have bytes : operandBytes .bits32 = 2 := rfl
  rw [bytes] at isPos same
  obtain ⟨total, totalLe⟩ := @trailing_spec e d .bits32 _ (mlen - skew addr) (skew addr)
    ((mlen - skew addr) / 2 * 2) ((mlen - skew addr) % 32) _ _ _ _ (by omega)
    (by omega) (by omega) same
  rw [← isPos] at total totalLe
  exact ⟨total, totalLe⟩

theorem accumulate32_adds {addr : Nat} (pos : 0 < mlen) (odd : Bool) (sum : Nat) :
    Adds .bits32 e d mlen odd sum (accumulate32 e d 0 addr mlen odd sum) := by
  obtain ⟨total, totalLe⟩ := @accumulate32_total e d addr mlen odd sum
  refine ⟨?_, total.trans ((refl _ _).add (lanes_compose e d addr odd pos)),
    ?_⟩
  · have bit : bitSet ((mlen - skew addr) % 32) 1 = bitSet (mlen - skew addr) 1 := by
      have parity : (mlen - skew addr) % 32 % 2 = (mlen - skew addr) % 2 := by omega
      simp only [bitSet, Nat.div_one, parity]
    simp only [accumulate32, bit]
    exact lane_after addr mlen pos odd
  refine totalLe.trans ?_
  have sumLe := (blockLoop_spec .bits32 e d (if addr % 2 = 1 then !odd else odd)
    ((mlen - skew addr) / 32) (skew addr) sum (firstByte_small e d addr)).2.1
  have blks : (mlen - skew addr) / 32 ≤ mlen / 32 := Nat.div_le_div_right (sub_le _ _)
  have scaled := mul_le_mul_right (2 * bits32.operand) blks
  show (looped32 e d addr mlen odd sum).2 + _ ≤
    sum + (mlen / 32 + 1) * (2 * bits32.operand)
  rw [looped32, add_mul]
  omega

theorem extend_half (swap : Bool) {pos cnt part sum tail s' : Nat} (even : cnt % 2 = 0)
    (same : Same (s' + lane swap tail)
      (sum + lane swap (part + wordSum e (slice d pos cnt)))) :
    Same (s' + lane swap (tail + load16 e d (pos + cnt)))
      (sum + lane swap (part + wordSum e (slice d pos (cnt + 2)))) := by
  have extended := same.add (refl 65535 (lane swap (load16 e d (pos + cnt))))
  rw [add_assoc, ← lane_add, add_assoc sum, ← lane_add, add_assoc part] at extended
  refine extended.trans ((refl _ _).add (lane_same swap ((refl _ _).add ?_)))
  exact (wordSum_slice_even e d pos even 2).symm

theorem accumulateAligned64_spec (swap : Bool) (mlen pos sum : Nat) {part : Nat}
    (sml : part < bits64.acc / 4) :
    Same (accumulateAligned64 e d 0 swap mlen pos part sum)
        (sum + lane swap (part + wordSum e (slice d pos mlen))) ∧
      accumulateAligned64 e d 0 swap mlen pos part sum ≤
        sum + (mlen / 64 + 1) * (2 * bits64.operand) := by
  have rm := acc_room .bits64
  have base := operand_ge .bits64
  obtain ⟨isPos, tailLe, sumLe, same⟩ := blockTail_spec e d .bits64 swap
    (rfl : 64 = 16 * operandBytes .bits64) mlen pos sum sml
  have bytes : operandBytes .bits64 = 4 := rfl
  rw [bytes] at isPos same
  have lastHalf : load16 e d (pos + mlen / 4 * 4) ≤ 65535 := half_le e _ _
  simp only [accumulateAligned64]
  rw [add_mul, isPos]
  generalize (blockLoop .bits64 e d 0 swap (mlen / 64) pos part sum).2 = after at *
  generalize (tailLoads .bits64 e d (mlen % 64) [8, 4, 2, 1] (pos + mlen / 64 * 64)
    (blockLoop .bits64 e d 0 swap (mlen / 64) pos part sum).1).2 = tail at *
  -- Bit 1 of the length says whether a two-byte operand is left.
  by_cases set : bitSet (mlen % 64) 2 = true
  · have isSet : mlen % 64 / 2 % 2 = 1 := by simpa [bitSet] using set
    have noWrap : (tail + load16 e d (pos + mlen / 4 * 4)) % bits64.acc =
        tail + load16 e d (pos + mlen / 4 * 4) := mod_eq_of_lt (by omega)
    rw [if_pos set, if_pos set, noWrap, add_assoc pos]
    obtain ⟨total, totalLe⟩ := @trailing_spec e d .bits64 swap mlen pos (mlen / 4 * 4 + 2)
      (mlen % 64) part sum (tail + load16 e d (pos + mlen / 4 * 4)) after (by omega) (by omega)
      (by omega) (extend_half e d swap (by omega) same)
    exact ⟨total, by omega⟩
  · have notSet : mlen % 64 / 2 % 2 ≠ 1 := by
      intro isOne
      exact set (by simp [bitSet, isOne])
    rw [if_neg set, if_neg set]
    obtain ⟨total, totalLe⟩ := @trailing_spec e d .bits64 swap mlen pos (mlen / 4 * 4)
      (mlen % 64) part sum tail after (by omega) (by omega) (by omega) same
    exact ⟨total, by omega⟩

/-- The 64-bit loop adds an mbuf's words, at any address. -/
theorem accumulate64_adds {addr : Nat} (pos : 0 < mlen) (odd : Bool) (sum : Nat) :
    Adds .bits64 e d mlen odd sum (accumulate64 e d 0 addr mlen odd sum) := by
  have fst := firstByte_le e d addr
  have firstHalf : load16 e d (skew addr) ≤ 65535 := half_le e _ _
  have quarter : bits64.acc / 4 = 2 ^ 62 := by decide
  have rm := acc_room .bits64
  have compose := lanes_compose e d addr odd pos
  have fewer : (mlen - skew addr) / 64 ≤ mlen / 64 := Nat.div_le_div_right (sub_le _ _)
  have fewerBlocks := mul_le_mul_right (2 * bits64.operand) fewer
  have spec : Same (accumulate64 e d 0 addr mlen odd sum).2
      (sum + lane (if addr % 2 = 1 then !odd else odd)
        (firstByte e d addr + wordSum e (slice d (skew addr) (mlen - skew addr)))) ∧
      (accumulate64 e d 0 addr mlen odd sum).2 ≤
        sum + (mlen / 64 + 1) * (2 * bits64.operand) := by
    simp only [accumulate64]
    generalize (if addr % 2 = 1 then !odd else odd) = needsSwap
    by_cases misaligned : (addr + skew addr) / 2 % 2 = 1
    · rw [if_pos misaligned]
      by_cases short : mlen - skew addr < 2
      · rw [if_pos short]
        have beg : Same (sum + lane needsSwap (firstByte e d addr))
            (sum + lane needsSwap (firstByte e d addr + wordSum e (slice d (skew addr) 0))) :=
          refl _ _
        obtain ⟨total, totalLe⟩ := @trailing_spec e d .bits64 needsSwap (mlen - skew addr)
          (skew addr) 0 (mlen - skew addr) _ _ _ sum (by omega) (by omega) (by omega) beg
        rw [add_zero] at total totalLe
        refine ⟨total, ?_⟩
        rw [add_mul]
        omega
      rw [if_neg short, mod_eq_of_lt (by omega)]
      obtain ⟨total, totalLe⟩ := accumulateAligned64_spec e d needsSwap (mlen - skew addr - 2)
        (skew addr + 2) sum (by omega : firstByte e d addr + load16 e d (skew addr) < _)
      constructor
      · refine total.trans ((refl _ _).add (lane_same needsSwap ?_))
        rw [add_assoc]
        refine (refl _ _).add ?_
        have split := wordSum_slice_even e d (skew addr) (by decide : 2 % 2 = 0)
          (mlen - skew addr - 2)
        have len : 2 + (mlen - skew addr - 2) = mlen - skew addr := by omega
        rw [len] at split
        exact split.symm
      · have evenFewer : (mlen - skew addr - 2) / 64 ≤ mlen / 64 :=
          Nat.div_le_div_right (by omega)
        have scaled := mul_le_mul_right (2 * bits64.operand) evenFewer
        rw [add_mul] at totalLe ⊢
        omega
    · rw [if_neg misaligned]
      obtain ⟨total, totalLe⟩ := accumulateAligned64_spec e d needsSwap (mlen - skew addr)
        (skew addr) sum (by omega : firstByte e d addr < _)
      refine ⟨total, ?_⟩
      rw [add_mul] at totalLe ⊢
      omega
  refine ⟨?_, spec.1.trans ((refl _ _).add compose), spec.2⟩
  exact lane_after addr mlen pos odd

end Segment

theorem accumulate_adds (u : Ulong) (e : Endian) (m : Mbuf) (pos : 0 < mlen)
    (odd : Bool) (sum : Nat) :
    Adds u e m.data mlen odd sum (accumulate u e 0 m mlen odd sum) := by
  cases u with
  | bits32 => exact accumulate32_adds e m.data pos odd sum
  | bits64 => exact accumulate64_adds e m.data pos odd sum

theorem accumulateAligned64_mod (e : Endian) (d : Nat → UInt8) (modulus : Nat) (swap : Bool)
    (mlen pos part sum : Nat) :
    accumulateAligned64 e d modulus swap mlen pos part (sum % modulus) =
      accumulateAligned64 e d 0 swap mlen pos part sum % modulus := by
  simp only [accumulateAligned64, blockLoop_mod, addPart_mod]

theorem accumulate_mod (u : Ulong) (e : Endian) (modulus : Nat) (m : Mbuf) (mlen : Nat)
    (odd : Bool) (sum : Nat) : accumulate u e modulus m mlen odd (sum % modulus) =
      ((accumulate u e 0 m mlen odd sum).1,
        (accumulate u e 0 m mlen odd sum).2 % modulus) := by
  cases u with
  | bits32 => simp only [accumulate, accumulate32, blockLoop_mod, addPart_mod]
  | bits64 =>
    simp only [accumulate, accumulate64, addPart_mod, accumulateAligned64_mod,
      apply_ite (· % modulus)]

end NetBSD.Netinet
