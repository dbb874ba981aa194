import NetBSD.Libprop.Grammar
import Mathlib.Data.Nat.Digits.Lemmas

/-!
Owns the leaves read back: encoded strings, base64 and numbers in front of an end tag.
-/

namespace NetBSD.Libprop

open List Nat Decoded

section Strings

variable {tail : Text}

theorem decodeChar_encodeChar (c : UInt8) (tail : Text) :
    decodeChar (encodeChar c ++ tail) = .ok (c, tail) := by
  unfold encodeChar
  by_cases isLess : c = less
  · rw [isLess]
    rfl
  rw [if_neg isLess]
  by_cases isGreater : c = greater
  · rw [isGreater]
    rfl
  rw [if_neg isGreater]
  by_cases isAmpersand : c = ampersand
  · rw [isAmpersand]
    rfl
  · rw [if_neg isAmpersand, singleton_append, decodeChar, if_neg isAmpersand]
    rfl

theorem encodeChar_cons (c : UInt8) : ∃ fst tl, encodeChar c = fst :: tl ∧ fst ≠ less := by
  unfold encodeChar
  by_cases isLess : c = less
  · exact ⟨38, _, by rw [if_pos isLess]; rfl, by decide⟩
  · by_cases isGreater : c = greater
    · exact ⟨38, _, by rw [if_neg isLess, if_pos isGreater]; rfl, by decide⟩
    · by_cases isAmpersand : c = ampersand
      · exact ⟨38, _, by rw [if_neg isLess, if_neg isGreater, if_pos isAmpersand]; rfl, by decide⟩
      · exact ⟨c, [], by rw [if_neg isLess, if_neg isGreater, if_neg isAmpersand], isLess⟩

theorem decodeStringLoop_encode (s : Text) {steps tarindex : Nat}
    (suff : (encodeString s ++ less :: tail).length < steps) :
    decodeStringLoop none steps tarindex (encodeString s ++ less :: tail) =
      .ok (s, less :: tail) := by
  induction s generalizing steps tarindex with
  | nil =>
    obtain ⟨steps, rfl⟩ : ∃ few, steps = few + 1 := ⟨steps - 1, by omega⟩
    rfl
  | cons c s ih =>
    obtain ⟨steps, rfl⟩ : ∃ few, steps = few + 1 := ⟨steps - 1, by omega⟩
    obtain ⟨fst, tl, isEncoded, ge⟩ := encodeChar_cons c
    have isChar := decodeChar_encodeChar c (encodeString s ++ less :: tail)
    have isSplit : encodeString (c :: s) ++ less :: tail =
        encodeChar c ++ (encodeString s ++ less :: tail) := by
      unfold encodeString
      rw [flatMap_cons, append_assoc]
    rw [isSplit] at suff ⊢
    rw [isEncoded] at suff isChar ⊢
    rw [cons_append] at suff isChar ⊢
    rw [length_cons, length_append] at suff
    rw [decodeStringLoop, if_neg ge, isChar]
    simp only [scan_ok_bind]
    rw [ih (by omega)]
    rfl

theorem decodeString_encode (s : Text) :
    decodeString none (encodeString s ++ less :: tail) = .ok (s, less :: tail) :=
  decodeStringLoop_encode s (lt_succ_self _)

end Strings

section Base64

theorem base64_facts : ∀ output : Fin 64,
    propIsspace (base64At output) = false ∧ base64At output ≠ less ∧ base64At output ≠ pad64 ∧
      base64.idxOf? (base64At output) = some output.val := by
  decide +kernel

theorem or_low {a b i : Nat} (low : b < 2 ^ i) : a * 2 ^ i ||| b = a * 2 ^ i + b := by
  rw [mul_comm, ← two_pow_add_eq_or_of_lt low]

theorem and_mask (a i : Nat) : a &&& (2 ^ i - 1) = a % 2 ^ i := and_two_pow_sub_one_eq_mod a i

variable {a b c : Nat}

theorem first_output (byte : a < 256) : a >>> 2 < 64 := by
  rw [shiftRight_eq_div_pow]
  omega

theorem second_output (byte : b < 256) : ((a &&& 3) <<< 4) + (b >>> 4) < 64 := by
  rw [show (3 : Nat) = 2 ^ 2 - 1 from rfl, and_mask]
  omega

theorem third_output (byte : c < 256) : ((b &&& 15) <<< 2) + (c >>> 6) < 64 := by
  rw [show (15 : Nat) = 2 ^ 4 - 1 from rfl, and_mask]
  omega

theorem last_output (c : Nat) : c &&& 63 < 64 := by
  rw [show (63 : Nat) = 2 ^ 6 - 1 from rfl, and_mask]
  omega

theorem first_byte (byteA : a < 256) (byteB : b < 256) :
    (((a >>> 2) <<< 2) % 256 ||| (((a &&& 3) <<< 4) + (b >>> 4)) >>> 4) = a := by
  rw [show (3 : Nat) = 2 ^ 2 - 1 from rfl, and_mask]
  simp only [shiftLeft_eq, shiftRight_eq_div_pow]
  have hi : a / 2 ^ 2 * 2 ^ 2 % 256 = a / 2 ^ 2 * 2 ^ 2 := by omega
  rw [hi, or_low (by omega)]
  omega

theorem second_byte (byteB : b < 256) (byteC : c < 256) :
    (((((a &&& 3) <<< 4) + (b >>> 4)) &&& 15) <<< 4 |||
      (((b &&& 15) <<< 2) + (c >>> 6)) >>> 2) = b := by
  rw [show (3 : Nat) = 2 ^ 2 - 1 from rfl, show (15 : Nat) = 2 ^ 4 - 1 from rfl, and_mask, and_mask,
    and_mask]
  simp only [shiftLeft_eq]
  rw [or_low (by omega)]
  omega

theorem third_byte (byteC : c < 256) :
    (((((b &&& 15) <<< 2) + (c >>> 6)) &&& 3) <<< 6 ||| (c &&& 63)) = c := by
  rw [show (3 : Nat) = 2 ^ 2 - 1 from rfl, show (15 : Nat) = 2 ^ 4 - 1 from rfl,
    show (63 : Nat) = 2 ^ 6 - 1 from rfl, and_mask, and_mask, and_mask]
  simp only [shiftLeft_eq]
  rw [or_low (by omega)]
  omega

/-- A byte in front of what the rest of the main loop leaves. -/
def Decoded.prepend (byte : Nat) (rest : Decoded) : Decoded :=
  { rest with bytes := UInt8.ofNat byte :: rest.bytes }

variable {targsize : Option Nat} {tarindex byte output : Nat} {src : Text}

theorem decodeLoop_first (isOutput : output < 64) (rm : full targsize tarindex = false) :
    decodeLoop targsize tarindex 0 byte (base64At output :: src) =
      decodeLoop targsize tarindex 1 ((output <<< 2) % 256) src := by
  obtain ⟨notSpace, ge, notPad, idx⟩ := base64_facts ⟨output, isOutput⟩
  rw [decodeLoop, if_neg (by simp [notSpace]), if_neg ge, if_neg notPad]
  simp only [idx]
  rw [if_pos trivial, if_neg (by simp [rm])]

theorem decodeLoop_second (isOutput : output < 64) (rm : full targsize (tarindex + 1) = false) :
    decodeLoop targsize tarindex 1 byte (base64At output :: src) =
      (decodeLoop targsize (tarindex + 1) 2 ((output &&& 15) <<< 4) src).map
        (prepend (byte ||| output >>> 4)) := by
  obtain ⟨notSpace, ge, notPad, idx⟩ := base64_facts ⟨output, isOutput⟩
  rw [decodeLoop, if_neg (by simp [notSpace]), if_neg ge, if_neg notPad]
  simp only [idx]
  rw [if_neg (by decide), if_pos trivial, if_neg (by simp [rm])]
  cases decodeLoop targsize (tarindex + 1) 2 ((output &&& 15) <<< 4) src <;> rfl

theorem decodeLoop_third (isOutput : output < 64) (rm : full targsize (tarindex + 1) = false) :
    decodeLoop targsize tarindex 2 byte (base64At output :: src) =
      (decodeLoop targsize (tarindex + 1) 3 ((output &&& 3) <<< 6) src).map
        (prepend (byte ||| output >>> 2)) := by
  obtain ⟨notSpace, ge, notPad, idx⟩ := base64_facts ⟨output, isOutput⟩
  rw [decodeLoop, if_neg (by simp [notSpace]), if_neg ge, if_neg notPad]
  simp only [idx]
  rw [if_neg (by decide), if_neg (by decide), if_pos trivial, if_neg (by simp [rm])]
  cases decodeLoop targsize (tarindex + 1) 3 ((output &&& 3) <<< 6) src <;> rfl

theorem decodeLoop_last (isOutput : output < 64) (rm : full targsize tarindex = false) :
    decodeLoop targsize tarindex 3 byte (base64At output :: src) =
      (decodeLoop targsize (tarindex + 1) 0 0 src).map (prepend (byte ||| output)) := by
  obtain ⟨notSpace, ge, notPad, idx⟩ := base64_facts ⟨output, isOutput⟩
  rw [decodeLoop, if_neg (by simp [notSpace]), if_neg ge, if_neg notPad]
  simp only [idx]
  rw [if_neg (by decide), if_neg (by decide), if_neg (by decide), if_neg (by simp [rm])]
  cases decodeLoop targsize (tarindex + 1) 0 0 src <;> rfl

/-- What the main loop leaves of encoded bytes and `<`. -/
def decodedOf (bytes : List UInt8) (tail : Text) : Decoded :=
  if bytes.length % 3 = 0 then ⟨bytes, 0, false, less :: tail⟩
  else if bytes.length % 3 = 1 then ⟨bytes, 2, true, pad64 :: less :: tail⟩
  else ⟨bytes, 3, true, less :: tail⟩

theorem prepend_decodedOf (a b c : UInt8) (bytes : List UInt8) (tail : Text) :
    prepend a.toNat (prepend b.toNat (prepend c.toNat
      (decodedOf bytes tail))) = decodedOf (a :: b :: c :: bytes) tail := by
  have sameRest : (a :: b :: c :: bytes).length % 3 = bytes.length % 3 := by
    simp only [length_cons]
    omega
  unfold decodedOf prepend
  rw [sameRest, UInt8.ofNat_toNat, UInt8.ofNat_toNat, UInt8.ofNat_toNat]
  split
  · rfl
  · split
    · rfl
    · rfl

/-- The target has room for bytes and one more. -/
def Fits (targsize : Option Nat) (count : Nat) : Prop := ∀ size, targsize = some size → count < size

theorem Fits.full {cnt index : Nat} (fits : Fits targsize cnt) (below : index ≤ cnt) :
    Libprop.full targsize index = false := by
  unfold Libprop.full
  cases targsize with
  | none => rfl
  | some size =>
    have := fits size rfl
    simp only [Option.any_some, decide_eq_false_iff_not]
    omega

/-- Base64 decoding undoes the encoding up to the next `<`. -/
theorem decodeLoop_encode (bytes : List UInt8) (tail : Text) {tarindex : Nat}
    (fits : Fits targsize (tarindex + bytes.length)) (byte : Nat) :
    decodeLoop targsize tarindex 0 byte (encodeData bytes ++ less :: tail) =
      .ok (decodedOf bytes tail) := by
  induction bytes using encodeData.induct generalizing tarindex byte with
  | case1 a b c bytes ih =>
    have byteA := a.toNat_lt
    have byteB := b.toNat_lt
    have byteC := c.toNat_lt
    simp only [length_cons] at fits
    rw [encodeData, cons_append, cons_append, cons_append, cons_append,
      decodeLoop_first (first_output byteA) (fits.full (by omega)),
      decodeLoop_second (second_output byteB) (fits.full (by omega)),
      decodeLoop_third (third_output byteC) (fits.full (by omega)),
      decodeLoop_last (last_output _) (fits.full (by omega)),
      ih (fun size hsz => by have := fits size hsz; omega),
      first_byte byteA byteB, second_byte byteB byteC, third_byte byteC]
    exact congrArg Except.ok (prepend_decodedOf a b c bytes tail)
  | case2 a b =>
    have byteA := a.toNat_lt
    have byteB := b.toNat_lt
    have isThird : (b.toNat &&& 15) <<< 2 < 64 := third_output (c := 0) (by omega)
    have isByte : ((((a.toNat &&& 3) <<< 4) + (b.toNat >>> 4)) &&& 15) <<< 4 |||
        ((b.toNat &&& 15) <<< 2) >>> 2 = b.toNat := second_byte (c := 0) byteB (by omega)
    simp only [length_cons] at fits
    rw [encodeData, cons_append, cons_append, cons_append, cons_append,
      decodeLoop_first (first_output byteA) (fits.full (by omega)),
      decodeLoop_second (second_output byteB) (fits.full (by omega)),
      decodeLoop_third isThird (fits.full (by omega)), first_byte byteA byteB, isByte]
    unfold prepend
    rw [UInt8.ofNat_toNat, UInt8.ofNat_toNat]
    rfl
  | case3 a =>
    have byteA := a.toNat_lt
    have h2 : (a.toNat &&& 3) <<< 4 < 64 := second_output (b := 0) (by omega)
    have isByte : ((a.toNat >>> 2) <<< 2) % 256 ||| ((a.toNat &&& 3) <<< 4) >>> 4 = a.toNat :=
      first_byte (b := 0) byteA (by omega)
    simp only [length_cons] at fits
    rw [encodeData, cons_append, cons_append, cons_append, cons_append,
      decodeLoop_first (first_output byteA) (fits.full (by omega)),
      decodeLoop_second h2 (fits.full (by omega)), isByte]
    unfold prepend
    rw [UInt8.ofNat_toNat]
    rfl
  | case4 => rfl

theorem decodeData_encode (bytes : List UInt8) (tail : Text) (fits : Fits targsize bytes.length) :
    decodeData targsize (encodeData bytes ++ less :: tail) = .ok (bytes, less :: tail) := by
  unfold decodeData
  rw [decodeLoop_encode bytes tail (by rwa [zero_add])]
  unfold decodedOf
  by_cases whole : bytes.length % 3 = 0
  · rw [if_pos whole]
    rfl
  rw [if_neg whole]
  by_cases one : bytes.length % 3 = 1
  · rw [if_pos one]
    rfl
  · rw [if_neg one]
    rfl

end Base64

section Numbers

theorem digitValue_digitChar : ∀ digit : Fin 16, digitValue (digitChar digit) = digit := by
  decide

variable {base : Nat}

theorem digits_below {n digit : Nat} (sml : 1 < base ∧ base ≤ 16)
    (isIn : digit ∈ Nat.digits base n) : digit < base := digits_lt_base sml.1 isIn

theorem isDigit_toDigits (sml : 1 < base ∧ base ≤ 16) (n : Nat) :
    ∀ c ∈ toDigits base n, isDigit base c = true := by
  intro c isIn
  unfold toDigits at isIn
  split at isIn
  · obtain rfl := mem_singleton.mp isIn
    exact decide_eq_true (lt_trans zero_lt_one sml.1)
  obtain ⟨digit, isDigit, rfl⟩ := mem_map.mp (mem_reverse.mp isIn)
  have below := digits_below sml isDigit
  have val := digitValue_digitChar ⟨digit, by omega⟩
  unfold Libprop.isDigit
  rw [val]
  exact decide_eq_true below

theorem toDigits_ne_nil (base n : Nat) : toDigits base n ≠ [] := by
  unfold toDigits
  split
  · decide
  · rename_i nz
    simp only [ne_eq, reverse_eq_nil_iff, map_eq_nil_iff]
    exact digits_ne_nil_iff_ne_zero.mpr nz

theorem digitsValue_toDigits (sml : 1 < base ∧ base ≤ 16) (n : Nat) :
    digitsValue base (toDigits base n) = n := by
  unfold toDigits digitsValue
  split
  · rename_i zero
    rw [zero]
    simp [digitValue]
  rw [foldl_reverse]
  have isFold : ∀ digits : List Nat, (∀ digit ∈ digits, digit < base) →
      (digits.map digitChar).foldr (fun c v => v * base + digitValue c) 0 =
        Nat.ofDigits base digits := by
    intro digits below
    induction digits with
    | nil => rfl
    | cons digit digits ih =>
      have less := below digit mem_cons_self
      have val := digitValue_digitChar ⟨digit, by omega⟩
      rw [map_cons, foldr_cons, ofDigits_cons,
        ih (forall_mem_cons.mp below).2,
        val]
      rw [mul_comm, add_comm]
  rw [isFold _ fun digit isIn => digits_below sml isIn, ofDigits_digits]

theorem toDigits_head {base n : Nat} (sml : 1 < base ∧ base ≤ 16) (nz : n ≠ 0) :
    (toDigits base n).head? ≠ some 48 := by
  unfold toDigits
  rw [if_neg nz, head?_reverse, getLast?_map]
  intro zero
  obtain ⟨digit, last, isChar⟩ := Option.map_eq_some_iff.mp zero
  have isIn := mem_of_getLast? last
  have below := digits_below sml isIn
  have val := digitValue_digitChar ⟨digit, by omega⟩
  rw [isChar] at val
  have notNil : Nat.digits base n ≠ [] := digits_ne_nil_iff_ne_zero.mpr nz
  have lastNotZero := getLast_digit_ne_zero base nz
  rw [getLast?_eq_some_getLast notNil] at last
  apply lastNotZero
  rw [Option.some.inj last]
  exact val.symm

theorem digit_not_space {c : UInt8} (sml : base ≤ 16) (digit : isDigit base c = true) :
    isspace c = false ∧ c ≠ 45 ∧ c ≠ 43 := by
  have lt : digitValue c < base := of_decide_eq_true digit
  refine ⟨?_, ?_, ?_⟩
  · apply eq_false_of_ne_true
    intro space
    unfold isspace at space
    simp only [Bool.or_eq_true, decide_eq_true_eq, Bool.and_eq_true] at space
    have low : c.toNat < 48 := by
      rcases space with rfl | ⟨_, high⟩
      · decide
      · exact Nat.lt_of_le_of_lt (UInt8.le_iff_toNat_le.mp high) (by decide)
    unfold digitValue at lt
    rw [if_neg fun range => absurd range.1 (not_le.mpr low),
      if_neg fun range => absurd (le_trans (by decide) range.1) (not_le.mpr low),
      if_neg fun range => absurd (le_trans (by decide) range.1) (not_le.mpr low)] at lt
    omega
  · rintro rfl
    have val : digitValue 45 = 36 := rfl
    omega
  · rintro rfl
    have val : digitValue 43 = 36 := rfl
    omega

theorem takeWhile_digits {base : Nat} (sml : base ≤ 16) {digits tail : Text}
    (areDigits : ∀ c ∈ digits, isDigit base c = true) :
    (digits ++ less :: tail).takeWhile (isDigit base) = digits := by
  have notDigit : ¬ isDigit base less = true := by
    unfold isDigit
    have val : digitValue less = 36 := rfl
    rw [decide_eq_true_eq]
    omega
  rw [takeWhile_append_of_pos areDigits, takeWhile_cons_of_neg notDigit, append_nil]

theorem strto_digits (sml : base ≤ 16) {nptr digits tail : Text} {neg : Bool} {s : Text}
    (isSign : signOf (nptr.dropWhile isspace) = (neg, s))
    (isBase : baseOf s = (base, digits ++ less :: tail))
    (areDigits : ∀ c ∈ digits, isDigit base c = true) (notNil : digits ≠ []) :
    strto nptr = ⟨neg, digitsValue base digits, less :: tail⟩ := by
  have areTaken := @takeWhile_digits base sml digits tail areDigits
  unfold strto
  rw [isSign]
  dsimp only
  rw [isBase]
  rw [areTaken, if_neg notNil, drop_left]

theorem toDigits_cons {base : Nat} (sml : 1 < base ∧ base ≤ 16) (n : Nat) :
    ∃ fst tl, toDigits base n = fst :: tl ∧ isDigit base fst = true := by
  cases isDigits : toDigits base n with
  | nil => exact absurd isDigits (toDigits_ne_nil base n)
  | cons fst tl =>
    refine ⟨fst, tl, rfl, isDigit_toDigits sml n fst ?_⟩
    rw [isDigits]
    exact mem_cons_self

theorem baseOf_decimal (n : Nat) (tail : Text) : baseOf (toDigits 10 n ++ less :: tail) =
      (if n = 0 then 8 else 10, toDigits 10 n ++ less :: tail) := by
  unfold baseOf
  by_cases zero : n = 0
  · rw [zero]
    rfl
  · have nz := @toDigits_head 10 _ (by decide) zero
    obtain ⟨fst, tl, isDigits, _⟩ := @toDigits_cons 10 (by decide) n
    rw [isDigits] at nz ⊢
    have stillNotZero : (fst :: (tl ++ less :: tail)).head? ≠ some 48 := nz
    rw [cons_append, if_neg stillNotZero, if_neg zero]

theorem strto_decimal {n : Nat} {nptr tail : Text} {neg : Bool}
    (isSign : signOf (nptr.dropWhile isspace) = (neg, toDigits 10 n ++ less :: tail)) :
    strto nptr = ⟨neg, n, less :: tail⟩ := by
  have isBase := baseOf_decimal n tail
  by_cases zero : n = 0
  · rw [if_pos zero] at isBase
    rw [zero] at isBase isSign ⊢
    exact strto_digits (by decide) isSign isBase (by decide) (by decide)
  · rw [if_neg zero] at isBase
    rw [strto_digits (by decide) isSign isBase (isDigit_toDigits (by decide) n)
      (toDigits_ne_nil 10 n), digitsValue_toDigits (by decide)]

theorem strto_unsigned (n : Nat) (tail : Text) :
    strto (toDigits 10 n ++ less :: tail) = ⟨false, n, less :: tail⟩ := by
  apply strto_decimal
  obtain ⟨fst, tl, isDigits, digit⟩ := @toDigits_cons 10 (by decide) n
  obtain ⟨notSpace, notMinus, notPlus⟩ := digit_not_space (by decide) digit
  rw [isDigits, cons_append, dropWhile_cons_of_neg (by simp [notSpace])]
  unfold signOf
  rw [if_neg (by simpa using notMinus), if_neg (by simpa using notPlus)]

theorem strto_minus (n : Nat) (tail : Text) :
    strto (45 :: (toDigits 10 n ++ less :: tail)) = ⟨true, n, less :: tail⟩ := by
  apply strto_decimal
  rfl

theorem strto_hex (n : Nat) (tail : Text) :
    strto (chars "0x" ++ (toDigits 16 n ++ less :: tail)) = ⟨false, n, less :: tail⟩ := by
  obtain ⟨fst, tl, isDigits, digit⟩ := @toDigits_cons 16 (by decide) n
  have isSign : signOf ((chars "0x" ++ (toDigits 16 n ++ less :: tail)).dropWhile isspace) =
      (false, chars "0x" ++ (toDigits 16 n ++ less :: tail)) := rfl
  have isBase : baseOf (chars "0x" ++ (toDigits 16 n ++ less :: tail)) =
      (16, toDigits 16 n ++ less :: tail) := by
    rw [isDigits]
    show (if (some 48 : Option UInt8) = some 48 then _ else _) = _
    rw [if_pos rfl]
    exact if_pos ⟨.inl rfl, digit⟩
  rw [strto_digits (by decide) isSign isBase (isDigit_toDigits (by decide) n)
    (toDigits_ne_nil 16 n), digitsValue_toDigits (by decide)]

theorem strtoull_small {n : Nat} (below : n < 18446744073709551616) (endptr : Text) :
    strtoull ⟨false, n, endptr⟩ = (n, false) := by
  unfold strtoull
  rw [if_pos (le_of_lt_succ below), if_neg Bool.false_ne_true]

theorem strtoll_value (v : Int64) (endptr : Text) :
    strtoll ⟨decide (v.toInt < 0), v.toInt.natAbs, endptr⟩ = (v.toInt, false) := by
  have low := v.le_toInt
  have high := v.toInt_lt
  unfold strtoll
  by_cases isNegative : v.toInt < 0
  · rw [if_pos (by simpa using isNegative), if_pos (by dsimp only; omega)]
    dsimp only
    congr 1
    omega
  · rw [if_neg (by simpa using isNegative), if_pos (by dsimp only; omega)]
    dsimp only
    congr 1
    omega

theorem internalizeSigned_value (errno : Bool) {v : Int64} {cp endptr : Text}
    (isNumber : strto cp = ⟨decide (v.toInt < 0), v.toInt.natAbs, endptr⟩) :
    internalizeSigned errno cp = .ok (.signed v, endptr) := by
  unfold internalizeSigned
  dsimp only
  rw [isNumber, strtoll_value]
  rw [Bool.and_false, Int64.ofInt_toInt]
  rfl

theorem decimal_start (n : Nat) (tail : Text) : (toDigits 10 n ++ less :: tail).headD 0 ≠ 45 ∧
      (chars "0x").isPrefixOf (toDigits 10 n ++ less :: tail) = false := by
  by_cases zero : n = 0
  · rw [zero]
    exact ⟨show (48 : UInt8) ≠ 45 by decide, rfl⟩
  have nz := @toDigits_head 10 _ (by decide) zero
  obtain ⟨fst, tl, isDigits, digit⟩ := @toDigits_cons 10 (by decide) n
  obtain ⟨_, notMinus, _⟩ := digit_not_space (by decide) digit
  rw [isDigits] at nz ⊢
  refine ⟨notMinus, ?_⟩
  have notFirst : ((48 : UInt8) == fst) = false := beq_false_of_ne fun same => by
    rw [← same] at nz
    exact nz rfl
  show ((48 : UInt8) == fst && _) = false
  rw [notFirst, Bool.false_and]

theorem internalizeNumber_encode (errno : Bool) (v : Number) (tail : Text) :
    internalizeNumber errno (encodeNumber v ++ less :: tail) = .ok (v, less :: tail) := by
  cases v with
  | unsigned v =>
    have isNumber := strto_hex v.toNat tail
    unfold encodeNumber internalizeNumber
    rw [append_assoc]
    unfold internalizeUnsigned
    dsimp only
    rw [isNumber, strtoull_small v.toNat_lt]
    rw [Bool.and_false, UInt64.ofNat_toNat]
    rfl
  | signed v =>
    unfold encodeNumber internalizeNumber
    by_cases isNegative : v.toInt < 0
    · have isNumber := strto_minus v.toInt.natAbs tail
      rw [← decide_eq_true isNegative] at isNumber
      dsimp only
      rw [if_pos isNegative, cons_append]
      simp only [charAt_cons, scan_ok_bind]
      rw [if_pos trivial, internalizeSigned_value errno isNumber]
    have isNumber := strto_unsigned v.toInt.natAbs tail
    rw [← decide_eq_false isNegative] at isNumber
    obtain ⟨notMinus, notHex⟩ := decimal_start v.toInt.natAbs tail
    dsimp only
    rw [if_neg isNegative, charAt_zero, looksAt_zero (by decide)]
    simp only [scan_ok_bind]
    rw [if_neg notMinus, if_neg (by simp [notHex]), internalizeSigned_value errno isNumber]

end Numbers

end NetBSD.Libprop
