import Mathlib.Algebra.BigOperators.Fin
import NetBSD.Arith.ByteOrder
import NetBSD.Arith.Ones

/-!
Owns the prefix translation of RFC 6296: `npf_npt66_rwr` of
`sys/net/npf/npf_inet.c` and `npfctl_npt66_calcadj` of
`usr.sbin/npf/npfctl/npf_data.c`. An address is eight 16-bit words as the machine
loads them, so which bits of a word are its first ones depends on the byte order.
-/

namespace NetBSD.Net.Npf

open NetBSD.Arith Function Nat BitVec Finset
open scoped BigOperators

abbrev Addr6 := Fin 8 → UInt16

def foldSum (sum : Nat) : Nat :=
  if sum / 65536 ≠ 0 then foldSum (sum / 65536 + sum % 65536) else sum
termination_by sum
decreasing_by omega

def wordmask (remnant : Nat) : UInt16 := UInt16.ofNat (2 ^ remnant - 1)

def prefixSum (len : Nat) (addr : Addr6) : Nat :=
  (List.finRange 8).foldl (fun sum i =>
      if i.val < len / 16 then sum + (addr i).toNat
      else if i.val = len / 16 then sum + (addr i &&& wordmask (len % 16)).toNat
      else sum) 0

def npfctlNpt66Calcadj (len : Nat) (prefIn prefOut : Addr6) : UInt16 :=
  let isum := foldSum (prefixSum len prefIn)
  let osum := foldSum (prefixSum len prefOut)
  UInt16.ofNat (foldSum ((isum + (0xffffffff - osum)) % 2 ^ 32))

/-- The test of `npf_npt66_rwr` for addresses that it does not translate. -/
def refuses (len : Nat) (addr : Addr6) : Bool :=
  if len ≤ 48 then addr 3 == 0xffff
  else (addr 4 == 0 && addr 5 == 0 && addr 6 == 0 && addr 7 == 0) ||
    (addr 4 == 0xffff && addr 5 == 0xffff && addr 6 == 0xffff && addr 7 == 0xffff)

def adjustedWord (len : Nat) (addr : Addr6) : Fin 8 :=
  if len ≤ 48 then 3
  else if addr 4 ≠ 0xffff then 4
  else if addr 5 ≠ 0xffff then 5
  else if addr 6 ≠ 0xffff then 6
  else 7

def rewritePrefix (len : Nat) (addr pref : Addr6) : Addr6 := fun i =>
  if i.val < len / 16 then pref i
  else if i.val = len / 16 ∧ len % 16 ≠ 0 then
    pref i &&& wordmask (len % 16) ||| addr i &&& ~~~wordmask (len % 16)
  else addr i

def adjustWord (word adj : UInt16) : UInt16 :=
  let sum := foldSum (word.toNat + adj.toNat)
  if sum = 0xffff then 0 else UInt16.ofNat sum

def npfNpt66Rwr (ip6 : Bool) (addr pref : Addr6) (len : Nat) (adj : UInt16) : Option Addr6 :=
  if !ip6 then none
  else if refuses len addr then none
  else
    let rewritten := rewritePrefix len addr pref
    let word := adjustedWord len addr
    some (update rewritten word (adjustWord (rewritten word) adj))

/-! ### The claim of RFC 6296 -/

def bit16 (word : UInt16) (bit : Nat) : Bool := word.toBitVec.getLsbD bit

/-- The first `len` bits on the wire agree. -/
def SamePrefix (order : ByteOrder) (len : Nat) (left right : Addr6) : Prop :=
  ∀ i : Fin 8, ∀ bit < 16, 16 * i.val + netPos order bit < len →
    bit16 (left i) bit = bit16 (right i) bit

def wordSum (addr : Addr6) : Nat := ∑ i, (addr i).toNat

/-- Translation gives the outer prefix, keeps the ones'-complement sum and is undone by the
translation back. -/
structure Translates (order : ByteOrder) (len : Nat) (inner outer addr result : Addr6) : Prop where
  outward : SamePrefix order len result outer
  neutral : wordSum result ≡ wordSum addr [MOD 65535]
  inverse : npfNpt66Rwr true result inner len (~~~npfctlNpt66Calcadj len inner outer) = some addr

/-! ### Ones'-complement sums -/

theorem foldSum_sameSum (sum : Nat) : SameSum 65535 (foldSum sum) sum := by
  induction sum using Nat.strong_induction_on with
  | h sum ih =>
    rw [foldSum]
    split
    · have unit : 65536 ≡ 1 [MOD 65535] := by decide
      have folded := SameSum.fold unit (by omega) sum
      exact (ih _ (by omega)).trans folded
    · exact SameSum.refl 65535 sum

theorem foldSum_le (sum : Nat) : foldSum sum ≤ 65535 := by
  induction sum using Nat.strong_induction_on with
  | h sum ih =>
    rw [foldSum]
    split
    · exact ih _ (by omega)
    · omega

theorem foldSum_eq (sum : Nat) : foldSum sum = endAround 65535 sum :=
  (foldSum_sameSum sum).eq_endAround (by omega) (foldSum_le sum)

theorem toNat_adjustWord (word adj : UInt16) :
    (adjustWord word adj).toNat = (word.toNat + adj.toNat) % 65535 := by
  have bound := foldSum_le (word.toNat + adj.toNat)
  have cong := (foldSum_sameSum (word.toNat + adj.toNat)).1
  unfold Nat.ModEq at cong
  unfold adjustWord
  simp only
  split
  · rw [UInt16.toNat_zero]
    omega
  · rw [UInt16.toNat_ofNat']
    omega

/-- The adjustment is the difference of the sums, less one if the difference is positive. -/
theorem calcadj_modEq (len : Nat) (inner outer : Addr6) :
    (npfctlNpt66Calcadj len inner outer).toNat + endAround 65535 (prefixSum len outer) +
        (if endAround 65535 (prefixSum len outer) < endAround 65535 (prefixSum len inner)
          then 1 else 0) ≡
      endAround 65535 (prefixSum len inner) [MOD 65535] := by
  have innerBound := endAround_le (r := 65535) (by omega) (prefixSum len inner)
  have outerBound := endAround_le (r := 65535) (by omega) (prefixSum len outer)
  unfold npfctlNpt66Calcadj
  simp only [foldSum_eq (prefixSum len inner), foldSum_eq (prefixSum len outer)]
  generalize endAround 65535 (prefixSum len inner) = isum at *
  generalize endAround 65535 (prefixSum len outer) = osum at *
  have bound := foldSum_le ((isum + (0xffffffff - osum)) % 2 ^ 32)
  have cong := (foldSum_sameSum ((isum + (0xffffffff - osum)) % 2 ^ 32)).1
  rw [UInt16.toNat_ofNat']
  unfold Nat.ModEq at *
  split <;> omega

/-! ### The bits a mask keeps -/

theorem bit16_eq_testBit (word : UInt16)
    (bit : Nat) : bit16 word bit = word.toNat.testBit bit := rfl

theorem eq_of_bit16 {left right : UInt16} (same : ∀ bit < 16, bit16 left bit = bit16 right bit) :
    left = right := by
  apply UInt16.toBitVec_inj.mp
  apply eq_of_getLsbD_eq
  exact same

section Mask

variable {remnant : Nat} (sml : remnant < 16)

section Small

include sml

theorem toNat_wordmask : (wordmask remnant).toNat = 2 ^ remnant - 1 := by
  have below : 2 ^ remnant ≤ 2 ^ 16 := Nat.pow_le_pow_right (by omega) (by omega)
  rw [wordmask, UInt16.toNat_ofNat']
  omega

theorem toNat_and_wordmask (word : UInt16) :
    (word &&& wordmask remnant).toNat = word.toNat % 2 ^ remnant := by
  rw [UInt16.toNat_and, toNat_wordmask sml, and_two_pow_sub_one_eq_mod]

theorem bit16_wordmask (bit : Nat) : bit16 (wordmask remnant) bit = decide (bit < remnant) := by
  rw [bit16_eq_testBit, toNat_wordmask sml, testBit_two_pow_sub_one]

theorem bit16_blend (pref word : UInt16) {bit : Nat} (lt : bit < 16) :
    bit16 (pref &&& wordmask remnant ||| word &&& ~~~wordmask remnant) bit =
      if bit < remnant then bit16 pref bit else bit16 word bit := by
  have maskBit := bit16_wordmask sml bit
  unfold bit16 at *
  rw [UInt16.toBitVec_or, UInt16.toBitVec_and, UInt16.toBitVec_and, UInt16.toBitVec_not,
    getLsbD_or, getLsbD_and, getLsbD_and, getLsbD_not, maskBit]
  by_cases kept : bit < remnant <;> simp [kept, lt]

theorem toNat_blend (pref word : UInt16) :
    (pref &&& wordmask remnant ||| word &&& ~~~wordmask remnant).toNat + word.toNat % 2 ^ remnant =
      word.toNat + pref.toNat % 2 ^ remnant := by
  have parts : (pref &&& wordmask remnant ||| word &&& ~~~wordmask remnant).toNat =
      2 ^ remnant * (word.toNat / 2 ^ remnant) + pref.toNat % 2 ^ remnant := by
    apply eq_of_testBit_eq
    intro bit
    have low := mod_lt pref.toNat (Nat.two_pow_pos remnant)
    rw [testBit_two_pow_mul_add _ low, testBit_div_two_pow]
    rcases Nat.lt_or_ge bit 16 with lt | out
    · rw [← bit16_eq_testBit, bit16_blend sml pref word lt]
      by_cases kept : bit < remnant
      · simp [kept, bit16_eq_testBit]
      · simp [kept, bit16_eq_testBit, Nat.sub_add_cancel (Nat.le_of_not_lt kept)]
    have far (v : UInt16) : v.toNat.testBit bit = false := by
      apply testBit_lt_two_pow
      calc v.toNat < 2 ^ 16 := v.toNat_lt
        _ ≤ 2 ^ bit := Nat.pow_le_pow_right (by omega) out
    have notKept : ¬ bit < remnant := by omega
    simp [far, Nat.sub_add_cancel (Nat.le_of_not_lt notKept)]
  have split := div_add_mod word.toNat (2 ^ remnant)
  omega

end Small

theorem mod_eq_iff_bits (left right : UInt16) :
    left.toNat % 2 ^ remnant = right.toNat % 2 ^ remnant ↔
      ∀ bit < remnant, bit16 left bit = bit16 right bit := by
  constructor
  · intro same bit kept
    have bits := congrArg (fun v => Nat.testBit v bit) same
    simpa [kept, bit16_eq_testBit] using bits
  intro same
  apply eq_of_testBit_eq
  intro bit
  rw [testBit_mod_two_pow, testBit_mod_two_pow]
  by_cases kept : bit < remnant
  · have bits := same bit kept
    rw [bit16_eq_testBit, bit16_eq_testBit] at bits
    rw [bits]
  · simp [kept]

end Mask

/-! ### The words the translation changes -/

/-- What a word adds to the sum of a prefix. -/
def prefixPart (len : Nat) (addr : Addr6) (i : Fin 8) : Nat :=
  if i.val < len / 16 then (addr i).toNat
  else if i.val = len / 16 then (addr i).toNat % 2 ^ (len % 16)
  else 0

theorem prefixSum_eq (len : Nat) (addr : Addr6) :
    prefixSum len addr = ∑ i, prefixPart len addr i := by
  have sml : len % 16 < 16 := mod_lt len (by omega)
  have step (sum : Nat) (i : Fin 8) : (if i.val < len / 16 then sum + (addr i).toNat
        else if i.val = len / 16 then sum + (addr i &&& wordmask (len % 16)).toNat
        else sum) = sum + prefixPart len addr i := by
    rw [toNat_and_wordmask sml, prefixPart]
    split
    · rfl
    · split <;> rfl
  unfold prefixSum
  simp only [step]
  rw [Fin.sum_univ_eight]
  have indices : List.finRange 8 = [0, 1, 2, 3, 4, 5, 6, 7] := by decide
  rw [indices]
  simp only [List.foldl_cons, List.foldl_nil, Nat.zero_add]

theorem toNat_rewritePrefix (len : Nat) (addr pref : Addr6) (i : Fin 8) :
    (rewritePrefix len addr pref i).toNat + prefixPart len addr i =
      (addr i).toNat + prefixPart len pref i := by
  have sml : len % 16 < 16 := mod_lt len (by omega)
  unfold rewritePrefix prefixPart
  by_cases lt : i.val < len / 16
  · simp only [if_pos lt]
    omega
  by_cases last : i.val = len / 16
  · by_cases remnant : len % 16 = 0
    · simp [last, remnant, mod_one]
    · simp only [if_neg lt, if_pos last, if_pos (And.intro last remnant)]
      exact toNat_blend sml (pref i) (addr i)
  · simp [lt, last]

theorem wordSum_rewritePrefix (len : Nat) (addr pref : Addr6) :
    wordSum (rewritePrefix len addr pref) + prefixSum len addr =
      wordSum addr + prefixSum len pref := by
  rw [prefixSum_eq, prefixSum_eq, wordSum, wordSum, ← sum_add_distrib,
    ← sum_add_distrib]
  apply sum_congr rfl
  intro i _
  exact toNat_rewritePrefix len addr pref i

theorem wordSum_update (addr : Addr6) (word : Fin 8) (v : UInt16) :
    wordSum (update addr word v) + (addr word).toNat = wordSum addr + v.toNat := by
  unfold wordSum
  rw [← add_sum_erase Finset.univ (fun i => (addr i).toNat) (mem_univ word),
    ← add_sum_erase Finset.univ
      (fun i => (update addr word v i).toNat) (mem_univ word)]
  have tl : ∑ i ∈ Finset.univ.erase word, (update addr word v i).toNat =
      ∑ i ∈ Finset.univ.erase word, (addr i).toNat := by
    apply sum_congr rfl
    intro i mem
    rw [update_of_ne (ne_of_mem_erase mem)]
  rw [update_self]
  omega

variable {i : Fin 8}

theorem rewritePrefix_outside {len : Nat} (tail : len ≤ 16 * i.val) (addr pref : Addr6) :
    rewritePrefix len addr pref i = addr i := by
  have notInside : ¬ i.val < len / 16 := by omega
  have notLast : ¬ (i.val = len / 16 ∧ len % 16 ≠ 0) := by omega
  rw [rewritePrefix, if_neg notInside, if_neg notLast]

section Adjusted

variable {len : Nat} {addr result : Addr6}

theorem adjustedWord_outside (bound : len ≤ 64) (addr : Addr6) :
    len ≤ 16 * (adjustedWord len addr).val := by
  unfold adjustedWord
  split_ifs <;> simp <;> omega

theorem adjustedWord_ne_ones (acc : refuses len addr = false) :
    addr (adjustedWord len addr) ≠ 0xffff := by
  unfold refuses at acc
  unfold adjustedWord
  by_cases short : len ≤ 48
  · simpa [short] using acc
  · simp only [if_neg short] at acc ⊢
    by_cases four : addr 4 = 0xffff <;> by_cases five : addr 5 = 0xffff <;>
      by_cases six : addr 6 = 0xffff <;> simp_all

theorem adjustedWord_congr
    (same : ∀ i : Fin 8, 4 ≤ i.val → i ≠ adjustedWord len addr → result i = addr i)
    (notOnes : result (adjustedWord len addr) ≠ 0xffff) :
    adjustedWord len result = adjustedWord len addr := by
  unfold adjustedWord at *
  split_ifs at * <;> simp_all

end Adjusted

/-- What `npf_npt66_rwr` makes of an address that it translates. -/
def translated (len : Nat) (addr pref : Addr6) (adj : UInt16) : Addr6 :=
  update (rewritePrefix len addr pref) (adjustedWord len addr)
    (adjustWord (addr (adjustedWord len addr)) adj)

theorem npfNpt66Rwr_eq_some_iff {len : Nat} (bound : len ≤ 64) {addr pref result : Addr6}
    {adj : UInt16} : npfNpt66Rwr true addr pref len adj = some result ↔
      refuses len addr = false ∧ translated len addr pref adj = result := by
  have unch := rewritePrefix_outside (adjustedWord_outside bound addr) addr pref
  unfold npfNpt66Rwr translated
  cases refuses len addr with
  | true => simp
  | false => simp [unch]

theorem adjustWord_complement {word : UInt16} (notOnes : word ≠ 0xffff) (adj : UInt16) :
    adjustWord (adjustWord word adj) (~~~adj) = word := by
  have wordBound := word.toNat_lt
  have adjBound := adj.toNat_lt
  have ones : word.toNat ≠ 65535 := fun equal => notOnes (UInt16.toNat_inj.mp equal)
  have complement : (~~~adj).toNat = 65535 - adj.toNat := by
    rw [UInt16.toNat_not]
    rfl
  apply UInt16.toNat_inj.mp
  rw [toNat_adjustWord, toNat_adjustWord]
  omega

section Translated

variable {len : Nat} {addr pref : Addr6} {adj : UInt16}

theorem translated_adjusted : translated len addr pref adj (adjustedWord len addr) =
      adjustWord (addr (adjustedWord len addr)) adj := by
  rw [translated, update_self]

theorem translated_other (oth : i ≠ adjustedWord len addr) :
    translated len addr pref adj i = rewritePrefix len addr pref i := by
  rw [translated, update_of_ne oth]

theorem translated_ne_ones : translated len addr pref adj (adjustedWord len addr) ≠ 0xffff := by
  intro ones
  have v := toNat_adjustWord (addr (adjustedWord len addr)) adj
  rw [translated_adjusted] at ones
  rw [ones] at v
  have below := mod_lt ((addr (adjustedWord len addr)).toNat + adj.toNat)
    (show 0 < 65535 by omega)
  rw [← v] at below
  exact absurd below (by decide)

theorem adjustedWord_translated (bound : len ≤ 64) :
    adjustedWord len (translated len addr pref adj) = adjustedWord len addr := by
  apply adjustedWord_congr _ translated_ne_ones
  intro i tail oth
  rw [translated_other oth, rewritePrefix_outside (by omega)]

theorem translated_inside (bound : len ≤ 64) (lt : i.val < len / 16) :
    translated len addr pref adj i = pref i := by
  have tail := adjustedWord_outside bound addr
  have oth : i ≠ adjustedWord len addr := by
    omega
  rw [translated_other oth, rewritePrefix, if_pos lt]

theorem translated_last (bound : len ≤ 64) (last : i.val = len / 16) (remnant : len % 16 ≠ 0) :
    translated len addr pref adj i =
      pref i &&& wordmask (len % 16) ||| addr i &&& ~~~wordmask (len % 16) := by
  have tail := adjustedWord_outside bound addr
  have oth : i ≠ adjustedWord len addr := by
    omega
  have notInside : ¬ i.val < len / 16 := by omega
  rw [translated_other oth, rewritePrefix, if_neg notInside, if_pos ⟨last, remnant⟩]

end Translated

/-! ### When the translation does what RFC 6296 asks -/

/-- Every prefix bit that the mask misses is the same in both prefixes. -/
def MissedBitsAgree (order : ByteOrder) (len : Nat) (inner outer : Addr6) : Prop :=
  ∀ i : Fin 8, i.val = len / 16 → ∀ bit < 16, len % 16 ≤ bit → netPos order bit < len % 16 →
    bit16 (inner i) bit = bit16 (outer i) bit

/-- Every bit that the mask takes is the same in the address and in the inner prefix. -/
def TakenBitsAgree (len : Nat) (inner addr : Addr6) : Prop :=
  ∀ i : Fin 8, i.val = len / 16 → ∀ bit < len % 16, bit16 (addr i) bit = bit16 (inner i) bit

/-- The translated host part is zero, which `npf_npt66_rwr` refuses. -/
def VanishingHost (len : Nat) (inner outer addr : Addr6) : Prop :=
  48 < len ∧ addr 4 ≠ 0xffff ∧ addr 5 = 0 ∧ addr 6 = 0 ∧ addr 7 = 0 ∧
    (addr 4).toNat + prefixSum len inner ≡ prefixSum len outer [MOD 65535]

structure Translatable (order : ByteOrder) (len : Nat) (inner outer addr : Addr6) : Prop where
  missed : MissedBitsAgree order len inner outer
  taken : TakenBitsAgree len inner addr
  ordered : endAround 65535 (prefixSum len inner) ≤ endAround 65535 (prefixSum len outer)
  remains : ¬ VanishingHost len inner outer addr

section Conditions

variable {order : ByteOrder} {len : Nat} (bound : len ≤ 64) {inner outer addr : Addr6}
  (within : SamePrefix order len addr inner)

include within

theorem eq_inner_of_inside (lt : i.val < len / 16) : addr i = inner i := by
  apply eq_of_bit16
  intro bit sml
  apply within i bit sml
  have pos : netPos order bit < 16 := by
    cases order <;> simp only [netPos] <;> omega
  omega

include bound

theorem outward_iff (adj : UInt16) : SamePrefix order len (translated len addr outer adj) outer ↔
      MissedBitsAgree order len inner outer := by
  have sml : len % 16 < 16 := mod_lt len (by omega)
  constructor
  · intro outward i last bit lt notTaken missed
    have result := outward i bit lt (by omega)
    rw [translated_last bound last (by omega), bit16_blend sml _ _ lt,
      if_neg (by omega)] at result
    rw [← within i bit lt (by omega), result]
  intro agree i bit lt fst
  rcases lt_or_ge i.val (len / 16) with prev | ge
  · rw [translated_inside bound prev]
  have last : i.val = len / 16 := by omega
  rw [translated_last bound last (by omega), bit16_blend sml _ _ lt]
  split
  · rfl
  · rw [within i bit lt fst]
    exact agree i last bit lt (by omega) (by omega)

/-- The way back restores the address exactly on agreeing bits. -/
theorem inverse_iff (acc : refuses len addr = false) (adj : UInt16) :
    npfNpt66Rwr true (translated len addr outer adj) inner len (~~~adj) = some addr ↔
      refuses len (translated len addr outer adj) = false ∧ TakenBitsAgree len inner addr := by
  have sml : len % 16 < 16 := mod_lt len (by omega)
  have eqWord : adjustedWord len (translated len addr outer adj) = adjustedWord len addr :=
    adjustedWord_translated bound
  rw [npfNpt66Rwr_eq_some_iff bound]
  apply and_congr_right
  intro _
  constructor
  · intro back i last bit taken
    have word := congrFun back i
    rw [translated_last bound last (by omega)] at word
    rw [← word, bit16_blend sml _ _ (by omega), if_pos taken]
  intro agree
  funext i
  rcases lt_or_ge i.val (len / 16) with prev | ge
  · rw [translated_inside bound prev, eq_inner_of_inside within prev]
  by_cases middle : i.val = len / 16 ∧ len % 16 ≠ 0
  · obtain ⟨last, remnant⟩ := middle
    rw [translated_last bound last remnant, translated_last bound last remnant]
    apply eq_of_bit16
    intro bit lt
    rw [bit16_blend sml _ _ lt, bit16_blend sml _ _ lt]
    split
    · exact (agree i last bit (by assumption)).symm
    · rfl
  have tail : len ≤ 16 * i.val := by omega
  by_cases adjusted : i = adjustedWord len addr
  · rw [adjusted, ← eqWord, translated_adjusted, eqWord, translated_adjusted]
    exact adjustWord_complement (adjustedWord_ne_ones acc) adj
  · have otherBack : i ≠ adjustedWord len (translated len addr outer adj) := by
      rw [eqWord]
      exact adjusted
    rw [translated_other otherBack, rewritePrefix_outside tail, translated_other adjusted,
      rewritePrefix_outside tail]

omit bound in
theorem prefixSum_inner (agree : TakenBitsAgree len inner addr) :
    prefixSum len addr = prefixSum len inner := by
  rw [prefixSum_eq, prefixSum_eq]
  apply sum_congr rfl
  intro i _
  unfold prefixPart
  split
  · rename_i prev
    rw [eq_inner_of_inside within prev]
  · split
    · rename_i last
      exact (mod_eq_iff_bits (addr i) (inner i)).mpr (agree i last)
    · rfl

theorem neutral_iff (agree : TakenBitsAgree len inner addr) :
    wordSum (translated len addr outer (npfctlNpt66Calcadj len inner outer)) ≡ wordSum addr
        [MOD 65535] ↔
      endAround 65535 (prefixSum len inner) ≤ endAround 65535 (prefixSum len outer) := by
  have unch := rewritePrefix_outside (adjustedWord_outside bound addr) addr outer
  have rewritten := wordSum_rewritePrefix len addr outer
  have updated := wordSum_update (rewritePrefix len addr outer) (adjustedWord len addr)
    (adjustWord (addr (adjustedWord len addr)) (npfctlNpt66Calcadj len inner outer))
  have adjustment := calcadj_modEq len inner outer
  have innerSum := (endAround_sameSum 65535 (prefixSum len inner)).1
  have outerSum := (endAround_sameSum 65535 (prefixSum len outer)).1
  rw [prefixSum_inner within agree] at rewritten
  rw [unch, toNat_adjustWord] at updated
  unfold translated
  unfold Nat.ModEq at *
  split at adjustment <;> omega

end Conditions

/-- When the way back is refused. -/
theorem refuses_translated {len : Nat} {addr pref : Addr6} {adj : UInt16} (bound : len ≤ 64) :
    refuses len (translated len addr pref adj) = true ↔
      48 < len ∧ addr 4 ≠ 0xffff ∧ addr 5 = 0 ∧ addr 6 = 0 ∧ addr 7 = 0 ∧
        ((addr 4).toNat + adj.toNat) % 65535 = 0 := by
  have notOnes : translated len addr pref adj (adjustedWord len addr) ≠ 0xffff :=
    translated_ne_ones
  by_cases short : len ≤ 48
  · have third : adjustedWord len addr = 3 := by rw [adjustedWord, if_pos short]
    rw [third] at notOnes
    simp [refuses, short, notOnes]
  have oth (i : Fin 8) (tail : 4 ≤ i.val) (diff : i ≠ adjustedWord len addr) :
      translated len addr pref adj i = addr i := by
    rw [translated_other diff, rewritePrefix_outside (by omega)]
  by_cases fourth : addr 4 = 0xffff
  · have later : adjustedWord len addr ≠ 4 := by
      rw [adjustedWord, if_neg short, if_neg (not_not.mpr fourth)]
      split_ifs <;> decide
    have kept := oth 4 (by decide) (Ne.symm later)
    have tail : adjustedWord len addr = 5 ∨ adjustedWord len addr = 6 ∨
        adjustedWord len addr = 7 := by
      rw [adjustedWord, if_neg short, if_neg (not_not.mpr fourth)]
      split_ifs <;> simp
    rcases tail with word | word | word <;> rw [word] at notOnes <;>
      simp [refuses, short, kept, fourth, notOnes]
  have fst : adjustedWord len addr = 4 := by rw [adjustedWord, if_neg short, if_pos fourth]
  have v : translated len addr pref adj 4 = 0 ↔ ((addr 4).toNat + adj.toNat) % 65535 = 0 := by
    rw [← toNat_adjustWord, ← UInt16.toNat_inj, UInt16.toNat_zero]
    have same : translated len addr pref adj (adjustedWord len addr) =
      adjustWord (addr (adjustedWord len addr)) adj := translated_adjusted
    rw [fst] at same
    rw [same]
  rw [fst] at notOnes oth
  have five := oth 5 (by decide) (by decide)
  have six := oth 6 (by decide) (by decide)
  have seven := oth 7 (by decide) (by decide)
  rw [← v]
  simp only [refuses, if_neg short, five, six, seven, Bool.or_eq_true, Bool.and_eq_true, beq_iff_eq]
  have long : 48 < len := by omega
  tauto

/-- For every prefix length up to 64, `npf_npt66_rwr` with the adjustment of
`npfctl_npt66_calcadj` translates an address of the inner prefix as RFC 6296 asks exactly if it
refuses the address or the prefixes and the host part are of the kind that it handles. -/
theorem npfNpt66Rwr_translates_iff (order : ByteOrder) {len : Nat} (bound : len ≤ 64)
    {inner outer addr : Addr6} (within : SamePrefix order len addr inner) :
    (∀ result, npfNpt66Rwr true addr outer len (npfctlNpt66Calcadj len inner outer) = some result →
          Translates order len inner outer addr result) ↔
      refuses len addr = true ∨ Translatable order len inner outer addr := by
  have vanishing (ord : endAround 65535 (prefixSum len inner) ≤
      endAround 65535 (prefixSum len outer)) :
      refuses len (translated len addr outer (npfctlNpt66Calcadj len inner outer)) = true ↔
        VanishingHost len inner outer addr := by
    have adjustment := calcadj_modEq len inner outer
    have innerSum := (endAround_sameSum 65535 (prefixSum len inner)).1
    have outerSum := (endAround_sameSum 65535 (prefixSum len outer)).1
    rw [if_neg (by omega)] at adjustment
    rw [refuses_translated bound, VanishingHost]
    unfold Nat.ModEq at *
    have residues : ((addr 4).toNat + (npfctlNpt66Calcadj len inner outer).toNat) % 65535 = 0 ↔
        ((addr 4).toNat + prefixSum len inner) % 65535 = prefixSum len outer % 65535 := by
      omega
    rw [residues]
  cases accepted : refuses len addr with
  | true => simp [npfNpt66Rwr, accepted]
  | false =>
    simp only [npfNpt66Rwr_eq_some_iff bound, accepted, true_and, forall_eq', Bool.false_eq_true,
      false_or]
    constructor
    · intro translates
      obtain ⟨back, taken⟩ := (inverse_iff bound within accepted _).mp translates.inverse
      have ord := (neutral_iff bound within taken).mp translates.neutral
      refine ⟨(outward_iff bound within _).mp translates.outward, taken, ord, ?_⟩
      rw [← vanishing ord, back]
      simp
    intro translatable
    have back := mt (vanishing translatable.ordered).mp translatable.remains
    refine ⟨(outward_iff bound within _).mpr translatable.missed,
      (neutral_iff bound within translatable.taken).mpr translatable.ordered,
      (inverse_iff bound within accepted _).mpr ⟨?_, translatable.taken⟩⟩
    simpa using back

def localPrefix : Addr6 := ![0xfd01, 0x203, 0x405, 0, 0, 0, 0, 0]

def globalPrefix : Addr6 := ![0x2001, 0xdb8, 1, 0, 0, 0, 0, 0]

/-- An address under a local prefix of 48 bits, translated to the global one. -/
theorem npfNpt66Rwr_translates_localToGlobal :
    Translates .big 48 localPrefix globalPrefix ![0xfd01, 0x203, 0x405, 1, 0, 0, 0, 0x1234]
      ![0x2001, 0xdb8, 1, 0xd550, 0, 0, 0, 0x1234] := by
  have within : SamePrefix .big 48 ![0xfd01, 0x203, 0x405, 1, 0, 0, 0, 0x1234] localPrefix := by
    unfold SamePrefix
    decide +kernel
  have missed : MissedBitsAgree .big 48 localPrefix globalPrefix := by
    intro i last bit lt notTaken fst
    exact absurd fst (by omega)
  have taken : TakenBitsAgree 48 localPrefix ![0xfd01, 0x203, 0x405, 1, 0, 0, 0, 0x1234] := by
    intro i last bit taken
    exact absurd taken (by omega)
  have translatable : Translatable .big 48 localPrefix globalPrefix
      ![0xfd01, 0x203, 0x405, 1, 0, 0, 0, 0x1234] :=
    ⟨missed, taken, by decide, fun vanishing => absurd vanishing.1 (by omega)⟩
  apply (npfNpt66Rwr_translates_iff .big (by omega) within).mpr (Or.inr translatable)
  rw [npfNpt66Rwr_eq_some_iff (by omega)]
  simp only [translated, adjustWord]
  decide +kernel

/-- The other way round the sum changes by one. -/
theorem npfNpt66Rwr_notNeutral :
    SamePrefix .big 48 ![0x2001, 0xdb8, 1, 1, 0, 0, 0, 0x1234] globalPrefix ∧
      npfNpt66Rwr true ![0x2001, 0xdb8, 1, 1, 0, 0, 0, 0x1234] localPrefix 48
          (npfctlNpt66Calcadj 48 globalPrefix localPrefix) =
        some ![0xfd01, 0x203, 0x405, 0x2ab0, 0, 0, 0, 0x1234] ∧
      ¬ wordSum ![0xfd01, 0x203, 0x405, 0x2ab0, 0, 0, 0, 0x1234] ≡
        wordSum ![0x2001, 0xdb8, 1, 1, 0, 0, 0, 0x1234] [MOD 65535] := by
  refine ⟨?_, ?_, ?_⟩
  · unfold SamePrefix
    decide +kernel
  · rw [npfNpt66Rwr_eq_some_iff (by omega)]
    decide +kernel
  · unfold wordSum
    decide +kernel

end NetBSD.Net.Npf
