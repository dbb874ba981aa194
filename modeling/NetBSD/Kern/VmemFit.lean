import Mathlib.Data.Nat.Bitwise
import NetBSD.Arith.Align

/-!
Owns `vmem_fit` of `sys/kern/subr_vmem.c`: the first address of a free segment that
satisfies the restrictions of a request. It is looked for in the arithmetic of 64 bits,
so a segment at the end of the address space may have its start rounded over that end.
-/

namespace NetBSD.Kern.Vmem

open NetBSD.Arith Nat BitVec

abbrev VmemAddr := BitVec 64

def vmemAlignup (addr align : VmemAddr) : VmemAddr := -(-addr &&& -align)

def vmemCrossP (addr1 addr2 boundary : VmemAddr) : Bool :=
  decide ((addr1 ^^^ addr2) &&& -boundary ≠ 0)

/-- The range of a boundary tag. -/
structure Segment where
  bt_start : VmemAddr
  bt_size : VmemAddr
deriving DecidableEq, Repr

def Segment.btEnd (bt : Segment) : VmemAddr := bt.bt_start + bt.bt_size - 1

/-- The arguments of `vmem_fit` but the boundary tag. -/
structure Request where
  size : VmemAddr
  align : VmemAddr
  phase : VmemAddr
  nocross : VmemAddr
  minaddr : VmemAddr
  maxaddr : VmemAddr
deriving DecidableEq, Repr

def clippedStart (bt : Segment) (r : Request) : VmemAddr :=
  if bt.bt_start < r.minaddr then r.minaddr else bt.bt_start

def clippedEnd (bt : Segment) (r : Request) : VmemAddr :=
  if r.maxaddr < bt.btEnd then r.maxaddr else bt.btEnd

def alignedStart (bt : Segment) (r : Request) : VmemAddr :=
  let start := vmemAlignup (clippedStart bt r - r.phase) r.align + r.phase
  if start < bt.bt_start then start + r.align else start

def fitStart (bt : Segment) (r : Request) : VmemAddr :=
  let start := alignedStart bt r
  if vmemCrossP start (start + r.size - 1) r.nocross then
    vmemAlignup (start - r.phase) r.nocross + r.phase
  else start

/-- `vmem_fit`, without its assertions; `ENOMEM` is none. -/
def vmemFit (bt : Segment) (r : Request) : Option VmemAddr :=
  if clippedEnd bt r < clippedStart bt r then none
  else if fitStart bt r ≤ clippedEnd bt r ∧ r.size - 1 ≤ clippedEnd bt r - fitStart bt r then
    some (fitStart bt r)
  else none

/-! ### What a request asks for -/

/-- The segment lies in the address space. -/
structure Segment.Inside (bt : Segment) : Prop where
  positive : 0 < bt.bt_size.toNat
  upTo : bt.bt_start.toNat + bt.bt_size.toNat ≤ 2 ^ 64

/-- What `vmem_xalloc` asserts of the arguments it passes on. -/
structure Request.WellFormed (r : Request) : Prop where
  size : 0 < r.size.toNat
  align : IsPowerOfTwo r.align
  phase : r.phase.toNat < r.align.toNat
  nocross : r.nocross.toNat = 0 ∨ IsPowerOfTwo r.nocross ∧ r.size.toNat ≤ r.nocross.toNat
  ordered : r.minaddr.toNat ≤ r.maxaddr.toNat

/-- A block of the size of the request crosses a multiple of `nocross`. -/
def Crosses (r : Request) (x : Nat) : Prop :=
  r.nocross.toNat ≠ 0 ∧ x / r.nocross.toNat ≠ (x + r.size.toNat - 1) / r.nocross.toNat

instance (r : Request) (x : Nat) : Decidable (Crosses r x) := inferInstanceAs (Decidable (_ ∧ _))

def first (bt : Segment) (r : Request) : Nat := max bt.bt_start.toNat r.minaddr.toNat

def last (bt : Segment) (r : Request) : Nat :=
  min (bt.bt_start.toNat + bt.bt_size.toNat - 1) r.maxaddr.toNat

structure Satisfies (bt : Segment) (r : Request) (x : Nat) : Prop where
  from_first : first bt r ≤ x
  to_last : x + r.size.toNat - 1 ≤ last bt r
  congruent : x ≡ r.phase.toNat [MOD r.align.toNat]
  uncrossed : ¬ Crosses r x

/-! ### The arithmetic of 64 bits -/

section Words

variable {a x phase : VmemAddr} {k : Nat}

theorem vmemAlignup_eq (pow : a.toNat = 2 ^ k) (lt : k < 64) :
    vmemAlignup x a = x + BitVec.ofNat 64 ((-x).toNat % 2 ^ k) := by
  have masked := toNat_and_neg pow lt (-x)
  have whole := div_add_mod (-x).toNat (2 ^ k)
  rw [vmemAlignup]
  bv_omega

/-- Aligning with a phase rounds up to the next number congruent to it, which may wrap. -/
theorem toNat_alignFrom (pow : a.toNat = 2 ^ k) (lt : k < 64) :
    (vmemAlignup (x - phase) a + phase).toNat =
      nextCongruent x.toNat phase.toNat a.toNat % 2 ^ 64 := by
  have shape : vmemAlignup (x - phase) a + phase =
      x + BitVec.ofNat 64 ((phase - x).toNat % 2 ^ k) := by
    have turned : -(x - phase) = phase - x := by bv_omega
    rw [vmemAlignup_eq pow lt, turned]
    bv_omega
  rw [shape, toNat_add_distance lt, pow]

/-- Two addresses lie on both sides of a multiple of a power of two, or of none for zero. -/
theorem vmemCrossP_iff {addr1 addr2 boundary : VmemAddr}
    (isBoundary : boundary.toNat = 0 ∨ IsPowerOfTwo boundary) :
    vmemCrossP addr1 addr2 boundary = true ↔ boundary.toNat ≠ 0 ∧
      addr1.toNat / boundary.toNat ≠ addr2.toNat / boundary.toNat := by
  rw [vmemCrossP, decide_eq_true_iff, Ne, ← toNat_inj]
  cases isBoundary with
  | inl none =>
    have eq0 : boundary = 0 := eq_of_toNat_eq none
    rw [eq0]
    simp
  | inr pow =>
    obtain ⟨k, lt, pow⟩ := pow
    have pos : 0 < 2 ^ k := Nat.two_pow_pos k
    rw [toNat_and_neg pow lt, toNat_xor, pow, ← shiftRight_eq_div_pow,
      ← shiftRight_eq_div_pow, ← shiftRight_eq_div_pow, shiftRight_xor_distrib]
    have zero : (0 : VmemAddr).toNat = 0 := rfl
    rw [and_iff_right (by omega), zero, Nat.mul_eq_zero, or_iff_right (by omega),
      Nat.xor_eq_zero_iff]

end Words

/-! ### The first address that a request can have -/

/-- The first address that is aligned, in unbounded arithmetic. -/
def aligned (bt : Segment) (r : Request) : Nat :=
  nextCongruent (first bt r) r.phase.toNat r.align.toNat

/-- From an address where a block would cross, the next one at the phase behind a multiple of
`nocross`. -/
def uncrossed (r : Request) (x : Nat) : Nat :=
  if Crosses r x then nextCongruent x r.phase.toNat r.nocross.toNat else x

/-- The rounding stays in the address space and ends where a block does not cross. -/
def Unwrapped (bt : Segment) (r : Request) : Prop :=
  uncrossed r (aligned bt r) < 2 ^ 64 ∧ ¬ Crosses r (uncrossed r (aligned bt r))

/-- Sizes far below that of the address space, and a phase at which a block does not cross, as
`vmem_xalloc` asserts. -/
structure Request.Moderate (r : Request) : Prop where
  size : r.size.toNat ≤ 2 ^ 61
  align : r.align.toNat ≤ 2 ^ 61
  nocross : r.nocross.toNat ≤ 2 ^ 61
  phase : ¬ Crosses r r.phase.toNat

/-- Where the rounding ends in 64 bits. -/
def landing (bt : Segment) (r : Request) : Nat :=
  let start :=
    if aligned bt r < 2 ^ 64 then aligned bt r
    else if aligned bt r - 2 ^ 64 < bt.bt_start.toNat then aligned bt r - 2 ^ 64 + r.align.toNat
    else aligned bt r - 2 ^ 64
  uncrossed r start % 2 ^ 64

section Least

variable {bt : Segment} {r : Request} {x : Nat}

theorem Request.WellFormed.align_pos (wf : r.WellFormed) : 0 < r.align.toNat :=
  zero_lt_of_lt wf.phase

theorem crosses_iff (pos : 0 < r.size.toNat) (bnd : r.nocross.toNat ≠ 0) :
    Crosses r x ↔ r.nocross.toNat < x % r.nocross.toNat + r.size.toNat := by
  have whole := div_add_mod x r.nocross.toNat
  unfold Crosses
  have shape : x + r.size.toNat - 1 =
      x % r.nocross.toNat + r.size.toNat - 1 + r.nocross.toNat * (x / r.nocross.toNat) := by omega
  rw [shape, add_mul_div_left _ _ (by omega)]
  by_cases sml : x % r.nocross.toNat + r.size.toNat - 1 < r.nocross.toNat
  · rw [div_eq_of_lt sml]
    omega
  · have atLeast := div_pos (not_lt.mp sml) (by omega)
    omega

theorem le_uncrossed : x ≤ uncrossed r x := by
  unfold uncrossed
  split
  · exact le_nextCongruent
  · exact le_refl _

theorem dvd_or_dvd {m n : VmemAddr} (pow : IsPowerOfTwo m) (isPower' : IsPowerOfTwo n) :
    m.toNat ∣ n.toNat ∨ n.toNat ∣ m.toNat := by
  obtain ⟨k, _, pow⟩ := pow
  obtain ⟨l, _, isPower'⟩ := isPower'
  rw [pow, isPower']
  cases le_total k l with
  | inl le => exact .inl (pow_dvd_pow 2 le)
  | inr le => exact .inr (pow_dvd_pow 2 le)

theorem mod_of_modEq {m p : Nat} (cong : x ≡ p [MOD m]) (sml : p < m) : x % m = p := by
  rw [cong, mod_eq_of_lt sml]

theorem phase_le_mod (wf : r.WellFormed) (dvd : r.align.toNat ∣ r.nocross.toNat)
    (cong : x ≡ r.phase.toNat [MOD r.align.toNat]) :
    r.phase.toNat ≤ x % r.nocross.toNat := by
  have isPhase := mod_of_modEq cong wf.phase
  rw [← mod_mod_of_dvd x dvd] at isPhase
  calc r.phase.toNat = x % r.nocross.toNat % r.align.toNat := isPhase.symm
    _ ≤ x % r.nocross.toNat := mod_le _ _

/-- No address that satisfies the request comes before the place that the rounding is meant to end
at, and a block there does not cross when there is such an address. -/
theorem uncrossed_le (wf : r.WellFormed) (satisfies : Satisfies bt r x) :
    uncrossed r (aligned bt r) ≤ x ∧ ¬ Crosses r (uncrossed r (aligned bt r)) := by
  have alignPos := wf.align_pos
  have below : aligned bt r ≤ x :=
    nextCongruent_le alignPos satisfies.from_first satisfies.congruent
  have cong : aligned bt r ≡ r.phase.toNat [MOD r.align.toNat] :=
    nextCongruent_modEq alignPos
  by_cases crosses : Crosses r (aligned bt r)
  · have bnd := crosses.1
    have pos : 0 < r.nocross.toNat := pos_of_ne_zero bnd
    have pow := (wf.nocross.resolve_left bnd).1
    have uncrossedX := satisfies.uncrossed
    have far := (crosses_iff wf.size bnd).mp crosses
    rw [crosses_iff wf.size bnd] at uncrossedX
    rw [uncrossed, if_pos crosses, crosses_iff wf.size bnd]
    have nextMod : nextCongruent (aligned bt r) r.phase.toNat r.nocross.toNat ≡ r.phase.toNat
      [MOD r.nocross.toNat] := nextCongruent_modEq pos
    cases dvd_or_dvd wf.align pow with
    | inl dvd =>
      have phaseX := phase_le_mod wf dvd satisfies.congruent
      have sml : r.phase.toNat < r.nocross.toNat :=
        lt_of_lt_of_le wf.phase (le_of_dvd pos dvd)
      have wholeX := div_add_mod x r.nocross.toNat
      have wholeA := div_add_mod (aligned bt r) r.nocross.toNat
      -- The block from `x` fits and starts later, so `x` lies behind the multiple.
      have later : aligned bt r / r.nocross.toNat + 1 ≤ x / r.nocross.toNat := by
        apply Nat.lt_of_mul_lt_mul_left (a := r.nocross.toNat)
        omega
      have scaled := Nat.mul_le_mul_left r.nocross.toNat later
      have belowA : aligned bt r % r.nocross.toNat < r.nocross.toNat := mod_lt _ pos
      rw [Nat.mul_add] at scaled
      have plc : r.nocross.toNat * (aligned bt r / r.nocross.toNat) + r.nocross.toNat +
          r.phase.toNat ≡ r.phase.toNat [MOD r.nocross.toNat] := by
        rw [← Nat.mul_succ, Nat.ModEq, mul_add_mod]
      have least := @nextCongruent_le (aligned bt r) _ _ _ pos (by omega) plc
      rw [mod_of_modEq nextMod sml]
      omega
    | inr dvd =>
      -- All aligned addresses lie at the same place between multiples.
      have same : x ≡ aligned bt r [MOD r.nocross.toNat] :=
        (satisfies.congruent.trans cong.symm).of_dvd dvd
      rw [same] at uncrossedX
      omega
  · rw [uncrossed, if_neg crosses]
    exact ⟨below, crosses⟩

theorem uncrossed_satisfies (wf : r.WellFormed) (unwrapped : Unwrapped bt r)
    (fits : uncrossed r (aligned bt r) + r.size.toNat ≤ last bt r + 1) :
    Satisfies bt r (uncrossed r (aligned bt r)) := by
  have alignPos := wf.align_pos
  have cong : aligned bt r ≡ r.phase.toNat [MOD r.align.toNat] :=
    nextCongruent_modEq alignPos
  refine ⟨le_nextCongruent.trans le_uncrossed, by omega, ?_, unwrapped.2⟩
  by_cases crosses : Crosses r (aligned bt r)
  · have bnd := crosses.1
    have pos : 0 < r.nocross.toNat := pos_of_ne_zero bnd
    have pow := (wf.nocross.resolve_left bnd).1
    have uncrossedNext := unwrapped.2
    rw [uncrossed, if_pos crosses] at uncrossedNext ⊢
    have nextMod : nextCongruent (aligned bt r) r.phase.toNat r.nocross.toNat ≡ r.phase.toNat
      [MOD r.nocross.toNat] := nextCongruent_modEq pos
    cases dvd_or_dvd wf.align pow with
    | inl dvd => exact nextMod.of_dvd dvd
    | inr dvd =>
      have stays := @nextCongruent_le (aligned bt r) _ _ _ pos (le_refl _)
        (cong.of_dvd dvd)
      have same := le_antisymm stays le_nextCongruent
      rw [same] at uncrossedNext
      exact absurd crosses uncrossedNext
  · rw [uncrossed, if_neg crosses]
    exact cong

end Least

/-! ### What the function computes -/

section Fit

variable {bt : Segment} {r : Request} {start : VmemAddr}

theorem toNat_clippedStart : (clippedStart bt r).toNat = first bt r := by
  unfold clippedStart first
  split
  · rename_i below
    rw [max_eq_right (le_of_lt below)]
  · rename_i above
    rw [max_eq_left (not_lt.mp above)]

theorem toNat_clippedEnd (lt : bt.Inside) : (clippedEnd bt r).toNat = last bt r := by
  have pos := lt.positive
  have upTo := lt.upTo
  have isEnd : bt.btEnd.toNat = bt.bt_start.toNat + bt.bt_size.toNat - 1 := by
    unfold Segment.btEnd
    bv_omega
  unfold clippedEnd last
  split
  · rename_i below
    rw [lt_def] at below
    omega
  · rename_i above
    rw [lt_def] at above
    omega

theorem vmemCrossP_eq (wf : r.WellFormed) :
    vmemCrossP start (start + r.size - 1) r.nocross = true ↔ Crosses r start.toNat := by
  have pos := wf.size
  have bound := start.isLt
  rw [vmemCrossP_iff (wf.nocross.imp_right And.left)]
  refine and_congr_right fun bnd => ?_
  obtain ⟨pow, sml⟩ := wf.nocross.resolve_left bnd
  obtain ⟨k, lt, pow⟩ := pow
  by_cases wraps : start.toNat + r.size.toNat - 1 < 2 ^ 64
  · have isEnd : (start + r.size - 1).toNat = start.toNat + r.size.toNat - 1 := by bv_omega
    rw [isEnd]
  -- Behind the end of the address space the block has crossed in both readings.
  have isEnd : (start + r.size - 1).toNat = start.toNat + r.size.toNat - 1 - 2 ^ 64 := by
    bv_omega
  have power : 2 ^ k ≤ 2 ^ 63 := Nat.pow_le_pow_right (by decide) (by omega)
  have dvd : 2 ^ k ∣ 2 ^ 64 := pow_dvd_pow 2 (by omega)
  rw [pow] at sml bnd ⊢
  have wrapped : (start + r.size - 1).toNat / 2 ^ k = 0 := div_eq_of_lt (by omega)
  have begun : 0 < start.toNat / 2 ^ k := div_pos (by omega) (by omega)
  have prev : start.toNat / 2 ^ k < 2 ^ 64 / 2 ^ k := by
    rw [Nat.div_lt_iff_lt_mul (by omega), Nat.div_mul_cancel dvd]
    exact bound
  have tail : 2 ^ 64 / 2 ^ k ≤ (start.toNat + r.size.toNat - 1) / 2 ^ k :=
    Nat.div_le_div_right (by omega)
  omega

theorem toNat_alignedStart (wf : r.WellFormed) : (alignedStart bt r).toNat =
    if aligned bt r < 2 ^ 64 then aligned bt r
    else if aligned bt r - 2 ^ 64 < bt.bt_start.toNat then aligned bt r - 2 ^ 64 + r.align.toNat
    else aligned bt r - 2 ^ 64 := by
  obtain ⟨k, lt, pow⟩ := wf.align
  have power : 2 ^ k ≤ 2 ^ 63 := Nat.pow_le_pow_right (by decide) (by omega)
  have pos : 0 < 2 ^ k := Nat.two_pow_pos k
  have bound := (clippedStart bt r).isLt
  have rounded := @toNat_alignFrom r.align (clippedStart bt r) r.phase k pow lt
  rw [toNat_clippedStart] at rounded bound
  change _ = aligned bt r % 2 ^ 64 at rounded
  have fromFirst : first bt r ≤ aligned bt r := le_nextCongruent
  have near : aligned bt r < first bt r + 2 ^ k := pow ▸ nextCongruent_lt (pow ▸ pos)
  have startFirst : bt.bt_start.toNat ≤ first bt r := le_max_left _ _
  unfold alignedStart
  by_cases stays : aligned bt r < 2 ^ 64
  · rw [mod_eq_of_lt stays] at rounded
    rw [if_neg, if_pos stays, rounded]
    rw [lt_def]
    omega
  have wrapped : aligned bt r % 2 ^ 64 = aligned bt r - 2 ^ 64 := by omega
  rw [wrapped] at rounded
  rw [if_neg stays]
  by_cases low : aligned bt r - 2 ^ 64 < bt.bt_start.toNat
  · rw [if_pos (lt_def.mpr (by rw [rounded]; exact low)), if_pos low, toNat_add,
      rounded, mod_eq_of_lt (by omega)]
  · rw [if_neg, if_neg low, rounded]
    rw [lt_def, rounded]
    exact low

theorem toNat_fitStart (wf : r.WellFormed) : (fitStart bt r).toNat = landing bt r := by
  have start := @toNat_alignedStart bt r wf
  have bound := (alignedStart bt r).isLt
  unfold fitStart landing
  rw [← start]
  dsimp only
  unfold uncrossed
  by_cases crosses : Crosses r (alignedStart bt r).toNat
  · obtain ⟨k, lt, pow⟩ := (wf.nocross.resolve_left crosses.1).1
    rw [if_pos ((vmemCrossP_eq wf).mpr crosses), if_pos crosses]
    exact toNat_alignFrom pow lt
  · rw [if_neg fun isCross => crosses ((vmemCrossP_eq wf).mp isCross), if_neg crosses,
      mod_eq_of_lt bound]

theorem landing_unwrapped (unwrapped : Unwrapped bt r) :
    landing bt r = uncrossed r (aligned bt r) := by
  have stays : aligned bt r < 2 ^ 64 := lt_of_le_of_lt le_uncrossed unwrapped.1
  unfold landing
  rw [if_pos stays, mod_eq_of_lt unwrapped.1]

theorem vmemFit_eq (lt : bt.Inside) (wf : r.WellFormed) : vmemFit bt r =
      if first bt r ≤ last bt r ∧ landing bt r + r.size.toNat ≤ last bt r + 1 then
        some (fitStart bt r)
      else none := by
  have pos := wf.size
  have isEnd := @toNat_clippedEnd bt r lt
  have beg := @toNat_fitStart bt r wf
  unfold vmemFit
  by_cases apart : clippedEnd bt r < clippedStart bt r
  · rw [if_pos apart, if_neg]
    rw [lt_def, toNat_clippedStart] at apart
    omega
  rw [if_neg apart]
  rw [lt_def, toNat_clippedStart] at apart
  have one : (1 : VmemAddr).toNat = 1 := rfl
  congr 1
  rw [le_def, le_def, beg, isEnd, toNat_sub, toNat_sub, isEnd,
    beg, one]
  apply propext
  omega

def Exact (bt : Segment) (r : Request) : Prop :=
  (∀ start, vmemFit bt r = some start → Satisfies bt r start.toNat) ∧
    (vmemFit bt r = none → ∀ x, ¬ Satisfies bt r x)

theorem Satisfies.le_last (wf : r.WellFormed) {x : Nat} (satisfies : Satisfies bt r x) :
    first bt r ≤ last bt r ∧ x + r.size.toNat ≤ last bt r + 1 := by
  have pos := wf.size
  have fromFirst := satisfies.from_first
  have toLast := satisfies.to_last
  omega

theorem last_lt : last bt r < 2 ^ 64 := lt_of_le_of_lt (min_le_right _ _) r.maxaddr.isLt

theorem exact_of_unwrapped (lt : bt.Inside) (wf : r.WellFormed)
    (unwrapped : Unwrapped bt r) : Exact bt r := by
  have isFit := vmemFit_eq lt wf
  rw [landing_unwrapped unwrapped] at isFit
  constructor
  · intro start beg
    rw [isFit] at beg
    by_cases fits : first bt r ≤ last bt r ∧
        uncrossed r (aligned bt r) + r.size.toNat ≤ last bt r + 1
    · rw [if_pos fits] at beg
      cases beg
      rw [toNat_fitStart wf, landing_unwrapped unwrapped]
      exact uncrossed_satisfies wf unwrapped fits.2
    · rw [if_neg fits] at beg
      cases beg
  · intro hn x satisfies
    obtain ⟨meet, ends⟩ := satisfies.le_last wf
    have least := (uncrossed_le wf satisfies).1
    rw [isFit, if_pos ⟨meet, by omega⟩] at hn
    cases hn

theorem not_satisfies_of_wrapped (wf : r.WellFormed) (wrapped : ¬ Unwrapped bt r)
    (x : Nat) : ¬ Satisfies bt r x := by
  intro satisfies
  have pos := wf.size
  obtain ⟨least, notCrossing⟩ := uncrossed_le wf satisfies
  have ends := (satisfies.le_last wf).2
  have bound := @last_lt bt r
  exact wrapped ⟨by omega, notCrossing⟩

theorem uncrossed_lt (x : Nat) (moderate : r.Moderate) : uncrossed r x ≤ x + 2 ^ 61 := by
  unfold uncrossed
  split
  · rename_i crosses
    have near := @nextCongruent_lt x r.phase.toNat _ (pos_of_ne_zero crosses.1)
    have sml := moderate.nocross
    omega
  · omega

/-- A rounding that wraps ends so low that every block of a moderate request has room behind it. -/
theorem landing_low (wf : r.WellFormed) (moderate : r.Moderate) (wrapped : ¬ Unwrapped bt r)
    (meet : first bt r ≤ last bt r) : landing bt r + r.size.toNat ≤ last bt r + 1 := by
  have near : aligned bt r < first bt r + r.align.toNat := nextCongruent_lt wf.align_pos
  have bound := @last_lt bt r
  obtain ⟨size, align, nocross, notCrossing⟩ := moderate
  unfold landing
  dsimp only
  by_cases stays : aligned bt r < 2 ^ 64
  · rw [if_pos stays]
    have crosses : Crosses r (aligned bt r) := by
      by_contra fits
      have same : uncrossed r (aligned bt r) = aligned bt r := if_neg fits
      rw [Unwrapped, same] at wrapped
      exact wrapped ⟨stays, fits⟩
    have bnd := crosses.1
    have pos := pos_of_ne_zero bnd
    have plc : uncrossed r (aligned bt r) =
        nextCongruent (aligned bt r) r.phase.toNat r.nocross.toNat := if_pos crosses
    have far := @nextCongruent_lt (aligned bt r) r.phase.toNat _ pos
    have cong : uncrossed r (aligned bt r) ≡ r.phase.toNat [MOD r.nocross.toNat] :=
      plc ▸ nextCongruent_modEq pos
    -- The block does not cross at the phase, so it is the address that is too high.
    have high : 2 ^ 64 ≤ uncrossed r (aligned bt r) := by
      by_contra low
      refine wrapped ⟨not_le.mp low, fun isCross => notCrossing ?_⟩
      rw [crosses_iff wf.size bnd] at isCross ⊢
      rwa [← cong]
    rw [mod_eq_sub_mod high, mod_eq_of_lt (by omega)]
    omega
  · rw [if_neg stays]
    have low (start : Nat) (below : start ≤ 2 ^ 62) :
        uncrossed r start % 2 ^ 64 + r.size.toNat ≤ last bt r + 1 := by
      have near := @uncrossed_lt r start ⟨size, align, nocross, notCrossing⟩
      rw [mod_eq_of_lt (by omega)]
      omega
    split
    · exact low _ (by omega)
    · exact low _ (by omega)

/-- The function is sound and complete where the rounding does not wrap and where the segment is
apart from the bounds; of moderate requests, for no others. -/
theorem vmemFit_exact (bt : Segment) (r : Request) (ins : bt.Inside) (wf' : r.WellFormed) :
    (Unwrapped bt r ∨ last bt r < first bt r → Exact bt r) ∧
      (r.Moderate → Exact bt r → Unwrapped bt r ∨ last bt r < first bt r) := by
  have isFit := vmemFit_eq ins wf'
  constructor
  · rintro (unwrapped | apart)
    · exact exact_of_unwrapped ins wf' unwrapped
    rw [if_neg (by omega)] at isFit
    refine ⟨fun start fnd => ?_, fun _ x satisfies => ?_⟩
    · rw [isFit] at fnd
      cases fnd
    · exact absurd (satisfies.le_last wf').1 (not_le.mpr apart)
  · intro moderate isExact
    by_contra neither
    obtain ⟨wrapped, meet⟩ := not_or.mp neither
    have rm := landing_low wf' moderate wrapped (not_lt.mp meet)
    rw [if_pos ⟨not_lt.mp meet, rm⟩] at isFit
    exact not_satisfies_of_wrapped wf' wrapped _ (isExact.1 _ isFit)

end Fit

/-- The last 4096 addresses, and a request for 16 of them. -/
def topSegment : Segment := ⟨0xfffffffffffff000, 0x1000⟩

def topRequest : Request := ⟨0x10, 0x1000, 0, 0, 0xfffffffffffff010, 0xffffffffffffffff⟩

theorem topSegment_inside : topSegment.Inside := ⟨by decide, by decide⟩

theorem topRequest_wellFormed : topRequest.WellFormed :=
  ⟨by decide, ⟨12, by decide, by decide⟩, by decide, .inl (by decide), by decide⟩

/-- The segment before, where nothing wraps. -/
def lowSegment : Segment := ⟨0xffffffffffffe000, 0x1000⟩

def lowRequest : Request := { topRequest with minaddr := 0 }

/-- One direction below the top of the address space, the other one at it. -/
theorem vmemFit_exact_top : Exact lowSegment lowRequest ∧
    (Exact topSegment topRequest →
      Unwrapped topSegment topRequest ∨ last topSegment topRequest < first topSegment topRequest) :=
  ⟨(vmemFit_exact lowSegment lowRequest ⟨by decide, by decide⟩
      ⟨by decide, ⟨12, by decide, by decide⟩, by decide, .inl (by decide), by decide⟩).1
        (.inl ⟨by decide, by decide⟩),
    (vmemFit_exact topSegment topRequest topSegment_inside topRequest_wellFormed).2
      ⟨by decide, by decide, by decide, by decide⟩⟩

/-- The function returns an address below the segment. -/
theorem vmemFit_below : vmemFit topSegment topRequest = some 0x1000 ∧
    ¬ Exact topSegment topRequest := by
  have ret : vmemFit topSegment topRequest = some 0x1000 := by decide
  refine ⟨ret, fun isExact => ?_⟩
  have above := (isExact.1 _ ret).from_first
  exact absurd above (by decide)

end NetBSD.Kern.Vmem
