import NetBSD.Arith.Align
import NetBSD.Kern.ExtentRegions
import NetBSD.Machine.Trace

/-!
Owns the search of `extent_alloc_subregion1`: alignment, boundary lines and the
walk over the gaps.
-/

namespace NetBSD.Kern.SubrExtent

open NetBSD.Arith List Option Nat Request

variable {ex : Extent} {req : Request} {start size stop x : ULong}
  {bef tl regions : List Region}

/-! ### Alignment -/

/-- The addresses that the alignment allows. -/
def Request.Aligned (req : Request) (start : ULong) : Prop :=
  start.toNat % req.alignment.toNat = req.skew.toNat

/-- The aligned start is the next one with the skew, or has wrapped. -/
theorem toNat_extentAlign {align skew : ULong} {k : Nat} (pow : align.toNat = 2 ^ k)
    (lt : k < 64) (skewed : skew < align) (start : ULong) :
    (extentAlign start align skew).toNat % 2 ^ k = skew.toNat ∧
      ((start ≤ extentAlign start align skew ∧
          (extentAlign start align skew).toNat < start.toNat + 2 ^ k) ∨
        (extentAlign start align skew = skew ∧ 2 ^ 64 + skew.toNat < start.toNat + 2 ^ k)) := by
  have rounded := toNat_roundUp pow lt (start - skew)
  have skewLess : skew.toNat < 2 ^ k := by
    rw [← pow]
    exact skewed
  have whole : 2 ^ 64 = 2 ^ k * 2 ^ (64 - k) := by
    rw [← Nat.pow_add, Nat.add_sub_cancel' (le_of_lt lt)]
  have difference : (start - skew).toNat = if skew.toNat ≤ start.toNat then
      start.toNat - skew.toNat else start.toNat + 2 ^ 64 - skew.toNat := by
    rw [BitVec.toNat_sub]
    split <;> omega
  have sum : (extentAlign start align skew).toNat =
      ((start - skew + (align - 1)) &&& -align).toNat + skew.toNat := by
    unfold extentAlign
    rw [BitVec.toNat_add]
    rw [rounded]
    split
    · rename_i fits
      -- a multiple of the alignment below the end leaves room for the skew
      have below : 2 ^ k * (((start - skew).toNat + (2 ^ k - 1)) / 2 ^ k) < 2 ^ k * 2 ^ (64 - k) := by
        rw [← whole]
        exact lt_of_le_of_lt (mul_div_le _ _) fits
      have quo := Nat.lt_of_mul_lt_mul_left below
      have rm : 2 ^ k * (((start - skew).toNat + (2 ^ k - 1)) / 2 ^ k) + 2 ^ k ≤
          2 ^ k * 2 ^ (64 - k) := by
        exact Nat.mul_le_mul_left _ quo
      omega
    · omega
  refine ⟨?_, ?_⟩
  · rw [sum, rounded]
    split
    · rw [mul_add_mod, mod_eq_of_lt skewLess]
    · rw [zero_add, mod_eq_of_lt skewLess]
  rw [rounded] at sum
  have up := div_add_mod ((start - skew).toNat + (2 ^ k - 1)) (2 ^ k)
  split at sum
  · left
    rw [BitVec.le_def]
    split at difference <;> omega
  split at difference
  · right
    refine ⟨BitVec.eq_of_toNat_eq (by omega), by omega⟩
  · left
    rw [BitVec.le_def]
    omega

/-- The alignment is a power of two and the skew below it. -/
structure Request.Powers (req : Request) : Prop where
  alignment : IsPowerOfTwo req.alignment
  skewed : req.skew < req.alignment
  boundary : req.boundary ≠ 0 → IsPowerOfTwo req.boundary

theorem Request.Powers.aligned (powers : req.Powers) (start : ULong) :
    req.Aligned (extentAlign start req.alignment req.skew) := by
  obtain ⟨k, lt, pow⟩ := powers.alignment
  unfold Aligned
  rw [pow]
  exact (toNat_extentAlign pow lt powers.skewed start).1

theorem Request.Powers.beyond (powers : req.Powers) {last : ULong}
    (chk : ¬ extentAlign (last + 1) req.alignment req.skew < last) :
    last < extentAlign (last + 1) req.alignment req.skew := by
  obtain ⟨k, lt, pow⟩ := powers.alignment
  have spec := (toNat_extentAlign pow lt powers.skewed (last + 1)).2
  rcases spec with ⟨above, near⟩ | ⟨wrapped, far⟩
  · by_cases isMax : last + 1 = 0
    · rw [isMax] at near chk ⊢
      bv_omega
    · bv_omega
  · rw [wrapped] at chk
    bv_omega

/-! ### Boundary lines -/

/-- A line lies inside the range, behind its start. -/
def Crosses (base boundary start stop : ULong) : Prop :=
  ∃ line : Nat, start.toNat < base.toNat + line * boundary.toNat ∧
    base.toNat + line * boundary.toNat ≤ stop.toNat

/-- The last address before the next line. -/
def Request.dontcross (req : Request) (ex : Extent) (newstart : ULong) : ULong :=
  extentAlign (newstart + 1) req.boundary (req.base ex) - 1

theorem multiple_eq_end {b line : Nat} (lt : b < 64) (low : 2 ^ 64 < line * 2 ^ b + 2 ^ b)
    (high : line * 2 ^ b < 2 ^ 64 + 2 ^ b) : line * 2 ^ b = 2 ^ 64 := by
  have whole : 2 ^ 64 = 2 ^ (64 - b) * 2 ^ b := by
    rw [← Nat.pow_add, Nat.sub_add_cancel (le_of_lt lt)]
  have below : 2 ^ (64 - b) < line + 1 := by
    apply Nat.lt_of_mul_lt_mul_right (a := 2 ^ b)
    rw [← whole, Nat.add_mul, Nat.one_mul]
    exact low
  have above : line < 2 ^ (64 - b) + 1 := by
    apply Nat.lt_of_mul_lt_mul_right (a := 2 ^ b)
    rw [Nat.add_mul, Nat.one_mul, ← whole]
    exact high
  rw [whole, show line = 2 ^ (64 - b) by omega]

variable {newstart : ULong}

/-- The boundary line next above a start. -/
theorem dontcross_spec {base boundary : ULong} {b : Nat} (pow : boundary.toNat = 2 ^ b)
    (lt : b < 64) (above : base ≤ newstart) :
    ∃ line : Nat, newstart.toNat < base.toNat + line * 2 ^ b ∧
      base.toNat + line * 2 ^ b ≤ newstart.toNat + 2 ^ b ∧
      ((base.toNat + line * 2 ^ b ≤ 2 ^ 64 ∧
          (extentAlign (newstart + 1) boundary base - 1).toNat + 1 = base.toNat + line * 2 ^ b) ∨
        (2 ^ 64 < base.toNat + line * 2 ^ b ∧
          (extentAlign (newstart + 1) boundary base - 1) < base)) := by
  have rounded := toNat_roundUp pow lt (newstart + 1 - base)
  have pos := Nat.two_pow_pos b
  have aboveNat : base.toNat ≤ newstart.toNat := above
  -- how far the start is behind the base, and the line behind it
  obtain ⟨far, isFar⟩ : ∃ far, far = newstart.toNat - base.toNat := ⟨_, rfl⟩
  obtain ⟨line, isLine⟩ : ∃ line, line = far / 2 ^ b + 1 := ⟨_, rfl⟩
  have lineLow : far < line * 2 ^ b := by
    rw [isLine, mul_comm]
    exact lt_mul_div_succ far pos
  have lineHigh : line * 2 ^ b ≤ far + 2 ^ b := by
    rw [isLine, add_mul, one_mul, mul_comm]
    exact Nat.add_le_add_right (mul_div_le far _) _
  have distance : (newstart + 1 - base).toNat = if far + 1 = 2 ^ 64 then 0 else far + 1 := by
    split <;> bv_omega
  have isRounded : ((newstart + 1 - base + (boundary - 1)) &&& -boundary).toNat =
      if line * 2 ^ b < 2 ^ 64 then line * 2 ^ b else 0 := by
    rw [rounded, distance]
    by_cases isEnd : far + 1 = 2 ^ 64
    · have notBelow : ¬ line * 2 ^ b < 2 ^ 64 := by omega
      rw [if_pos isEnd, div_eq_of_lt (by omega), mul_zero]
      split <;> rfl
    rw [if_neg isEnd]
    have isQuotient : (far + 1 + (2 ^ b - 1)) / 2 ^ b = line := by
      rw [show far + 1 + (2 ^ b - 1) = far + 2 ^ b by omega, add_div_right _ pos, isLine]
    rw [isQuotient, mul_comm]
    by_cases fits : far + 1 + (2 ^ b - 1) < 2 ^ 64
    · rw [if_pos fits, if_pos (by omega)]
    · have last := multiple_eq_end lt (by omega) (by omega : line * 2 ^ b < 2 ^ 64 + 2 ^ b)
      rw [if_neg fits, if_neg (by omega)]
  refine ⟨line, by omega, by omega, ?_⟩
  have sum : (extentAlign (newstart + 1) boundary base).toNat =
      ((if line * 2 ^ b < 2 ^ 64 then line * 2 ^ b else 0) + base.toNat) % 2 ^ 64 := by
    unfold extentAlign
    rw [BitVec.toNat_add, isRounded]
  by_cases fits : line * 2 ^ b < 2 ^ 64
  · rw [if_pos fits] at sum
    bv_omega
  · have last := multiple_eq_end lt (by omega) (by omega : line * 2 ^ b < 2 ^ 64 + 2 ^ b)
    rw [if_neg fits] at sum
    bv_omega

theorem line_le {base start power line oth : Nat} (near : base + line * power ≤ start + power)
    (tail : start < base + oth * power) : line * power ≤ oth * power := by
  by_contra less
  have fewer : oth < line := by
    by_contra notFewer
    exact less (mul_le_mul_right power (not_lt.mp notFewer))
  have step : (oth + 1) * power ≤ line * power := mul_le_mul_right power fewer
  rw [add_mul] at step
  omega

/-- A candidate that is moved behind a line it crosses stays aligned. -/
def Request.MovesAligned (req : Request) (ex : Extent) (fits : ULong → Bool) (newstart : ULong) :
    Prop :=
  req.boundary ≠ 0 → ¬ req.dontcross ex newstart < ex.exStart →
    newstart + (req.size - 1) > req.dontcross ex newstart →
    fits (req.dontcross ex newstart + 1) = true → req.Aligned (req.dontcross ex newstart + 1)

/-- The checks of `DIAGNOSTIC`, as facts. -/
structure Request.Admitted (req : Request) (ex : Extent) : Prop where
  lower : ex.exStart ≤ req.substart
  upper : req.subend ≤ ex.exEnd
  positive : 1 ≤ req.size
  bounded : req.boundary ≠ 0 → req.size ≤ req.boundary

theorem Request.admitted_iff (adm : req.admitted ex = true) : req.Admitted ex := by
  simp only [Request.admitted, Bool.and_eq_true, Bool.not_eq_eq_eq_not, Bool.not_true,
    decide_eq_false_iff_not, BitVec.not_lt, Bool.and_eq_false_imp, decide_eq_true_eq] at adm
  obtain ⟨⟨⟨⟨⟨⟨⟨lower, _⟩, upper⟩, _⟩, pos⟩, _⟩, _⟩, bnd⟩ := adm
  exact ⟨lower, upper, pos, bnd⟩

/-- A start with the space it needs. -/
structure Request.Starts (req : Request) (ex : Extent) (start : ULong) : Prop where
  aligned : req.Aligned start
  ordered : start ≤ start + (req.size - 1)
  uncrossed : req.boundary ≠ 0 → ¬ Crosses (req.base ex) req.boundary start (start + (req.size - 1))

theorem base_le (above : ex.exStart ≤ start) : req.base ex ≤ start := by
  unfold base
  split
  · bv_omega
  · exact above

/-- A start moved over the boundary still fits. -/
theorem boundaryCheck_starts (powers : req.Powers) (adm : req.Admitted ex)
    {fits : ULong → Bool} (prop : ∀ start, fits start = true → start ≤ start + (req.size - 1))
    {newstart fnd : ULong} (inExtent : ex.exStart ≤ newstart) (algn : req.Aligned newstart)
    (suff : fits newstart = true) (moves : req.MovesAligned ex fits newstart)
    (chk : boundaryCheck ex req fits newstart = .fits fnd) :
    newstart ≤ fnd ∧ fits fnd = true ∧ req.Starts ex fnd := by
  have ord := prop newstart suff
  have within {start dontcross : ULong} (isFits : withinBound ex req start dontcross = .fits fnd) :
      start = fnd := by
    unfold withinBound at isFits
    split at isFits
    · exact absurd isFits (by simp)
    · exact Bound.fits.inj isFits
  unfold boundaryCheck at chk
  by_cases noBd : req.boundary = 0
  · rw [if_pos noBd] at chk
    obtain rfl := Bound.fits.inj chk
    exact ⟨BitVec.le_refl _, suff, algn, ord, fun bnd => absurd noBd bnd⟩
  rw [if_neg noBd] at chk
  have last : extentAlign (newstart + 1) req.boundary (req.base ex) - 1 =
    req.dontcross ex newstart := rfl
  simp only [last] at chk
  obtain ⟨b, lt, pow⟩ := powers.boundary noBd
  obtain ⟨line, tail, near, next'⟩ :=
    dontcross_spec pow lt (base_le inExtent : req.base ex ≤ newstart)
  rw [last] at next'
  have sizeLe : req.size.toNat ≤ 2 ^ b := by
    rw [← pow]
    exact adm.bounded noBd
  -- a start before the line, that ends before it
  have stays (short : (newstart + (req.size - 1)).toNat < (req.base ex).toNat + line * 2 ^ b) :
      req.Starts ex newstart := by
    refine ⟨algn, ord, ?_⟩
    rintro _ ⟨oth, lineBehind, lineInside⟩
    rw [pow] at lineBehind lineInside
    have order := line_le near lineBehind
    omega
  split at chk
  · rename_i overflow
    obtain rfl := within chk
    refine ⟨BitVec.le_refl _, suff, stays ?_⟩
    rcases next' with ⟨_, isLine⟩ | ⟨isBeyond, _⟩
    · bv_omega
    · have isLt := (newstart + (req.size - 1)).isLt
      omega
  rename_i noOverflow
  split at chk
  · rename_i crosses
    split at chk
    · rename_i enoughBehind
      obtain rfl := within chk
      have orderedBehind := prop _ enoughBehind
      have isLine : (req.dontcross ex newstart + 1).toNat = (req.base ex).toNat + line * 2 ^ b := by
        rcases next' with ⟨_, isLine⟩ | ⟨_, below⟩
        · bv_omega
        · have baseLe : req.base ex ≤ ex.exStart := base_le (BitVec.le_refl _)
          bv_omega
      refine ⟨by bv_omega, enoughBehind, moves noBd noOverflow crosses enoughBehind,
        orderedBehind, ?_⟩
      rintro _ ⟨oth, lineBehind, lineInside⟩
      rw [pow] at lineBehind lineInside
      have later : line < oth := by
        by_contra notLater
        have order := mul_le_mul_right (2 ^ b) (not_lt.mp notLater)
        omega
      have step : (line + 1) * 2 ^ b ≤ oth * 2 ^ b := mul_le_mul_right _ later
      rw [add_mul, one_mul] at step
      have pos := adm.positive
      bv_omega
    · exact absurd chk (by simp)
  · rename_i short
    obtain rfl := within chk
    refine ⟨BitVec.le_refl _, suff, stays ?_⟩
    rcases next' with ⟨_, isLine⟩ | ⟨isBeyond, _⟩
    · bv_omega
    · have isLt := (newstart + (req.size - 1)).isLt
      omega

/-! ### The walk over the gaps -/

structure Place (ex : Extent) (req : Request) (found : Found) : Prop where
  isList : found.before.reverse ++ found.rest = ex.regions
  starts : req.Starts ex found.start
  lower : req.substart ≤ found.start
  upper : found.start + (req.size - 1) ≤ req.subend
  gap : InGap found.start (found.start + (req.size - 1)) found.before found.rest

/-- The choice so far, if there is one, is a place. -/
def Best.Good (ex : Extent) (req : Request) (best : Best) : Prop :=
  best.ovh ≠ 0 → Place ex req ⟨best.start, best.before, best.rest⟩

theorem Best.Good.failed {best : Best} (good : best.Good ex req) {fnd : Found}
    (hit : SubrExtent.failed req best = some fnd) : Place ex req fnd := by
  unfold SubrExtent.failed at hit
  split at hit
  · rename_i chosen
    obtain rfl := some.inj hit
    exact good chosen.2
  · exact absurd hit (by simp)

theorem Best.Good.improve {best : Best} (good : best.Good ex req)
    (plc : Place ex req ⟨newstart, bef, tl⟩) (ovh : ULong) :
    (best.improve ovh newstart bef tl).Good ex req := by
  unfold Best.improve
  split
  · exact fun _ => plc
  · exact good

/-- What the walk knows at a region: the list so far ends below the candidate. -/
structure Candidate (ex : Extent) (req : Request) (newstart : ULong) (before rest : List Region) :
    Prop where
  isList : before.reverse ++ rest = ex.regions
  aligned : req.Aligned newstart
  lower : req.substart ≤ newstart
  below : EndsBelow before newstart
  ahead : ∀ r ∈ rest, req.substart ≤ r.erStart

theorem Candidate.place {fnd : ULong} (candidate : Candidate ex req newstart bef tl)
    (powers : req.Powers) (adm : req.Admitted ex) {fits : ULong → Bool}
    (prop : ∀ start, fits start = true → start ≤ start + (req.size - 1) ∧
      start + (req.size - 1) ≤ req.subend ∧ StartsAbove tl (start + (req.size - 1)))
    (suff : fits newstart = true) (moves : req.MovesAligned ex fits newstart)
    (chk : boundaryCheck ex req fits newstart = .fits fnd) :
    Place ex req ⟨fnd, bef, tl⟩ := by
  obtain ⟨later, enoughFound, beg⟩ := boundaryCheck_starts powers adm
    (fun start isFits => (prop start isFits).1)
    (BitVec.le_trans adm.lower candidate.lower) candidate.aligned suff moves chk
  obtain ⟨_, upper, above⟩ := prop fnd enoughFound
  refine ⟨candidate.isList, beg, BitVec.le_trans candidate.lower later, upper,
    beg.ordered, ?_, above⟩
  intro r mem
  have ends := candidate.below r mem
  bv_omega

/-- In the space up to the end of the subregion no candidate is moved to a line that is not
aligned. -/
def Request.FinalSteady (req : Request) (ex : Extent) (newstart : ULong) : Prop :=
  leOv newstart (req.size - 1) req.subend = true →
    req.MovesAligned ex (fun start => leOv start (req.size - 1) req.subend) newstart

theorem Candidate.finalCheck {exend : ULong} {best : Best}
    (candidate : Candidate ex req newstart bef tl) (powers : req.Powers)
    (adm : req.Admitted ex) (above : StartsAbove tl req.subend)
    (steady : req.FinalSteady ex newstart) (good : best.Good ex req) {fnd : Found}
    (hit : SubrExtent.finalCheck ex req newstart exend best bef tl = some fnd) :
    Place ex req fnd := by
  unfold SubrExtent.finalCheck at hit
  split at hit
  · rename_i suff
    cases checked : boundaryCheck ex req (fun start => leOv start (req.size - 1) req.subend)
        newstart with
    | moved | fail =>
      simp only [checked] at hit
      exact good.failed hit
    | fits start =>
      have plc : Place ex req ⟨start, bef, tl⟩ := by
        refine candidate.place powers adm ?_ suff (steady suff) checked
        intro start isFits
        simp only [leOv, Bool.and_eq_true, decide_eq_true_eq] at isFits
        refine ⟨isFits.1, isFits.2, ?_⟩
        intro r mem
        have beg := above r mem
        bv_omega
      simp only [checked] at hit
      split at hit
      · obtain rfl := some.inj hit
        exact plc
      · exact (good.improve plc _).failed hit
  · exact good.failed hit

def Request.stopsAt (req : Request) (ex : Extent) (newstart : ULong) (rp : Region) : Bool :=
  leOv newstart req.size rp.erStart &&
    match boundaryCheck ex req (fun start => leOv start req.size rp.erStart) newstart with
    | .fail => true
    | .moved => false
    | .fits start => req.fast || rp.erStart - start - req.size = 0

def Request.Steady (req : Request) (ex : Extent) : ULong → List Region → Prop
  | newstart, [] => req.FinalSteady ex newstart
  | newstart, rp :: rest =>
    if rp.erStart > req.subend then req.FinalSteady ex newstart
    else
      (leOv newstart req.size rp.erStart = true →
        req.MovesAligned ex (fun start => leOv start req.size rp.erStart) newstart) ∧
      (req.stopsAt ex newstart rp = false →
        req.Steady ex (extentAlign (rp.erEnd + 1) req.alignment req.skew) rest)

/-- Whatever the search finds is a free place for the request. -/
theorem Candidate.searchLoop (sound : ex.Sound) (powers : req.Powers) (adm : req.Admitted ex)
    {best : Best} (candidate : Candidate ex req newstart bef tl)
    (steady : req.Steady ex newstart tl) (good : best.Good ex req) {fnd : Found}
    (hit : SubrExtent.searchLoop ex req newstart best bef tl = some fnd) :
    Place ex req fnd := by
  induction tl generalizing newstart best bef with
  | nil => exact candidate.finalCheck powers adm (by simp [StartsAbove]) steady good hit
  | cons rp tl ih =>
    have sort : Sorted (bef.reverse ++ ([rp] ++ tl)) := by
      have isSorted := sound.sorted
      rwa [← candidate.isList] at isSorted
    have prop := (sorted_split.mp sort).2.1.proper rp (mem_singleton_self rp)
    have s' := (sorted_split.mp sort).2.2.2.2.1 rp (mem_singleton_self rp)
    have beforeRp := (sorted_split.mp sort).2.2.2.1 rp (mem_singleton_self rp)
    unfold Steady at steady
    unfold SubrExtent.searchLoop at hit
    by_cases past : rp.erStart > req.subend
    · rw [if_pos past] at steady hit
      refine candidate.finalCheck powers adm ?_ steady good hit
      intro r mem
      rcases mem_cons.mp mem with rfl | hrest
      · exact past
      · have beg := s' r hrest
        bv_omega
    rw [if_neg past] at steady hit
    obtain ⟨moves, more⟩ := steady
    -- on to the next gap
    have next (cont : req.stopsAt ex newstart rp = false) {best : Best}
        (good : best.Good ex req)
        (next' : (if extentAlign (rp.erEnd + 1) req.alignment req.skew < rp.erEnd then
            failed req best
          else SubrExtent.searchLoop ex req (extentAlign (rp.erEnd + 1) req.alignment req.skew)
            best (rp :: bef) tl) = some fnd) : Place ex req fnd := by
      split at next'
      · exact good.failed next'
      rename_i noOverflow
      have far := powers.beyond noOverflow
      refine ih ⟨by simpa using candidate.isList, powers.aligned _, ?_, ?_, ?_⟩
        (more cont) good next'
      · have ahead := candidate.ahead rp mem_cons_self
        bv_omega
      · intro r mem
        rcases mem_cons.mp mem with rfl | inBefore
        · exact far
        · have ends := beforeRp r inBefore
          bv_omega
      · exact (forall_mem_cons.mp candidate.ahead).2
    split at hit
    · rename_i suff
      have plc {start : ULong} (chk : boundaryCheck ex req
          (fun start => leOv start req.size rp.erStart) newstart = .fits start) :
          Place ex req ⟨start, bef, rp :: tl⟩ := by
        refine candidate.place powers adm ?_ suff (moves suff) chk
        intro start isFits
        simp only [leOv, Bool.and_eq_true, decide_eq_true_eq] at isFits
        have pos := adm.positive
        refine ⟨by bv_omega, by bv_omega, ?_⟩
        intro r mem
        rcases mem_cons.mp mem with rfl | hrest
        · bv_omega
        · have beg := s' r hrest
          bv_omega
      cases chk : boundaryCheck ex req (fun start => leOv start req.size rp.erStart)
          newstart with
      | fail =>
        simp only [chk] at hit
        exact good.failed hit
      | moved =>
        simp only [chk] at hit
        exact next (by simp [stopsAt, chk]) good hit
      | fits start =>
        simp only [chk] at hit
        split at hit
        · obtain rfl := some.inj hit
          exact plc chk
        · rename_i worse
          refine next ?_ (good.improve (plc chk) _) hit
          simp only [not_or] at worse
          simp only [stopsAt, chk, worse.1, worse.2]
          simp
    · rename_i tight
      exact next (by simp [stopsAt, tight]) good hit

/-! ### The search -/

theorem firstRegion_spec {newstart : ULong} (bhd : ∀ r ∈ bef, r.erStart < newstart) :
    (firstRegion newstart bef tl).1.reverse ++ (firstRegion newstart bef tl).2 =
        bef.reverse ++ tl ∧
      (∀ r ∈ (firstRegion newstart bef tl).1, r.erStart < newstart) ∧
      ∀ r tail, (firstRegion newstart bef tl).2 = r :: tail → newstart ≤ r.erStart := by
  induction tl generalizing bef with
  | nil => exact ⟨rfl, bhd, by simp [firstRegion]⟩
  | cons rp tl ih =>
    unfold firstRegion
    split
    · rename_i got
      refine ⟨rfl, bhd, ?_⟩
      rintro r tail ⟨⟩
      exact got
    rename_i notReached
    have behindRp : ∀ r ∈ rp :: bef, r.erStart < newstart := by
      exact forall_mem_cons.mpr ⟨BitVec.not_le.mp notReached, bhd⟩
    obtain ⟨lst, behind', ahead⟩ := ih behindRp
    exact ⟨by simpa using lst, behind', ahead⟩

/-- Behind the region that holds the start there is an aligned address. -/
def Request.Relocates (req : Request) (ex : Extent) (newstart : ULong) : Prop :=
  ∀ r ∈ ex.regions, r.erStart < newstart → newstart ≤ r.erEnd →
    r.erEnd < extentAlign (r.erEnd + 1) req.alignment req.skew

theorem relocate_below (powers : req.Powers) (algn : req.Aligned newstart)
    (sort : Sorted (bef.reverse ++ tl))
    (relocates : ∀ r ∈ bef, newstart ≤ r.erEnd →
      r.erEnd < extentAlign (r.erEnd + 1) req.alignment req.skew) :
    req.Aligned (relocate req newstart bef) ∧ newstart ≤ relocate req newstart bef ∧
      EndsBelow bef (relocate req newstart bef) := by
  cases bef with
  | nil => exact ⟨algn, BitVec.le_refl _, by simp [EndsBelow]⟩
  | cons last bef =>
    have split := sorted_split.mp
      (show Sorted (bef.reverse ++ ([last] ++ tl)) by simpa using sort)
    have prop := split.2.1.proper last (mem_singleton_self last)
    have tail := split.2.2.2.1 last (mem_singleton_self last)
    have all {limit : ULong} (far : last.erEnd < limit) : EndsBelow (last :: bef) limit := by
      intro r mem
      rcases mem_cons.mp mem with rfl | inBefore
      · exact far
      · have ends := tail r inBefore
        bv_omega
    simp only [relocate]
    split
    · rename_i holds
      have far := relocates last mem_cons_self holds
      refine ⟨powers.aligned _, ?_, all far⟩
      bv_omega
    · rename_i apart
      exact ⟨algn, BitVec.le_refl _, all (BitVec.not_le.mp apart)⟩

/-- A search that starts at an aligned address of the subregion finds a place or nothing. -/
theorem search_place (sound : ex.Sound) (powers : req.Powers) (adm : req.Admitted ex)
    (algn : req.Aligned newstart) (lower : req.substart ≤ newstart)
    (relocates : req.Relocates ex newstart)
    (steady : req.Steady ex (relocate req newstart (firstRegion newstart [] ex.regions).1)
      (firstRegion newstart [] ex.regions).2) {fnd : Found}
    (hit : search ex req newstart = some fnd) : Place ex req fnd := by
  obtain ⟨lst, bhd, ahead⟩ :=
    @firstRegion_spec [] ex.regions newstart (by simp)
  have sort : Sorted ((firstRegion newstart [] ex.regions).1.reverse ++
      (firstRegion newstart [] ex.regions).2) := by
    rw [lst]
    exact sound.sorted
  have hin (r : Region) (mem : r ∈ (firstRegion newstart [] ex.regions).1) :
      r ∈ ex.regions := by
    have listed := mem_append_left (firstRegion newstart [] ex.regions).2
      (mem_reverse.mpr mem)
    rw [lst] at listed
    exact listed
  obtain ⟨alignedFrom, later, below⟩ := relocate_below powers algn sort
    (fun r mem => relocates r (hin r mem) (bhd r mem))
  refine Candidate.searchLoop sound powers adm
    ⟨by rw [lst]; rfl, alignedFrom, BitVec.le_trans lower later, below, ?_⟩ steady ?_ hit
  · -- the first region ahead starts behind the subregion start, and the others behind it
    intro r mem
    cases isRest : (firstRegion newstart [] ex.regions).2 with
    | nil => simp [isRest] at mem
    | cons fst tail =>
      have beg := ahead fst tail isRest
      rw [isRest] at mem sort
      have split := sorted_split.mp
        (show Sorted ((firstRegion newstart [] ex.regions).1.reverse ++ ([fst] ++ tail))
          from sort)
      have prop := split.2.1.proper fst (mem_singleton_self fst)
      have s' := split.2.2.2.2.1 fst (mem_singleton_self fst)
      rcases mem_cons.mp mem with rfl | inTail
      · exact BitVec.le_trans lower beg
      · have startsTail := s' r inTail
        bv_omega
  · intro chosen
    exact absurd rfl chosen

/-!
### Sequences of calls

The accounting of an extent over whole sequences of calls: allocations add
the range they return, freeing removes the range it is given, and a call that
fails changes nothing.
-/

open NetBSD.Machine

variable {ex' : Extent} {out : Outcome}

/-- The call fails and changes nothing. -/
def Refuses (ex : Extent) (outcome : Outcome) (ex' : Extent) : Prop :=
  (∀ result, outcome ≠ .ok result) ∧ ex' = ex

theorem refuses_noSpace (ex : Extent) (waitspace : Bool) : Refuses ex (noSpace waitspace) ex := by
  refine ⟨?_, rfl⟩
  unfold noSpace
  split <;> simp

/-- The addresses do not wrap around where the search aligns, and no candidate is moved to a
boundary line that is not aligned. -/
structure Request.Fits (req : Request) (ex : Extent) : Prop where
  alignment : IsPowerOfTwo req.alignment
  boundary : req.boundary ≠ 0 → IsPowerOfTwo req.boundary
  aligns : ¬ extentAlign req.substart req.alignment req.skew < ex.exStart →
    req.substart ≤ extentAlign req.substart req.alignment req.skew
  relocates : req.Relocates ex (extentAlign req.substart req.alignment req.skew)
  steady : req.Steady ex (relocate req (extentAlign req.substart req.alignment req.skew)
      (firstRegion (extentAlign req.substart req.alignment req.skew) [] ex.regions).1)
    (firstRegion (extentAlign req.substart req.alignment req.skew) [] ex.regions).2

/-- What a successful call of `extent_alloc_subregion1` returns. -/
structure Returns (ex : Extent) (req : Request) (result : ULong) (ex' : Extent) : Prop where
  allocates : Allocates ex result (result + (req.size - 1)) ex'
  ordered : result ≤ result + (req.size - 1)
  lower : req.substart ≤ result
  upper : result + (req.size - 1) ≤ req.subend
  aligned : result.toNat % req.alignment.toNat = req.skew.toNat
  uncrossed : req.boundary ≠ 0 →
    ¬ Crosses (req.base ex) req.boundary result (result + (req.size - 1))

theorem Extent.Sound.allocSubregion1 (sound : ex.Sound) (skewed : req.skew < req.alignment)
    (fits : req.Fits ex) {desc : Bool}
    (hc : extentAllocSubregion1 ex req desc = some (out, ex')) :
    (∃ res, out = .ok res ∧ Returns ex req res ex') ∨ Refuses ex out ex' := by
  have powers : req.Powers := ⟨fits.alignment, skewed, fits.boundary⟩
  unfold extentAllocSubregion1 at hc
  split at hc
  · exact absurd hc (by simp)
  rename_i past
  have adm := admitted_iff (by simpa using past)
  split at hc
  · obtain ⟨rfl, rfl⟩ := Prod.mk.inj (some.inj hc)
    exact Or.inr ⟨by simp, rfl⟩
  simp only at hc
  split at hc
  · exact absurd hc (by simp)
  rename_i inExtent
  split at hc
  · obtain ⟨rfl, rfl⟩ := Prod.mk.inj (some.inj hc)
    exact Or.inr (refuses_noSpace ex req.waitspace)
  rename_i fnd hit
  obtain ⟨rfl, rfl⟩ := Prod.mk.inj (some.inj hc)
  have plc := search_place sound powers adm (powers.aligned req.substart)
    (fits.aligns inExtent) fits.relocates fits.steady hit
  refine Or.inl ⟨fnd.start, rfl, ?_, plc.starts.ordered, plc.lower, plc.upper,
    plc.starts.aligned, plc.starts.uncrossed⟩
  exact sound.insert plc.isList.symm adm.positive rfl plc.gap
    (BitVec.le_trans adm.lower plc.lower)
    (BitVec.le_trans plc.upper adm.upper)

/-- What a successful call of `extent_free` does. -/
structure Removes (ex : Extent) (start stop : ULong) (ex' : Extent) : Prop where
  sound : ex'.Sound
  bounds : ex'.exStart = ex.exStart ∧ ex'.exEnd = ex.exEnd ∧ ex'.noCoalesce = ex.noCoalesce
  covers : ∀ x, Covers ex'.regions x ↔ Covers ex.regions x ∧ ¬ (start ≤ x ∧ x ≤ stop)
  held : ∀ x, start ≤ x → x ≤ stop → Covers ex.regions x

theorem Extent.Sound.free (sound : ex.Sound) {start size : ULong} {desc : Bool}
    (hc : extentFree ex start size desc = some (out, ex')) :
    (out = .ok start ∧ Removes ex start (start + (size - 1)) ex') ∨ Refuses ex out ex' := by
  unfold extentFree at hc
  simp only at hc
  split at hc
  · exact absurd hc (by simp)
  rename_i chk
  simp only [not_or, BitVec.not_lt] at chk
  obtain ⟨_, _, ord⟩ := chk
  split at hc
  · obtain ⟨rfl, rfl⟩ := Prod.mk.inj (some.inj hc)
    exact Or.inr ⟨by simp, rfl⟩
  obtain ⟨regions, freed, isRes⟩ := map_eq_some_iff.mp hc
  obtain ⟨rfl, rfl⟩ := isRes
  obtain ⟨frees, held⟩ := frees_freeLoop (by simpa using sound.sorted) ord freed
  refine Or.inl ⟨rfl, ?_, ⟨rfl, rfl, rfl⟩, frees.covers, held⟩
  apply Extent.Sound.of_covers frees.sorted
  intro x cov
  exact sound.inside_of_covers ((frees.covers x).mp cov).1

/-! ### Runs -/

def Call.Proper : Call → Prop
  | .allocRegion _ _ _ _ => True
  | .allocSubregion1 req _ => req.skew < req.alignment
  | .free _ _ _ => True

/-- The search of the call does not wrap around or leave the alignment; a range that is freed is
not empty. -/
def Call.Fits (ex : Extent) : Call → Prop
  | .allocRegion _ _ _ _ => True
  | .allocSubregion1 req _ => req.Fits ex
  | .free _ size _ => size ≠ 0

/-- What a call does to the union of the regions. -/
def Accounts (ex : Extent) (call : Call) (outcome : Outcome) (ex' : Extent) : Prop :=
  match call with
  | .allocRegion start size _ _ =>
    (outcome = .ok start ∧ 1 ≤ size ∧ start ≤ start + (size - 1) ∧
      Allocates ex start (start + (size - 1)) ex') ∨ Refuses ex outcome ex'
  | .allocSubregion1 req _ =>
    (∃ result, outcome = .ok result ∧ Returns ex req result ex') ∨ Refuses ex outcome ex'
  | .free start size _ =>
    (outcome = .ok start ∧ 1 ≤ size ∧ Removes ex start (start + (size - 1)) ex') ∨
      Refuses ex outcome ex'

/-- An extent with the bounds it was created with. -/
structure Within (start stop : ULong) (ex : Extent) : Prop where
  sound : ex.Sound
  start : ex.exStart = start
  stop : ex.exEnd = stop

theorem Within.call {start stop : ULong} (bnd : Within start stop ex) {call : Call}
    (prop : call.Proper) (fits : call.Fits ex)
    (hc : extentCall ex call = some (out, ex')) :
    Accounts ex call out ex' ∧ Within start stop ex' := by
  have same (refuses : Refuses ex out ex') : Within start stop ex' := by
    rw [refuses.2]
    exact bnd
  have alloc {fst last : ULong} (allocs : Allocates ex fst last ex') :
      Within start stop ex' := by
    obtain ⟨beg, isStop, _⟩ := allocs.bounds
    exact ⟨allocs.sound, beg.trans bnd.start, isStop.trans bnd.stop⟩
  cases call with
  | allocRegion fst size waitspace desc =>
    have accounts := bnd.sound.allocRegion hc
    refine ⟨accounts, ?_⟩
    rcases accounts with ⟨_, _, _, allocs⟩ | refuses
    · exact alloc allocs
    · exact same refuses
  | allocSubregion1 req desc =>
    have accounts := bnd.sound.allocSubregion1 prop fits hc
    refine ⟨accounts, ?_⟩
    rcases accounts with ⟨_, _, ret⟩ | refuses
    · exact alloc ret.allocates
    · exact same refuses
  | free fst size desc =>
    rcases bnd.sound.free hc with ⟨isOk, removes⟩ | refuses
    · obtain ⟨beg, isStop, _⟩ := removes.bounds
      have pos : 1 ≤ size := by
        have ne0 : size ≠ 0 := fits
        bv_omega
      exact ⟨Or.inl ⟨isOk, pos, removes⟩, removes.sound, beg.trans bnd.start,
        isStop.trans bnd.stop⟩
    · exact ⟨Or.inr refuses, same refuses⟩

theorem within_create (start stop : ULong) (noCoalesce : Bool) :
    Within start stop (extentCreate start stop noCoalesce) :=
  ⟨⟨sorted_nil, by simp [extentCreate]⟩, rfl, rfl⟩

end NetBSD.Kern.SubrExtent
