import NetBSD.Kern.ExtentSearch
import NetBSD.Machine.BestFit

/-!
Owns what the search of `extent_alloc_subregion1` finds among the gaps when there are no
boundary lines: nothing only when no range fits, the first range that fits with `EX_FAST`,
and otherwise one in a gap that leaves the least behind it.
-/

namespace NetBSD.Kern.SubrExtent

open NetBSD.Arith NetBSD.Machine List Nat

/-! ### The ranges that fit -/

/-- A range of the requested size starts here, congruent to the skew, inside the subregion and
apart from all regions. -/
structure Suits (ex : Extent) (req : Request) (start : ULong) : Prop where
  congruent : start.toNat ≡ req.skew.toNat [MOD req.alignment.toNat]
  lower : req.substart ≤ start
  upper : start.toNat + req.size.toNat ≤ req.subend.toNat + 1
  free : ∀ x, start ≤ x → x.toNat < start.toNat + req.size.toNat → ¬ Covers ex.regions x

def gapEnd (ex : Extent) (start : ULong) : Nat :=
  match ex.regions.find? fun r => decide (start ≤ r.erStart) with
  | none => ex.exEnd.toNat + 1
  | some r => r.erStart.toNat

/-- What is left in the gap behind a range of the requested size. -/
def leftover (ex : Extent) (req : Request) (start : ULong) : Nat :=
  gapEnd ex start - (start.toNat + req.size.toNat)

/-- The first start in its gap that suits: the gap fits the request, there. -/
structure FitsAt (ex : Extent) (req : Request) (start : ULong) : Prop where
  suits : Suits ex req start
  first : ∀ other, Suits ex req other → gapEnd ex other = gapEnd ex start → start ≤ other

def EndsBehind (ex : Extent) (req : Request) (start : ULong) : Prop :=
  ∃ r ∈ ex.regions, req.subend < r.erStart ∧ gapEnd ex start = r.erStart.toNat

/-- The gap that ends at a region behind the subregion leaves exactly one address less than the
best of the other gaps. -/
def NearTie (ex : Extent) (req : Request) : Prop :=
  ∃ start other, (FitsAt ex req start ∧ EndsBehind ex req start) ∧
    (FitsAt ex req other ∧ ¬ EndsBehind ex req other) ∧
    leftover ex req other = leftover ex req start + 1 ∧
    ∀ third, FitsAt ex req third → ¬ EndsBehind ex req third →
      leftover ex req other ≤ leftover ex req third

/-- What a call without boundary lines answers. -/
structure Complete (ex : Extent) (req : Request) (outcome : Outcome) : Prop where
  eagain : outcome = .eagain → ∀ start, ¬ Suits ex req start
  fast : req.fast = true → ∀ result, outcome = .ok result →
    Suits ex req result ∧ ∀ start, Suits ex req start → result ≤ start
  best : req.fast = false → ∀ result, outcome = .ok result →
    FitsAt ex req result ∧ ∀ start, FitsAt ex req start →
      leftover ex req result ≤ leftover ex req start

/-! ### Aligning without a bound on the skew -/

section Aligning

variable {align skew start : ULong} {k : Nat}

theorem toNat_extentAlign_eq (pow : align.toNat = 2 ^ k) (lt : k < 64) :
    (extentAlign start align skew).toNat =
      nextCongruent start.toNat skew.toNat align.toNat % 2 ^ 64 := by
  have shape : extentAlign start align skew =
      start + BitVec.ofNat 64 ((skew - start).toNat % 2 ^ k) := by
    have turned : -(start - skew) = skew - start := by bv_omega
    rw [extentAlign, roundUp_eq pow lt, turned]
    bv_omega
  rw [shape, toNat_add_distance lt, pow]

theorem extentAlign_from (pow : IsPowerOfTwo align) (start : ULong) :
    ((extentAlign start align skew).toNat + 2 ^ 63 < start.toNat ∧
        ∀ y : ULong, start ≤ y → ¬ y.toNat ≡ skew.toNat [MOD align.toNat]) ∨
      (start ≤ extentAlign start align skew ∧
        (extentAlign start align skew).toNat ≡ skew.toNat [MOD align.toNat] ∧
        ∀ y : ULong, start ≤ y → y.toNat ≡ skew.toNat [MOD align.toNat] →
          extentAlign start align skew ≤ y) := by
  obtain ⟨k, lt, pow⟩ := pow
  have pos : 0 < align.toNat := by
    rw [pow]
    exact Nat.two_pow_pos k
  have half : align.toNat ≤ 2 ^ 63 := by
    rw [pow]
    exact Nat.pow_le_pow_right (by decide) (by omega)
  have next' := @toNat_extentAlign_eq align skew start k pow lt
  have near : nextCongruent start.toNat skew.toNat align.toNat < start.toNat + align.toNat :=
    Nat.add_lt_add_left (mod_lt _ pos) _
  have above := @le_nextCongruent start.toNat skew.toNat align.toNat
  by_cases fits : nextCongruent start.toNat skew.toNat align.toNat < 2 ^ 64
  · rw [mod_eq_of_lt fits] at next'
    right
    refine ⟨?_, ?_, fun y later cong => ?_⟩
    · rw [BitVec.le_def, next']
      exact above
    · rw [next']
      exact nextCongruent_modEq pos
    · rw [BitVec.le_def, next']
      exact nextCongruent_le pos (BitVec.le_def.mp later) cong
  · left
    refine ⟨?_, fun y later cong => ?_⟩
    · rw [next']
      omega
    · have least := nextCongruent_le pos (BitVec.le_def.mp later) cong
      omega

/-- Aligning behind an address; the overflow check of the loop tells whether it wraps. -/
theorem extentAlign_behind (pow : IsPowerOfTwo align) (last : ULong) :
    (extentAlign (last + 1) align skew < last ∧
        ∀ y : ULong, last < y → ¬ y.toNat ≡ skew.toNat [MOD align.toNat]) ∨
      (last < extentAlign (last + 1) align skew ∧
        (extentAlign (last + 1) align skew).toNat ≡ skew.toNat [MOD align.toNat] ∧
        ∀ y : ULong, last < y → y.toNat ≡ skew.toNat [MOD align.toNat] →
          extentAlign (last + 1) align skew ≤ y) := by
  have from_ := @extentAlign_from align skew pow (last + 1)
  by_cases isMax : last + 1 = 0
  · have lst : last = -1 := by bv_omega
    left
    refine ⟨?_, fun y later => absurd later (by bv_omega)⟩
    obtain ⟨k, lt, pow⟩ := pow
    have sml : skew.toNat % align.toNat < align.toNat := by
      apply mod_lt
      rw [pow]
      exact Nat.two_pow_pos k
    have inWord : skew.toNat % align.toNat < 2 ^ 64 := by omega
    have rst : (BitVec.ofNat 64 (skew.toNat % align.toNat)).toNat = skew.toNat % align.toNat := by
      rw [BitVec.toNat_ofNat, mod_eq_of_lt inWord]
    have zero : (0 : ULong) ≤ BitVec.ofNat 64 (skew.toNat % align.toNat) := by bv_omega
    cases from_ with
    | inl wraps =>
      rw [isMax] at wraps
      exact absurd (by rw [rst]; exact mod_modEq _ _) (wraps.2 _ zero)
    | inr next =>
      rw [isMax] at next ⊢
      have least := next.2.2 _ zero (by rw [rst]; exact mod_modEq _ _)
      rw [BitVec.le_def] at least
      have top : (-1 : ULong).toNat = 2 ^ 64 - 1 := by decide
      rw [lst, BitVec.lt_def]
      omega
  · have succ (y : ULong) : last + 1 ≤ y ↔ last < y := by bv_omega
    simp only [succ] at from_
    cases from_ with
    | inl wraps =>
      exact .inl ⟨by bv_omega, wraps.2⟩
    | inr next => exact .inr next

end Aligning

/-! ### The slots of the search -/

/-- The slot up to the end of the subregion. -/
def finalSlot (req : Request) (newstart exend : ULong) : List (Offer ULong) :=
  if leOv newstart (req.size - 1) req.subend then
    [⟨newstart, (exend - newstart - (req.size - 1)).toNat⟩]
  else []

/-- The slots that the search comes to, with the overhead that it computes. -/
def slots (ex : Extent) (req : Request) : ULong → List Region → List (Offer ULong)
  | newstart, [] => finalSlot req newstart ex.exEnd
  | newstart, rp :: rest =>
    if rp.erStart > req.subend then finalSlot req newstart rp.erStart
    else
      let next := extentAlign (rp.erEnd + 1) req.alignment req.skew
      (if leOv newstart req.size rp.erStart then
        [⟨newstart, (rp.erStart - newstart - req.size).toNat⟩] else []) ++
        if next < rp.erEnd then [] else slots ex req next rest

def Best.slot (best : Best) : Option (Offer ULong) :=
  if best.ovh = 0 then none else some ⟨best.start, best.ovh.toNat⟩

def choose (req : Request) (best : Option (Offer ULong)) (slots : List (Offer ULong)) :
    Option ULong :=
  if req.fast then slots.head?.map Offer.place else bestFit best slots

section Choice

variable {ex : Extent} {req : Request} {newstart exend ovh : ULong} {best : Best}
  {bef tl : List Region}

theorem choose_nil : (failed req best).map Found.start = choose req best.slot [] := by
  unfold failed choose Best.slot
  cases req.fast with
  | true => rfl
  | false =>
    by_cases none_ : best.ovh = 0
    · rw [if_neg fun chosen => chosen.2 none_, if_pos none_]
      rfl
    · rw [if_pos ⟨rfl, none_⟩, if_neg none_]
      rfl

theorem Best.slot_improve (wastes : ovh ≠ 0) : (best.improve ovh newstart bef tl).slot =
    some (Offer.keep best.slot ⟨newstart, ovh.toNat⟩) := by
  have taken : (Best.mk ovh newstart bef tl).slot = some ⟨newstart, ovh.toNat⟩ := if_neg wastes
  unfold Best.improve
  by_cases none_ : best.ovh = 0
  · have hn : best.slot = none := if_pos none_
    rw [if_pos (Or.inl none_), taken, hn]
    rfl
  have hsome : best.slot = some ⟨best.start, best.ovh.toNat⟩ := if_neg none_
  by_cases better : ovh < best.ovh
  · rw [if_pos (Or.inr better), taken, hsome]
    exact congrArg some (if_pos (BitVec.lt_def.mp better)).symm
  · rw [if_neg (not_or.mpr ⟨none_, better⟩), hsome]
    exact congrArg some (if_neg fun less => better (BitVec.lt_def.mpr less)).symm

theorem choose_cons {more : List (Offer ULong)} {found : Option Found}
    (goesOn : req.fast = false → ovh ≠ 0 →
      found.map Found.start = choose req (best.improve ovh newstart bef tl).slot more) :
    (if req.fast ∨ ovh = 0 then some ⟨newstart, bef, tl⟩ else found).map Found.start =
      choose req best.slot (⟨newstart, ovh.toNat⟩ :: more) := by
  have zero : ovh.toNat = 0 ↔ ovh = 0 := by
    rw [← BitVec.toNat_inj]
    rfl
  unfold choose at goesOn ⊢
  cases isFast : req.fast with
  | true =>
    rfl
  | false =>
    by_cases exact_ : ovh = 0
    · rw [if_pos (.inr exact_), bestFit, if_pos (zero.mpr exact_)]
      rfl
    have notTaken : ¬ ((false = true) ∨ ovh = 0) := not_or.mpr ⟨Bool.false_ne_true, exact_⟩
    have goesOn := goesOn isFast exact_
    rw [isFast] at goesOn
    rw [if_neg notTaken, goesOn, bestFit, if_neg fun eq0 => exact_ (zero.mp eq0)]
    rw [Best.slot_improve exact_]
    rfl

theorem boundaryCheck_none (noBd : req.boundary = 0) (fits : ULong → Bool) :
    boundaryCheck ex req fits newstart = .fits newstart := if_pos noBd

theorem finalCheck_choose (noBd : req.boundary = 0) :
    (finalCheck ex req newstart exend best bef tl).map Found.start =
      choose req best.slot (finalSlot req newstart exend) := by
  unfold finalCheck finalSlot
  rw [boundaryCheck_none noBd]
  by_cases suff : leOv newstart (req.size - 1) req.subend = true
  · rw [if_pos suff, if_pos suff]
    exact choose_cons fun _ _ => choose_nil
  · rw [if_neg suff, if_neg suff]
    exact choose_nil

theorem searchLoop_choose (noBd : req.boundary = 0) :
    (searchLoop ex req newstart best bef tl).map Found.start =
      choose req best.slot (slots ex req newstart tl) := by
  induction tl generalizing newstart best bef with
  | nil => exact finalCheck_choose noBd
  | cons rp tl ih =>
    unfold searchLoop slots
    by_cases past : rp.erStart > req.subend
    · rw [if_pos past, if_pos past]
      exact finalCheck_choose noBd
    rw [if_neg past, if_neg past, boundaryCheck_none noBd]
    have skip (best : Best) :
        (if extentAlign (rp.erEnd + 1) req.alignment req.skew < rp.erEnd then failed req best
          else searchLoop ex req (extentAlign (rp.erEnd + 1) req.alignment req.skew) best
            (rp :: bef) tl).map Found.start =
          choose req best.slot
            (if extentAlign (rp.erEnd + 1) req.alignment req.skew < rp.erEnd then []
              else slots ex req (extentAlign (rp.erEnd + 1) req.alignment req.skew) tl) := by
      by_cases wraps : extentAlign (rp.erEnd + 1) req.alignment req.skew < rp.erEnd
      · rw [if_pos wraps, if_pos wraps]
        exact choose_nil
      · rw [if_neg wraps, if_neg wraps]
        exact ih
    by_cases suff : leOv newstart req.size rp.erStart = true
    · rw [if_pos suff, if_pos suff]
      exact choose_cons fun _ _ => skip _
    · rw [if_neg suff, if_neg suff]
      exact skip best

end Choice

/-! ### The gaps -/

section Gaps

variable {ex : Extent} {req : Request} {start other newstart limit : ULong} {r rp : Region}
  {bef tl regions : List Region}

theorem leOv_iff {size : ULong} :
    leOv start size limit = true ↔ start.toNat + size.toNat ≤ limit.toNat := by
  unfold leOv
  rw [Bool.and_eq_true, decide_eq_true_iff, decide_eq_true_iff]
  bv_omega

theorem Suits.apart (suits : Suits ex req start) (sound : ex.Sound) (pos : 1 ≤ req.size)
    (isIn : r ∈ ex.regions) :
    start.toNat + req.size.toNat ≤ r.erStart.toNat ∨ r.erEnd < start := by
  by_contra ovl
  obtain ⟨early, late⟩ := not_or.mp ovl
  have prop := sound.sorted.proper r isIn
  by_cases lt : r.erStart ≤ start
  · exact suits.free start (BitVec.le_refl _) (by bv_omega) ⟨r, isIn, lt, BitVec.not_lt.mp late⟩
  · exact suits.free r.erStart (by bv_omega) (by omega) ⟨r, isIn, BitVec.le_refl _, prop⟩

theorem find?_le (sort : Sorted regions) (isIn : r ∈ regions) (later : start ≤ r.erStart) :
    ∃ fst, regions.find? (fun r => decide (start ≤ r.erStart)) = some fst ∧
      fst.erStart ≤ r.erStart := by
  induction regions with
  | nil => cases isIn
  | cons head tail ih =>
    obtain ⟨prop, above, sortedTail⟩ := sorted_cons.mp sort
    by_cases next' : start ≤ head.erStart
    · refine ⟨head, ?_, ?_⟩
      · rw [find?_cons, decide_eq_true next']
      · cases mem_cons.mp isIn with
        | inl hd =>
          rw [hd]
          exact BitVec.le_refl _
        | inr inTail => exact BitVec.le_trans prop (BitVec.le_of_lt (above r inTail))
    · have inTail : r ∈ tail := by
        cases mem_cons.mp isIn with
        | inl hd => exact absurd (hd ▸ later) next'
        | inr inTail => exact inTail
      rw [find?_cons, decide_eq_false next']
      exact ih sortedTail inTail

theorem gapEnd_le (sound : ex.Sound) (isIn : r ∈ ex.regions) (later : start ≤ r.erStart) :
    gapEnd ex start ≤ r.erStart.toNat := by
  obtain ⟨first, fst, old⟩ := find?_le sound.sorted isIn later
  rw [gapEnd, fst]
  exact old

theorem le_gapEnd (lt : start ≤ ex.exEnd) : start.toNat ≤ gapEnd ex start := by
  unfold gapEnd
  split
  · exact le_succ_of_le lt
  · rename_i r fst
    exact of_decide_eq_true
      (find?_some (p := fun r : Region => decide (start ≤ r.erStart)) fst)

theorem find?_skip (sound : ex.Sound) (lst : bef.reverse ++ tl = ex.regions)
    (below : EndsBelow bef start) : ex.regions.find? (fun r => decide (start ≤ r.erStart)) =
      tl.find? fun r => decide (start ≤ r.erStart) := by
  have none_ : bef.reverse.find? (fun r => decide (start ≤ r.erStart)) = none := by
    rw [List.find?_eq_none]
    intro r isIn late
    have mem : r ∈ ex.regions := lst ▸ mem_append_left tl isIn
    have prop := sound.sorted.proper r mem
    have ends := below r (mem_reverse.mp isIn)
    have later := of_decide_eq_true late
    bv_omega
  rw [← lst, find?_append, none_, Option.none_or]

theorem gapEnd_cons (sound : ex.Sound) (lst : bef.reverse ++ rp :: tl = ex.regions)
    (below : EndsBelow bef start) (ahead : start ≤ rp.erStart) :
    gapEnd ex start = rp.erStart.toNat := by
  rw [gapEnd, find?_skip sound lst below, find?_cons, decide_eq_true ahead]

theorem gapEnd_nil (sound : ex.Sound) (lst : bef.reverse ++ [] = ex.regions)
    (below : EndsBelow bef start) : gapEnd ex start = ex.exEnd.toNat + 1 := by
  rw [gapEnd, find?_skip sound lst below, find?_nil]

theorem Suits.endsBelow (suits : Suits ex req other) (sound : ex.Sound) (pos : 1 ≤ req.size)
    (mem : ∀ r ∈ bef, r ∈ ex.regions) (below : EndsBelow bef start)
    (lt : start ≤ ex.exEnd) (same : gapEnd ex other = gapEnd ex start) :
    EndsBelow bef other := by
  intro r isIn
  cases suits.apart sound pos (mem r isIn) with
  | inr tail => exact tail
  | inl ahead =>
    have early := gapEnd_le sound (mem r isIn) (show other ≤ r.erStart by bv_omega)
    have late := @le_gapEnd ex start lt
    have prop := sound.sorted.proper r (mem r isIn)
    have ends := below r isIn
    bv_omega

/-- Where the walk stands: at the first congruent address behind the list so far. -/
structure Stands (ex : Extent) (req : Request) (newstart : ULong) (before rest : List Region) :
    Prop where
  isList : before.reverse ++ rest = ex.regions
  congruent : newstart.toNat ≡ req.skew.toNat [MOD req.alignment.toNat]
  lower : req.substart ≤ newstart
  below : EndsBelow before newstart
  least : ∀ other : ULong, other.toNat ≡ req.skew.toNat [MOD req.alignment.toNat] →
    req.substart ≤ other → EndsBelow before other → newstart ≤ other

section

variable (stands : Stands ex req newstart bef tl)

include stands

theorem Stands.listed :
    ∀ r ∈ bef, r ∈ ex.regions :=
  fun _ isIn => stands.isList ▸ mem_append_left tl (mem_reverse.mpr isIn)

theorem Stands.belowAt (from_ : newstart ≤ start) :
    EndsBelow bef start :=
  fun r isIn => BitVec.lt_def.mpr (lt_of_lt_of_le (stands.below r isIn) from_)

theorem Stands.fitsAt (sound : ex.Sound)
    (adm : req.Admitted ex) (upper : newstart.toNat + req.size.toNat ≤ req.subend.toNat + 1)
    (ahead : ∀ r ∈ tl, newstart.toNat + req.size.toNat ≤ r.erStart.toNat) :
    FitsAt ex req newstart := by
  have pos := adm.positive
  have inExtent := adm.upper
  refine ⟨⟨stands.congruent, stands.lower, upper, fun x from_ below => ?_⟩, fun other suits same => ?_⟩
  · intro ⟨r, isIn, beg, ends⟩
    rw [← stands.isList] at isIn
    cases mem_append.mp isIn with
    | inl mem =>
      have before_ := stands.below r (mem_reverse.mp mem)
      bv_omega
    | inr hrest =>
      have tail := ahead r hrest
      bv_omega
  · exact stands.least other suits.congruent suits.lower
      (suits.endsBelow sound pos stands.listed stands.below (by bv_omega) same)

end

/-- A slot at a fitting start, with what is left over; the code counts one more before a region
behind the subregion. -/
structure SlotRight (ex : Extent) (req : Request) (slot : Offer ULong) : Prop where
  fits : FitsAt ex req slot.place
  behind : EndsBehind ex req slot.place → slot.left = leftover ex req slot.place + 1
  inside : ¬ EndsBehind ex req slot.place → slot.left = leftover ex req slot.place

/-- The slots from a place on: each is right, every start that suits lies in the gap of one, and
the first one comes before all of these. -/
structure SlotsRight (ex : Extent) (req : Request) (newstart : ULong) (found : List (Offer ULong)) :
    Prop where
  right : ∀ slot ∈ found, newstart ≤ slot.place ∧ SlotRight ex req slot
  complete : ∀ start, Suits ex req start → newstart ≤ start →
    ∃ slot ∈ found, gapEnd ex slot.place = gapEnd ex start
  head : ∀ slot more, found = slot :: more → ∀ start, Suits ex req start → newstart ≤ start →
    slot.place ≤ start

theorem slotsRight_nil (none_ : ∀ start, newstart ≤ start → ¬ Suits ex req start) :
    SlotsRight ex req newstart [] where
  right := by
    intro slot isIn
    cases isIn
  complete := fun start suits from_ => absurd suits (none_ start from_)
  head := by
    intro slot more isNil
    cases isNil

theorem slotsRight_single {left : Nat} (right : SlotRight ex req ⟨newstart, left⟩)
    (same : ∀ start, Suits ex req start → newstart ≤ start → gapEnd ex newstart = gapEnd ex start) :
    SlotsRight ex req newstart [⟨newstart, left⟩] where
  right := by
    intro slot isIn
    rw [mem_singleton.mp isIn]
    exact ⟨BitVec.le_refl _, right⟩
  complete := fun start suits from_ => ⟨_, mem_singleton_self _, same start suits from_⟩
  head := by
    intro slot more isCons start _ from_
    cases isCons
    exact from_

theorem toNat_size_pred (pos : 1 ≤ req.size) : (req.size - 1).toNat = req.size.toNat - 1 := by
  bv_omega

/-- The gap behind the last region is offered last. -/
theorem finalSlot_right (stands : Stands ex req newstart bef tl) (sound : ex.Sound)
    (adm : req.Admitted ex) (above : StartsAbove tl req.subend) {exend : ULong} {stop : Nat}
    (isGap : ∀ start, newstart ≤ start → start ≤ req.subend → gapEnd ex start = stop)
    (rm : req.subend ≤ exend)
    (tail : EndsBehind ex req newstart → exend.toNat = stop ∧ req.subend < exend)
    (lt : newstart ≤ req.subend → ¬ EndsBehind ex req newstart → exend.toNat + 1 = stop) :
    SlotsRight ex req newstart (finalSlot req newstart exend) := by
  have pos := adm.positive
  have pred := toNat_size_pred pos
  have ne0 : 1 ≤ req.size.toNat := BitVec.le_def.mp pos
  unfold finalSlot
  by_cases suff : leOv newstart (req.size - 1) req.subend = true
  · rw [if_pos suff]
    rw [leOv_iff] at suff
    have here := isGap newstart (BitVec.le_refl _) (by bv_omega)
    have left : (exend - newstart - (req.size - 1)).toNat =
        exend.toNat - newstart.toNat - (req.size.toNat - 1) := by
      bv_omega
    have fits : FitsAt ex req newstart := by
      refine stands.fitsAt sound adm (by bv_omega) fun r isIn => ?_
      have later := above r isIn
      bv_omega
    apply slotsRight_single
    · refine ⟨fits, fun aft => ?_, fun isInside => ?_⟩
      · obtain ⟨isStop, strict⟩ := tail aft
        have strictNat : req.subend.toNat < exend.toNat := BitVec.lt_def.mp strict
        rw [leftover]
        dsimp only
        omega
      · have isStop := lt (by bv_omega) isInside
        rw [leftover]
        dsimp only
        omega
    · intro start suits from_
      have upper := suits.upper
      rw [here, isGap start from_ (by bv_omega)]
  · rw [if_neg suff]
    apply slotsRight_nil
    intro start from_ suits
    have upper := suits.upper
    rw [leOv_iff] at suff
    bv_omega

theorem Stands.next (stands : Stands ex req newstart bef (rp :: tl)) (sound : ex.Sound)
    (later : ∀ r ∈ bef, r.erEnd < rp.erEnd) (pow : IsPowerOfTwo req.alignment)
    (from_ : req.substart ≤ rp.erStart)
    (noWrap : ¬ extentAlign (rp.erEnd + 1) req.alignment req.skew < rp.erEnd) :
    Stands ex req (extentAlign (rp.erEnd + 1) req.alignment req.skew) (rp :: bef) tl := by
  have prop := sound.sorted.proper rp (stands.isList ▸ mem_append_right _ mem_cons_self)
  cases @extentAlign_behind req.alignment req.skew pow rp.erEnd with
  | inl wraps => exact absurd wraps.1 noWrap
  | inr next =>
    obtain ⟨far, cong, least⟩ := next
    refine ⟨by rw [reverse_cons, append_assoc]; exact stands.isList, cong,
      by bv_omega, fun r isIn => ?_, fun other isCongruent _ below => ?_⟩
    · cases mem_cons.mp isIn with
      | inl isRp =>
        rw [isRp]
        exact far
      | inr mem =>
        have ends := later r mem
        bv_omega
    · exact least other (below rp mem_cons_self) isCongruent

/-- The slots behind a region, where the walk goes on unless the address wraps. -/
structure SlotsBehind (ex : Extent) (req : Request) (rp : Region) (found : List (Offer ULong)) :
    Prop where
  right : ∀ slot ∈ found, rp.erEnd < slot.place ∧ SlotRight ex req slot
  complete : ∀ start, Suits ex req start → rp.erEnd < start →
    ∃ slot ∈ found, gapEnd ex slot.place = gapEnd ex start
  head : ∀ slot more, found = slot :: more → ∀ start, Suits ex req start → rp.erEnd < start →
    slot.place ≤ start

theorem slotsBehind_next (pow : IsPowerOfTwo req.alignment) {found : List (Offer ULong)}
    (right : ¬ extentAlign (rp.erEnd + 1) req.alignment req.skew < rp.erEnd →
      SlotsRight ex req (extentAlign (rp.erEnd + 1) req.alignment req.skew) found) :
    SlotsBehind ex req rp
      (if extentAlign (rp.erEnd + 1) req.alignment req.skew < rp.erEnd then [] else found) := by
  cases @extentAlign_behind req.alignment req.skew pow rp.erEnd with
  | inl wraps =>
    obtain ⟨wraps, none_⟩ := wraps
    rw [if_pos wraps]
    refine ⟨fun slot isIn => ?_, fun start suits behind => ?_, fun slot more isCons => ?_⟩
    · cases isIn
    · exact absurd suits.congruent (none_ start behind)
    · cases isCons
  | inr next =>
    obtain ⟨far, _, least⟩ := next
    have noWrap : ¬ extentAlign (rp.erEnd + 1) req.alignment req.skew < rp.erEnd := by bv_omega
    rw [if_neg noWrap]
    have right := right noWrap
    refine ⟨fun slot isIn => ?_, fun start suits behind => ?_, fun slot more isCons start suits
      behind => ?_⟩
    · obtain ⟨later, slotRight⟩ := right.right slot isIn
      exact ⟨by bv_omega, slotRight⟩
    · exact right.complete start suits (least start behind suits.congruent)
    · exact right.head slot more isCons start suits (least start behind suits.congruent)

/-- The gap before a region is offered first, then the ones behind it. -/
theorem slotsRight_region (stands : Stands ex req newstart bef (rp :: tl)) (sound : ex.Sound)
    (adm : req.Admitted ex) (later : ∀ r ∈ bef, r.erEnd < rp.erEnd)
    (s' : StartsAbove tl rp.erEnd) (lt : rp.erStart ≤ req.subend)
    {tail : List (Offer ULong)} (bhd : SlotsBehind ex req rp tail) :
    SlotsRight ex req newstart ((if leOv newstart req.size rp.erStart then
      [⟨newstart, (rp.erStart - newstart - req.size).toNat⟩] else []) ++ tail) := by
  have pos := adm.positive
  have lst : rp ∈ ex.regions := stands.isList ▸ mem_append_right _ mem_cons_self
  have prop := sound.sorted.proper rp lst
  have gap (start : ULong) (from_ : newstart ≤ start) (ahead : start ≤ rp.erStart) :
      gapEnd ex start = rp.erStart.toNat :=
    gapEnd_cons sound stands.isList (stands.belowAt from_) ahead
  have path (slot : Offer ULong) (isIn : slot ∈ tail) : newstart ≤ slot.place := by
    obtain ⟨far, right⟩ := bhd.right slot isIn
    refine stands.least slot.place right.fits.suits.congruent right.fits.suits.lower fun r isIn => ?_
    have ends := later r isIn
    bv_omega
  by_cases suff : leOv newstart req.size rp.erStart = true
  · rw [if_pos suff]
    rw [leOv_iff] at suff
    have here := gap newstart (BitVec.le_refl _) (by bv_omega)
    have notBehind : ¬ EndsBehind ex req newstart := by
      intro ⟨r, _, past, isEnd⟩
      bv_omega
    have fits : FitsAt ex req newstart := by
      refine stands.fitsAt sound adm (by bv_omega) fun r isIn => ?_
      cases mem_cons.mp isIn with
      | inl isRp =>
        rw [isRp]
        exact suff
      | inr mem =>
        have beg := s' r mem
        bv_omega
    refine ⟨fun slot isIn => ?_, fun start suits from_ => ?_,
      fun slot more isCons start _ from_ => ?_⟩
    · cases mem_cons.mp isIn with
      | inl fst =>
        rw [fst]
        refine ⟨BitVec.le_refl _, fits, fun aft => absurd aft notBehind, fun _ => ?_⟩
        rw [leftover]
        bv_omega
      | inr inTail => exact ⟨path slot inTail, (bhd.right slot inTail).2⟩
    · cases suits.apart sound pos lst with
      | inl ahead =>
        exact ⟨_, mem_cons_self, here.trans (gap start from_ (by bv_omega)).symm⟩
      | inr far =>
        obtain ⟨slot, isIn, same⟩ := bhd.complete start suits far
        exact ⟨slot, mem_cons_of_mem _ isIn, same⟩
    · cases isCons
      exact from_
  · rw [if_neg suff]
    rw [leOv_iff] at suff
    have far (start : ULong) (suits : Suits ex req start) (from_ : newstart ≤ start) :
        rp.erEnd < start := by
      cases suits.apart sound pos lst with
      | inl ahead => exact absurd ahead (by bv_omega)
      | inr far => exact far
    exact ⟨fun slot isIn => ⟨path slot isIn, (bhd.right slot isIn).2⟩,
      fun start suits from_ => bhd.complete start suits (far start suits from_),
      fun slot more isCons start suits from_ =>
        bhd.head slot more isCons start suits (far start suits from_)⟩

/-- The gaps offered are those the request fits in, in order. -/
theorem slots_right (stands : Stands ex req newstart bef tl) (sound : ex.Sound)
    (adm : req.Admitted ex) (pow : IsPowerOfTwo req.alignment)
    (ahead : ∀ r ∈ tl, req.substart ≤ r.erStart) :
    SlotsRight ex req newstart (slots ex req newstart tl) := by
  induction tl generalizing newstart bef with
  | nil =>
    have gap (start : ULong) (from_ : newstart ≤ start) :
        gapEnd ex start = ex.exEnd.toNat + 1 := gapEnd_nil sound stands.isList (stands.belowAt from_)
    have notBehind : ¬ EndsBehind ex req newstart := by
      intro ⟨r, isIn, _, isEnd⟩
      have lt := (sound.inside r isIn).2
      have prop := sound.sorted.proper r isIn
      rw [gap newstart (BitVec.le_refl _)] at isEnd
      bv_omega
    apply finalSlot_right stands sound adm _ _ adm.upper
    · exact fun aft => absurd aft notBehind
    · exact fun _ _ => rfl
    · intro r isIn
      cases isIn
    · exact fun start from_ _ => gap start from_
  | cons rp tl ih =>
    have sort : Sorted (bef.reverse ++ ([rp] ++ tl)) := by
      have isSorted := sound.sorted
      rwa [← stands.isList] at isSorted
    obtain ⟨_, _, _, beforeRp, s', _⟩ := sorted_split.mp sort
    have s' := s' rp (mem_singleton_self rp)
    have beforeRp := beforeRp rp (mem_singleton_self rp)
    have lst : rp ∈ ex.regions := stands.isList ▸ mem_append_right _ mem_cons_self
    have prop := sound.sorted.proper rp lst
    unfold slots
    by_cases past : rp.erStart > req.subend
    · rw [if_pos past]
      have gap (start : ULong) (from_ : newstart ≤ start) (upTo : start ≤ req.subend) :
          gapEnd ex start = rp.erStart.toNat :=
        gapEnd_cons sound stands.isList (stands.belowAt from_) (by bv_omega)
      apply finalSlot_right stands sound adm _ gap (BitVec.le_of_lt past)
      · exact fun _ => ⟨rfl, past⟩
      · intro got hins
        exact absurd ⟨rp, lst, past, gap newstart (BitVec.le_refl _) got⟩ hins
      · intro r isIn
        cases mem_cons.mp isIn with
        | inl isRp =>
          rw [isRp]
          exact past
        | inr mem =>
          have beg := s' r mem
          bv_omega
    · rw [if_neg past]
      have lt : rp.erStart ≤ req.subend := BitVec.not_lt.mp past
      have later : ∀ r ∈ bef, r.erEnd < rp.erEnd := by
        intro r isIn
        have ends := beforeRp r isIn
        bv_omega
      apply slotsRight_region stands sound adm later s' lt
      apply slotsBehind_next pow
      intro noWrap
      exact ih (stands.next sound later pow (ahead rp mem_cons_self) noWrap)
        (forall_mem_cons.mp ahead).2

end Gaps

/-! ### The search without boundary lines -/

/-- The addresses do not wrap around where the search starts, and the alignment and the boundary
are powers of two. -/
structure Request.Searches (req : Request) (ex : Extent) : Prop where
  alignment : IsPowerOfTwo req.alignment
  boundary : req.boundary ≠ 0 → IsPowerOfTwo req.boundary
  aligns : ¬ extentAlign req.substart req.alignment req.skew < ex.exStart →
    req.substart ≤ extentAlign req.substart req.alignment req.skew
  relocates : req.Relocates ex (extentAlign req.substart req.alignment req.skew)

section Search

variable {ex ex' : Extent} {req : Request} {start newstart : ULong} {bef tl : List Region}
  {found : List (Offer ULong)} {out : Outcome}

theorem Request.Searches.first (srch : req.Searches ex)
    (beg : extentAlign req.substart req.alignment req.skew = newstart)
    (lt : ¬ newstart < ex.exStart) : req.substart ≤ newstart ∧
      newstart.toNat ≡ req.skew.toNat [MOD req.alignment.toNat] ∧
      ∀ y : ULong, req.substart ≤ y → y.toNat ≡ req.skew.toNat [MOD req.alignment.toNat] →
        newstart ≤ y := by
  have aligns := srch.aligns
  have from_ := @extentAlign_from req.alignment req.skew srch.alignment req.substart
  rw [beg] at from_ aligns
  have lower := aligns lt
  cases from_ with
  | inl wraps => exact absurd wraps.1 (by bv_omega)
  | inr next => exact ⟨lower, next.2⟩

theorem stands_start (sound : ex.Sound) (srch : req.Searches ex)
    (beg : extentAlign req.substart req.alignment req.skew = newstart)
    (lt : ¬ newstart < ex.exStart) (isList : bef.reverse ++ tl = ex.regions)
    (tail : ∀ r ∈ bef, r.erStart < newstart) :
    Stands ex req (relocate req newstart bef) bef tl := by
  obtain ⟨lower, cong, fst⟩ := srch.first beg lt
  have relocates := srch.relocates
  rw [beg] at relocates
  cases bef with
  | nil =>
    refine ⟨isList, cong, lower, fun r isIn => ?_, fun other isCongruent from_ _ => ?_⟩
    · cases isIn
    · exact fst other from_ isCongruent
  | cons last bef =>
    have sort : Sorted (bef.reverse ++ ([last] ++ tl)) := by
      have isSorted := sound.sorted
      rwa [← isList, reverse_cons, append_assoc] at isSorted
    have listed : last ∈ ex.regions := by
      rw [← isList]
      exact mem_append_left tl (mem_reverse.mpr mem_cons_self)
    have prop := sound.sorted.proper last listed
    have ends := (sorted_split.mp sort).2.2.2.1 last (mem_singleton_self last)
    have all {limit : ULong} (far : last.erEnd < limit) : EndsBelow (last :: bef) limit := by
      intro r isIn
      cases mem_cons.mp isIn with
      | inl lst =>
        rw [lst]
        exact far
      | inr mem =>
        have old := ends r mem
        bv_omega
    dsimp only [relocate]
    by_cases holds : last.erEnd ≥ newstart
    · rw [if_pos holds]
      have far := relocates last listed (tail last mem_cons_self) holds
      cases @extentAlign_behind req.alignment req.skew srch.alignment last.erEnd with
      | inl wraps => exact absurd wraps.1 (by bv_omega)
      | inr next =>
        exact ⟨isList, next.2.1, by bv_omega, all far, fun other isCongruent _ below =>
          next.2.2 other (below last mem_cons_self) isCongruent⟩
    · rw [if_neg holds]
      exact ⟨isList, cong, lower, all (BitVec.not_le.mp holds),
        fun other isCongruent from_ _ => fst other from_ isCongruent⟩

theorem Stands.reaches (stands : Stands ex req newstart bef tl) (sound : ex.Sound)
    (pos : 1 ≤ req.size) (suits : Suits ex req start)
    (early : ∀ r ∈ bef, r.erStart < start) : newstart ≤ start := by
  refine stands.least start suits.congruent suits.lower fun r isIn => ?_
  cases suits.apart sound pos (stands.listed r isIn) with
  | inl ahead =>
    have tail := early r isIn
    bv_omega
  | inr far => exact far

theorem firstRegion_stands (sound : ex.Sound) (srch : req.Searches ex)
    (beg : extentAlign req.substart req.alignment req.skew = newstart)
    (lt : ¬ newstart < ex.exStart)
    (fst : firstRegion newstart [] ex.regions = (bef, tl)) :
    Stands ex req (relocate req newstart bef) bef tl ∧
      (∀ r ∈ tl, req.substart ≤ r.erStart) ∧ ∀ r ∈ bef, r.erStart < newstart := by
  obtain ⟨lower, _, _⟩ := srch.first beg lt
  obtain ⟨lst, bhd, ahead⟩ := @firstRegion_spec [] ex.regions newstart (by simp)
  rw [fst] at lst bhd ahead
  have lst : bef.reverse ++ tl = ex.regions := lst
  refine ⟨stands_start sound srch beg lt lst bhd, fun r isIn => ?_, bhd⟩
  cases tl with
  | nil => cases isIn
  | cons head tail =>
    have starts := ahead head tail rfl
    have sort : Sorted (bef.reverse ++ ([head] ++ tail)) := by
      have isSorted := sound.sorted
      rwa [← lst] at isSorted
    have split := sorted_split.mp sort
    have prop := split.2.1.proper head (mem_singleton_self head)
    have s' := split.2.2.2.2.1 head (mem_singleton_self head)
    cases mem_cons.mp isIn with
    | inl hd =>
      rw [hd]
      exact BitVec.le_trans lower starts
    | inr inTail =>
      have startsTail := s' r inTail
      bv_omega

theorem search_slots (sound : ex.Sound) (adm : req.Admitted ex) (srch : req.Searches ex)
    (noBd : req.boundary = 0)
    (beg : extentAlign req.substart req.alignment req.skew = newstart)
    (lt : ¬ newstart < ex.exStart) : ∃ from_ found, SlotsRight ex req from_ found ∧
      (∀ start, Suits ex req start → from_ ≤ start) ∧
      (search ex req newstart).map Found.start = choose req none found := by
  obtain ⟨_, _, fst⟩ := srch.first beg lt
  unfold search
  cases isFirst : firstRegion newstart [] ex.regions with
  | mk bef tl =>
    obtain ⟨stands, ahead, tail⟩ := firstRegion_stands sound srch beg lt isFirst
    refine ⟨_, _, slots_right stands sound adm srch.alignment ahead,
      fun start suits => ?_, searchLoop_choose noBd⟩
    apply stands.reaches sound adm.positive suits
    intro r isIn
    have got := fst start suits.lower suits.congruent
    have early := tail r isIn
    bv_omega

/-- The choice is the first fit or the least left over, off ties. -/
theorem choose_right (right : SlotsRight ex req newstart found)
    (all : ∀ start, Suits ex req start → newstart ≤ start)
    (noTie : req.fast = false → ¬ NearTie ex req) :
    (choose req none found = none → ∀ start, ¬ Suits ex req start) ∧
      ∀ res, choose req none found = some res →
        (req.fast = true → Suits ex req res ∧ ∀ start, Suits ex req start → res ≤ start) ∧
        (req.fast = false → FitsAt ex req res ∧ ∀ start, FitsAt ex req start →
          leftover ex req res ≤ leftover ex req start) := by
  have slotOf {start : ULong} (fits : FitsAt ex req start) :
      ∃ slot ∈ found, slot.place = start ∧ SlotRight ex req slot := by
    obtain ⟨slot, isIn, same⟩ := right.complete start fits.suits (all start fits.suits)
    obtain ⟨_, slotRight⟩ := right.right slot isIn
    have upTo := slotRight.fits.first start fits.suits same.symm
    have from_ := fits.first slot.place slotRight.fits.suits same
    exact ⟨slot, isIn, BitVec.le_antisymm upTo from_, slotRight⟩
  unfold choose
  cases isFast : req.fast with
  | true =>
    cases found with
    | nil =>
      refine ⟨fun _ start suits => ?_, fun res isResult => ?_⟩
      · obtain ⟨slot, isIn, _⟩ := right.complete start suits (all start suits)
        cases isIn
      · cases isResult
    | cons slot more =>
      refine ⟨fun hn => ?_, fun res isResult => ?_⟩
      · cases hn
      · cases isResult
        have slotRight := (right.right slot mem_cons_self).2
        exact ⟨fun _ => ⟨slotRight.fits.suits, fun start suits =>
          right.head slot more rfl start suits (all start suits)⟩,
          fun isSlow => absurd isSlow (by decide)⟩
  | false =>
    rw [if_neg Bool.false_ne_true]
    refine ⟨fun hn start suits => ?_, fun res isResult => ⟨fun isFast => ?_, fun _ => ?_⟩⟩
    · rw [bestFit_eq_none_iff] at hn
      obtain ⟨slot, isIn, _⟩ := right.complete start suits (all start suits)
      rw [hn] at isIn
      cases isIn
    · exact absurd isFast Bool.false_ne_true
    · obtain ⟨taken, isIn, rfl, least⟩ := bestFit_spec isResult
      have takenRight := (right.right taken isIn).2
      refine ⟨takenRight.fits, fun start fits => ?_⟩
      obtain ⟨slot, isSlot, rfl, slotRight⟩ := slotOf fits
      have less := least slot isSlot
      by_cases takenBehind : EndsBehind ex req taken.place
      · have cnt := takenRight.behind takenBehind
        by_cases slotBehind : EndsBehind ex req slot.place
        · have other := slotRight.behind slotBehind
          omega
        · have other := slotRight.inside slotBehind
          omega
      have cnt := takenRight.inside takenBehind
      by_cases slotBehind : EndsBehind ex req slot.place
      · have other := slotRight.behind slotBehind
        -- one more is counted, so only a tie of the counts is left
        by_contra more
        refine noTie isFast ⟨slot.place, taken.place, ⟨fits, slotBehind⟩,
          ⟨takenRight.fits, takenBehind⟩, by omega, fun third isThird thirdInside => ?_⟩
        obtain ⟨thirdSlot, isIn, rfl, thirdRight⟩ := slotOf isThird
        have thirdLess := least thirdSlot isIn
        have thirdCounted := thirdRight.inside thirdInside
        omega
      · have other := slotRight.inside slotBehind
        omega

theorem complete_fails (fails : ∀ res, out ≠ .ok res)
    (eagain : out = .eagain → ∀ start, ¬ Suits ex req start) : Complete ex req out where
  eagain := eagain
  fast := fun _ res isOk => absurd isOk (fails res)
  best := fun _ res isOk => absurd isOk (fails res)

theorem complete_ok (chosen : (req.fast = true →
        Suits ex req start ∧ ∀ other, Suits ex req other → start ≤ other) ∧
      (req.fast = false → FitsAt ex req start ∧ ∀ other, FitsAt ex req other →
        leftover ex req start ≤ leftover ex req other)) : Complete ex req (.ok start) where
  eagain := by
    intro isEagain
    cases isEagain
  fast := by
    intro isFast res isOk
    cases isOk
    exact chosen.1 isFast
  best := by
    intro isSlow res isOk
    cases isOk
    exact chosen.2 isSlow

/-- A refused request has no place, and an answered one the right place. -/
theorem Extent.Sound.complete (sound : ex.Sound) (srch : req.Searches ex)
    (noBd : req.boundary = 0) (noTie : req.fast = false → ¬ NearTie ex req) {desc : Bool}
    (hc : extentAllocSubregion1 ex req desc = some (out, ex')) :
    Complete ex req out := by
  unfold extentAllocSubregion1 at hc
  by_cases refused : req.admitted ex = false
  · rw [if_pos refused] at hc
    cases hc
  rw [if_neg refused] at hc
  have adm := Request.admitted_iff (by simpa using refused)
  by_cases noDesc : desc = false
  · rw [if_pos noDesc] at hc
    cases hc
    apply complete_fails
    · intro res isOk
      cases isOk
    · intro isEagain
      cases isEagain
  rw [if_neg noDesc] at hc
  by_cases below : extentAlign req.substart req.alignment req.skew < ex.exStart
  · rw [if_pos below] at hc
    cases hc
  rw [if_neg below] at hc
  obtain ⟨from_, found, right, all, isChoice⟩ :=
    search_slots sound adm srch noBd rfl below
  obtain ⟨nothing, something⟩ := choose_right right all noTie
  cases searched : search ex req (extentAlign req.substart req.alignment req.skew) with
  | none =>
    rw [searched] at hc isChoice
    have none_ := nothing isChoice.symm
    cases hc
    exact complete_fails (refuses_noSpace ex req.waitspace).1 fun _ => none_
  | some plc =>
    rw [searched] at hc isChoice
    have chosen := something plc.start isChoice.symm
    cases hc
    exact complete_ok chosen

end Search

/-! ### The search with boundary lines -/

section Bounded

variable {ex ex' : Extent} {req : Request} {newstart found exend : ULong} {fits : ULong → Bool}
  {best : Best} {bef tl : List Region} {plc : Found} {out : Outcome}

/-- A place in a gap, inside the subregion. -/
structure Spot (ex : Extent) (req : Request) (place : Found) : Prop where
  isList : place.before.reverse ++ place.rest = ex.regions
  lower : req.substart ≤ place.start
  upper : place.start + (req.size - 1) ≤ req.subend
  gap : InGap place.start (place.start + (req.size - 1)) place.before place.rest

theorem boundaryCheck_later (boundary : req.boundary ≠ 0 → IsPowerOfTwo req.boundary)
    (adm : req.Admitted ex)
    (prop : ∀ start, fits start = true → start ≤ start + (req.size - 1))
    (inExtent : ex.exStart ≤ newstart) (suff : fits newstart = true)
    (chk : boundaryCheck ex req fits newstart = .fits found) :
    newstart ≤ found ∧ fits found = true := by
  -- the check does not depend on the alignment, so that of every address will do
  have everywhere (start : ULong) : Request.Aligned { req with alignment := 1, skew := 0 } start :=
    mod_one _
  have later := @boundaryCheck_starts ex { req with alignment := 1, skew := 0 }
    ⟨⟨0, by decide, rfl⟩, (by decide : (0 : ULong) < 1), boundary⟩
    ⟨adm.lower, adm.upper, adm.positive, adm.bounded⟩ fits prop newstart found
    inExtent (everywhere _) suff (fun _ _ _ _ => everywhere _) chk
  exact ⟨later.1, later.2.1⟩

theorem Stands.spot (stands : Stands ex req newstart bef tl)
    (boundary : req.boundary ≠ 0 → IsPowerOfTwo req.boundary) (adm : req.Admitted ex)
    (prop : ∀ start, fits start = true → start ≤ start + (req.size - 1) ∧
      start + (req.size - 1) ≤ req.subend ∧ StartsAbove tl (start + (req.size - 1)))
    (suff : fits newstart = true) (chk : boundaryCheck ex req fits newstart = .fits found) :
    Spot ex req ⟨found, bef, tl⟩ := by
  obtain ⟨later, enoughFound⟩ := boundaryCheck_later boundary adm
    (fun start isFits => (prop start isFits).1) (BitVec.le_trans adm.lower stands.lower)
    suff chk
  obtain ⟨ord, upper, above⟩ := prop found enoughFound
  exact ⟨stands.isList, BitVec.le_trans stands.lower later, upper, ord, stands.belowAt later,
    above⟩

section

variable (good : best.ovh ≠ 0 → Spot ex req ⟨best.start, best.before, best.rest⟩)

include good

theorem failed_spot (hit : failed req best = some plc) : Spot ex req plc := by
  unfold failed at hit
  by_cases chosen : req.fast = false ∧ best.ovh ≠ 0
  · rw [if_pos chosen] at hit
    cases hit
    exact good chosen.2
  · rw [if_neg chosen] at hit
    cases hit

theorem improve_spot (spot : Spot ex req ⟨found, bef, tl⟩) (ovh : ULong) :
    (best.improve ovh found bef tl).ovh ≠ 0 →
      Spot ex req ⟨(best.improve ovh found bef tl).start,
        (best.improve ovh found bef tl).before, (best.improve ovh found bef tl).rest⟩ := by
  unfold Best.improve
  by_cases better : best.ovh = 0 ∨ ovh < best.ovh
  · rw [if_pos better]
    exact fun _ => spot
  · rw [if_neg better]
    exact good

theorem taken_spot {ovh : ULong} {next : Best → Option Found}
    (spot : Spot ex req ⟨found, bef, tl⟩)
    (more : ∀ best : Best, (best.ovh ≠ 0 → Spot ex req ⟨best.start, best.before, best.rest⟩) →
      next best = some plc → Spot ex req plc)
    (hit : (if req.fast ∨ ovh = 0 then some ⟨found, bef, tl⟩
      else next (best.improve ovh found bef tl)) = some plc) : Spot ex req plc := by
  by_cases taken : req.fast = true ∨ ovh = 0
  · rw [if_pos taken] at hit
    cases hit
    exact spot
  · rw [if_neg taken] at hit
    exact more _ (improve_spot good spot ovh) hit

end

theorem Stands.finalCheck (stands : Stands ex req newstart bef tl)
    (boundary : req.boundary ≠ 0 → IsPowerOfTwo req.boundary) (adm : req.Admitted ex)
    (above : StartsAbove tl req.subend)
    (good : best.ovh ≠ 0 → Spot ex req ⟨best.start, best.before, best.rest⟩)
    (hit : SubrExtent.finalCheck ex req newstart exend best bef tl = some plc) :
    Spot ex req plc := by
  unfold SubrExtent.finalCheck at hit
  by_cases suff : leOv newstart (req.size - 1) req.subend = true
  · rw [if_pos suff] at hit
    cases checked : boundaryCheck ex req (fun start => leOv start (req.size - 1) req.subend)
        newstart with
    | moved | fail =>
      rw [checked] at hit
      exact failed_spot good hit
    | fits start =>
      rw [checked] at hit
      refine taken_spot good (stands.spot boundary adm ?_ suff checked)
        (fun _ good isFailed => failed_spot good isFailed) hit
      intro start isFits
      rw [leOv_iff] at isFits
      refine ⟨by bv_omega, by bv_omega, fun r isIn => ?_⟩
      have beg := above r isIn
      bv_omega
  · rw [if_neg suff] at hit
    exact failed_spot good hit

/-- The loop's answer is a gap that fits. -/
theorem Stands.searchLoop (stands : Stands ex req newstart bef tl) (sound : ex.Sound)
    (srch : req.Searches ex) (adm : req.Admitted ex)
    (ahead : ∀ r ∈ tl, req.substart ≤ r.erStart)
    (good : best.ovh ≠ 0 → Spot ex req ⟨best.start, best.before, best.rest⟩)
    (hit : SubrExtent.searchLoop ex req newstart best bef tl = some plc) :
    Spot ex req plc := by
  induction tl generalizing newstart best bef with
  | nil =>
    refine stands.finalCheck srch.boundary adm (fun r isIn => ?_) good hit
    cases isIn
  | cons rp tl ih =>
    have sort : Sorted (bef.reverse ++ ([rp] ++ tl)) := by
      have isSorted := sound.sorted
      rwa [← stands.isList] at isSorted
    obtain ⟨_, sgl, _, beforeRp, s', _⟩ := sorted_split.mp sort
    have prop := sgl.proper rp (mem_singleton_self rp)
    have s' := s' rp (mem_singleton_self rp)
    have beforeRp := beforeRp rp (mem_singleton_self rp)
    unfold SubrExtent.searchLoop at hit
    by_cases past : rp.erStart > req.subend
    · rw [if_pos past] at hit
      refine stands.finalCheck srch.boundary adm (fun r isIn => ?_) good hit
      cases mem_cons.mp isIn with
      | inl isRp =>
        rw [isRp]
        exact past
      | inr mem =>
        have beg := s' r mem
        bv_omega
    rw [if_neg past] at hit
    have later : ∀ r ∈ bef, r.erEnd < rp.erEnd := by
      intro r isIn
      have ends := beforeRp r isIn
      bv_omega
    have skip (best : Best) (good : best.ovh ≠ 0 → Spot ex req ⟨best.start, best.before, best.rest⟩)
        (next' : (if extentAlign (rp.erEnd + 1) req.alignment req.skew < rp.erEnd then
            failed req best
          else SubrExtent.searchLoop ex req (extentAlign (rp.erEnd + 1) req.alignment req.skew)
            best (rp :: bef) tl) = some plc) : Spot ex req plc := by
      by_cases wraps : extentAlign (rp.erEnd + 1) req.alignment req.skew < rp.erEnd
      · rw [if_pos wraps] at next'
        exact failed_spot good next'
      · rw [if_neg wraps] at next'
        exact ih (stands.next sound later srch.alignment (ahead rp mem_cons_self) wraps)
          (forall_mem_cons.mp ahead).2 good next'
    by_cases suff : leOv newstart req.size rp.erStart = true
    · rw [if_pos suff] at hit
      cases checked : boundaryCheck ex req (fun start => leOv start req.size rp.erStart)
          newstart with
      | fail =>
        rw [checked] at hit
        exact failed_spot good hit
      | moved =>
        rw [checked] at hit
        exact skip best good hit
      | fits start =>
        rw [checked] at hit
        refine taken_spot good (stands.spot srch.boundary adm ?_ suff checked)
          skip hit
        intro start isFits
        rw [leOv_iff] at isFits
        have pos := adm.positive
        refine ⟨by bv_omega, by bv_omega, fun r isIn => ?_⟩
        cases mem_cons.mp isIn with
        | inl isRp =>
          rw [isRp]
          bv_omega
        | inr mem =>
          have beg := s' r mem
          bv_omega
    · rw [if_neg suff] at hit
      exact skip best good hit

theorem search_spot (sound : ex.Sound) (adm : req.Admitted ex) (srch : req.Searches ex)
    (beg : extentAlign req.substart req.alignment req.skew = newstart)
    (lt : ¬ newstart < ex.exStart) (hit : search ex req newstart = some plc) :
    Spot ex req plc := by
  unfold search at hit
  cases isFirst : firstRegion newstart [] ex.regions with
  | mk bef tl =>
    obtain ⟨stands, ahead, _⟩ := firstRegion_stands sound srch beg lt isFirst
    rw [isFirst] at hit
    exact stands.searchLoop sound srch adm ahead (fun chosen => absurd rfl chosen) hit

theorem Extent.Sound.searched (sound : ex.Sound) (srch : req.Searches ex) {desc : Bool}
    (hc : extentAllocSubregion1 ex req desc = some (out, ex')) : ex'.Sound := by
  unfold extentAllocSubregion1 at hc
  by_cases refused : req.admitted ex = false
  · rw [if_pos refused] at hc
    cases hc
  rw [if_neg refused] at hc
  have adm := Request.admitted_iff (by simpa using refused)
  by_cases noDesc : desc = false
  · rw [if_pos noDesc] at hc
    cases hc
    exact sound
  rw [if_neg noDesc] at hc
  by_cases below : extentAlign req.substart req.alignment req.skew < ex.exStart
  · rw [if_pos below] at hc
    cases hc
  rw [if_neg below] at hc
  cases searched : search ex req (extentAlign req.substart req.alignment req.skew) with
  | none =>
    rw [searched] at hc
    cases hc
    exact sound
  | some plc =>
    rw [searched] at hc
    cases hc
    have spot := search_spot sound adm srch rfl below searched
    exact (sound.insert spot.isList.symm adm.positive rfl spot.gap
      (BitVec.le_trans adm.lower spot.lower)
      (BitVec.le_trans spot.upper adm.upper)).sound

end Bounded

/-! ### Runs -/

def Call.Searches (ex : Extent) : Call → Prop
  | .allocRegion _ _ _ _ => True
  | .allocSubregion1 req _ => req.Searches ex
  | .free _ _ _ => True

theorem Extent.Sound.step {ex ex' : Extent} (sound : ex.Sound) {call : Call}
    (srch : call.Searches ex) (move : extentStep ex call = some ex') : ex'.Sound := by
  obtain ⟨⟨out, got⟩, hc, reach⟩ := Option.map_eq_some_iff.mp move
  cases reach
  cases call with
  | allocRegion fst size waitspace desc =>
    cases sound.allocRegion hc with
    | inl allocs => exact allocs.2.2.2.sound
    | inr refuses =>
      rw [refuses.2]
      exact sound
  | allocSubregion1 req desc => exact sound.searched srch hc
  | free fst size desc =>
    cases sound.free hc with
    | inl removes => exact removes.2.sound
    | inr refuses =>
      rw [refuses.2]
      exact sound

/-- Any calls in any order on a new extent, of which none wraps around where its search starts: a
call without boundary lines is answered completely, unless a gap that ends behind the subregion
ties with the count of the best of the others. -/
theorem extent_complete (start stop : ULong) (noCoalesce : Bool) (calls : List Call)
    (searches : ∀ front call, front ++ [call] <+: calls → ∀ ex,
      consume extentStep front (extentCreate start stop noCoalesce) = some ex → call.Searches ex) :
    ∀ front req desc, front ++ [.allocSubregion1 req desc] <+: calls → ∀ ex,
      consume extentStep front (extentCreate start stop noCoalesce) = some ex →
      req.boundary = 0 → (req.fast = false → ¬ NearTie ex req) → ∀ out ex',
      extentCall ex (.allocSubregion1 req desc) = some (out, ex') → Complete ex req out := by
  intro front req desc pre ex eaten noBd noTie out ex' hc
  have sound : ex.Sound := by
    apply consume_safe extentStep Extent.Sound (fun ex call => call.Searches ex)
      (fun ex call ex' sound searched move => sound.step searched move) front
      (within_create start stop noCoalesce).sound _ eaten
    intro old input inF got reach
    have mem := inF.trans ((prefix_append front _).trans pre)
    exact searches old input mem got reach
  exact sound.complete (searches front _ pre ex eaten) noBd noTie hc

def twoOfTwelve (fast : Bool) : Request := ⟨0, 11, 2, 1, 0, 0, fast, false, false⟩

theorem extent_complete_fast :
    ∃ ex, consume extentStep [.allocRegion 3 7 false true] (extentCreate 0 99 false) = some ex ∧
      ∃ ex', extentCall ex (.allocSubregion1 (twoOfTwelve true) true) = some (.ok 0, ex') ∧
        Complete ex (twoOfTwelve true) (.ok 0) := by
  refine ⟨_, rfl, _, rfl, ?_⟩
  refine extent_complete 0 99 false
    [.allocRegion 3 7 false true, .allocSubregion1 (twoOfTwelve true) true] ?_
    [.allocRegion 3 7 false true] (twoOfTwelve true) true prefix_rfl _ rfl rfl
    (fun isSlow => absurd isSlow (by decide)) _ _ rfl
  intro front call pre ex eaten
  cases front with
  | nil =>
    obtain rfl : call = _ := by simpa using pre
    trivial
  | cons fst front =>
    cases front with
    | nil =>
      obtain ⟨rfl, rfl⟩ : fst = _ ∧ call = _ := by simpa using pre
      obtain rfl := Option.some.inj eaten
      refine ⟨⟨0, by decide, rfl⟩, fun bnd => absurd rfl bnd, fun _ => by decide, ?_⟩
      intro r isIn beg
      obtain rfl := mem_singleton.mp isIn
      exact absurd beg (by decide)
    | cons snd front => simp at pre

/-- Two ranges are taken, and two addresses of the first twelve are looked for. The gap before the
second range fits exactly, but the first gap is taken, where one address is left. -/
theorem exactGap_overlooked :
    ∃ ex, consume extentStep [.allocRegion 3 7 false true, .allocRegion 12 9 false true]
        (extentCreate 0 99 false) = some ex ∧
      ∃ ex', extentCall ex (.allocSubregion1 (twoOfTwelve false) true) = some (.ok 0, ex') ∧
        ¬ Complete ex (twoOfTwelve false) (.ok 0) := by
  refine ⟨⟨0, 99, false, [⟨3, 9⟩, ⟨12, 20⟩]⟩, by decide, _, rfl, fun complete => ?_⟩
  have fits : FitsAt ⟨0, 99, false, [⟨3, 9⟩, ⟨12, 20⟩]⟩ (twoOfTwelve false) 10 := by
    refine ⟨⟨modEq_one, by decide, by decide, ?_⟩, ?_⟩
    · intro x from_ below cov
      have upTo : x.toNat < 12 := below
      simp only [covers_cons, covers_nil, or_false] at cov
      bv_omega
    intro other suits same
    by_contra early
    by_cases fst : other ≤ 3
    · have isThree : gapEnd ⟨0, 99, false, [⟨3, 9⟩, ⟨12, 20⟩]⟩ other = 3 := by
        rw [gapEnd, find?_cons, decide_eq_true fst]
        rfl
      rw [isThree] at same
      exact absurd same (by decide)
    · refine suits.free other (BitVec.le_refl _) (Nat.lt_add_of_pos_right (by decide)) ?_
      simp only [covers_cons]
      bv_omega
  have least := (complete.best rfl 0 rfl).2 10 fits
  exact absurd least (by decide)

end NetBSD.Kern.SubrExtent
