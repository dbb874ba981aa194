import Mathlib.Data.BitVec

/-!
Owns the extent maps of `sys/kern/subr_extent.c`, with the checks of `DIAGNOSTIC`.

The region list of an extent is a list; a pointer `last` into it is the part of the
list up to that region, the nearest region first, with the part that follows. The
functions return `none` where the code panics.
-/

namespace NetBSD.Kern.SubrExtent

open List

/-- `u_long`. -/
abbrev ULong := BitVec 64

/-- `struct extent_region`. -/
structure Region where
  erStart : ULong
  erEnd : ULong
  deriving DecidableEq, Repr

/-- `struct extent`; `noCoalesce` is `EXF_NOCOALESCE`. -/
structure Extent where
  exStart : ULong
  exEnd : ULong
  noCoalesce : Bool
  regions : List Region
  deriving DecidableEq, Repr

inductive Outcome where
  | ok (result : ULong)
  | eagain
  | enomem
  /-- `EX_WAITSPACE`: the call sleeps, and starts over when it is woken. -/
  | waits
  deriving DecidableEq, Repr

def extentAlign (start align skew : ULong) : ULong :=
  (((start - skew) + (align - 1)) &&& -align) + skew

def leOv (x y z : ULong) : Bool := x + y ≥ x && x + y ≤ z

/-! ### Inserting -/

def extentInsertAndOptimize (noCoalesce : Bool) (start size : ULong) :
    List Region → List Region → List Region
  | [], [] => [⟨start, start + (size - 1)⟩]
  | [], first :: rest =>
    if noCoalesce = false ∧ start + size = first.erStart then { first with erStart := start } :: rest
    else ⟨start, start + (size - 1)⟩ :: first :: rest
  | after :: before, rest =>
    if noCoalesce then before.reverse ++ after :: ⟨start, start + (size - 1)⟩ :: rest
    else if after.erEnd + 1 = start then
      match rest with
      | [] => before.reverse ++ [{ after with erEnd := start + (size - 1) }]
      | next :: rest =>
        if start + size = next.erStart then
          before.reverse ++ { after with erEnd := next.erEnd } :: rest
        else before.reverse ++ { after with erEnd := start + (size - 1) } :: next :: rest
    else
      match rest with
      | [] => before.reverse ++ [after, ⟨start, start + (size - 1)⟩]
      | next :: rest =>
        if start + size = next.erStart then
          before.reverse ++ after :: { next with erStart := start } :: rest
        else before.reverse ++ after :: ⟨start, start + (size - 1)⟩ :: next :: rest

def Extent.insert (ex : Extent) (start size : ULong) (before rest : List Region) : Extent :=
  { ex with regions := extentInsertAndOptimize ex.noCoalesce start size before rest }

/-! ### A given region -/

/-- The loop of `extent_alloc_region`: where the region goes, unless it conflicts. -/
def placeLoop (start stop : ULong) : List Region → List Region → Option (List Region × List Region)
  | before, [] => some (before, [])
  | before, rp :: rest =>
    if rp.erStart > stop then some (before, rp :: rest)
    else if rp.erEnd ≥ start then none
    else placeLoop start stop (rp :: before) rest

/-- No space: wait for it to free up, if possible. -/
def noSpace (waitspace : Bool) : Outcome := if waitspace then .waits else .eagain

def extentAllocRegion (ex : Extent) (start size : ULong) (waitspace desc : Bool) :
    Option (Outcome × Extent) :=
  let stop := start + (size - 1)
  if size < 1 ∨ stop < start ∨ start < ex.exStart ∨ stop > ex.exEnd then none
  else if desc = false then some (.enomem, ex)
  else
    match placeLoop start stop [] ex.regions with
    | none => some (noSpace waitspace, ex)
    | some (before, rest) => some (.ok start, ex.insert start size before rest)

/-! ### A region somewhere -/

/-- The arguments of `extent_alloc_subregion1`, with `EX_FAST`, `EX_BOUNDZERO` and
`EX_WAITSPACE`. -/
structure Request where
  substart : ULong
  subend : ULong
  size : ULong
  alignment : ULong
  skew : ULong
  boundary : ULong
  fast : Bool
  boundzero : Bool
  waitspace : Bool
  deriving DecidableEq, Repr

/-- The smallest chunk so far: `bestovh`, `beststart` and `bestlast`. -/
structure Best where
  ovh : ULong
  start : ULong
  before : List Region
  rest : List Region

/-- A place in the list for a start. -/
structure Found where
  start : ULong
  before : List Region
  rest : List Region

/-- Whether we are better than the current choice. -/
def Best.improve (best : Best) (ovh start : ULong) (before rest : List Region) : Best :=
  if best.ovh = 0 ∨ ovh < best.ovh then ⟨ovh, start, before, rest⟩ else best

/-- From the label `fail` on: a match that is good enough. -/
def failed (req : Request) (best : Best) : Option Found :=
  if req.fast = false ∧ best.ovh ≠ 0 then some ⟨best.start, best.before, best.rest⟩ else none

/-- Where the boundary lines start. -/
def Request.base (req : Request) (ex : Extent) : ULong := if req.boundzero then 0 else ex.exStart

/-- What the boundary check comes to: a start, or that the candidate does not fit any more behind
the line it crosses, or that the request cannot fit. -/
inductive Bound where
  | fits (newstart : ULong)
  | moved
  | fail
  deriving DecidableEq, Repr

def withinBound (ex : Extent) (req : Request) (newstart dontcross : ULong) : Bound :=
  if newstart + req.size - 1 > ex.exEnd ∨ dontcross < newstart then .fail else .fits newstart

/-- The boundary check for a candidate; `fits` tells whether a start leaves enough space. -/
def boundaryCheck (ex : Extent) (req : Request) (fits : ULong → Bool) (newstart : ULong) : Bound :=
  if req.boundary = 0 then .fits newstart
  else
    let newend := newstart + (req.size - 1)
    let dontcross := extentAlign (newstart + 1) req.boundary (req.base ex) - 1
    if dontcross < ex.exStart then withinBound ex req newstart ex.exEnd
    else if newend > dontcross then
      if fits (dontcross + 1) then withinBound ex req (dontcross + 1) (dontcross + req.boundary)
      else .moved
    else withinBound ex req newstart dontcross

/-- The final check, from the current starting point to the end of the subregion. -/
def finalCheck (ex : Extent) (req : Request) (newstart exend : ULong) (best : Best)
    (before rest : List Region) : Option Found :=
  if leOv newstart (req.size - 1) req.subend then
    match boundaryCheck ex req (fun start => leOv start (req.size - 1) req.subend) newstart with
    | .fits newstart =>
      let ovh := exend - newstart - (req.size - 1)
      if req.fast ∨ ovh = 0 then some ⟨newstart, before, rest⟩
      else failed req (best.improve ovh newstart before rest)
    | _ => failed req best
  else failed req best

def searchLoop (ex : Extent) (req : Request) :
    ULong → Best → List Region → List Region → Option Found
  | newstart, best, before, [] => finalCheck ex req newstart ex.exEnd best before []
  | newstart, best, before, rp :: rest =>
    if rp.erStart > req.subend then
      finalCheck ex req newstart rp.erStart best before (rp :: rest)
    else
      let next := extentAlign (rp.erEnd + 1) req.alignment req.skew
      let skip (best : Best) : Option Found :=
        if next < rp.erEnd then failed req best
        else searchLoop ex req next best (rp :: before) rest
      if leOv newstart req.size rp.erStart then
        match boundaryCheck ex req (fun start => leOv start req.size rp.erStart) newstart with
        | .fail => failed req best
        | .moved => skip best
        | .fits newstart =>
          let ovh := rp.erStart - newstart - req.size
          if req.fast ∨ ovh = 0 then some ⟨newstart, before, rp :: rest⟩
          else skip (best.improve ovh newstart before (rp :: rest))
      else skip best

def firstRegion (newstart : ULong) : List Region → List Region → List Region × List Region
  | before, [] => (before, [])
  | before, rp :: rest =>
    if rp.erStart ≥ newstart then (before, rp :: rest) else firstRegion newstart (rp :: before) rest

def relocate (req : Request) (newstart : ULong) : List Region → ULong
  | [] => newstart
  | last :: _ =>
    if last.erEnd ≥ newstart then extentAlign (last.erEnd + 1) req.alignment req.skew
    else newstart

/-- The search of `extent_alloc_subregion1` from the aligned subregion start. -/
def search (ex : Extent) (req : Request) (newstart : ULong) : Option Found :=
  let (before, rest) := firstRegion newstart [] ex.regions
  searchLoop ex req (relocate req newstart before) ⟨0, 0, [], ex.regions⟩ before rest

def Request.admitted (ex : Extent) (req : Request) : Bool :=
  !(req.substart < ex.exStart) && !(req.substart > ex.exEnd) && !(req.subend > ex.exEnd) &&
    !(req.subend < ex.exStart) && !(req.size < 1) && !(req.size - 1 > req.subend - req.substart) &&
    req.alignment ≠ 0 && !(req.boundary ≠ 0 && req.boundary < req.size)

def extentAllocSubregion1 (ex : Extent) (req : Request) (desc : Bool) : Option (Outcome × Extent) :=
  if req.admitted ex = false then none
  else if desc = false then some (.enomem, ex)
  else
    let newstart := extentAlign req.substart req.alignment req.skew
    if newstart < ex.exStart then none
    else
      match search ex req newstart with
      | none => some (noSpace req.waitspace, ex)
      | some found =>
        some (.ok found.start, ex.insert found.start req.size found.before found.rest)

/-! ### Freeing -/

def freeLoop (coalesce : Bool)
    (start stop : ULong) : List Region → List Region → Option (List Region)
  | _, [] => none
  | before, rp :: rest =>
    if rp.erEnd < start then freeLoop coalesce start stop (rp :: before) rest
    else if rp.erStart > stop then none
    else if start = rp.erStart ∧ stop = rp.erEnd then some (before.reverse ++ rest)
    else if coalesce = false then freeLoop coalesce start stop (rp :: before) rest
    else if start = rp.erStart ∧ stop < rp.erEnd then
      some (before.reverse ++ { rp with erStart := stop + 1 } :: rest)
    else if start > rp.erStart ∧ stop = rp.erEnd then
      some (before.reverse ++ { rp with erEnd := start - 1 } :: rest)
    else if start > rp.erStart ∧ stop < rp.erEnd then
      some (before.reverse ++ { rp with erEnd := start - 1 } :: ⟨stop + 1, rp.erEnd⟩ :: rest)
    else freeLoop coalesce start stop (rp :: before) rest

def extentFree (ex : Extent) (start size : ULong) (desc : Bool) : Option (Outcome × Extent) :=
  let stop := start + (size - 1)
  if start < ex.exStart ∨ stop > ex.exEnd ∨ stop < start then none
  else if ex.noCoalesce = false ∧ desc = false then some (.enomem, ex)
  else
    (freeLoop (!ex.noCoalesce) start stop [] ex.regions).map fun regions =>
      (.ok start, { ex with regions := regions })

/-! ### The system -/

/-- A call; `desc` tells whether a region descriptor is to be had. -/
inductive Call where
  | allocRegion (start size : ULong) (waitspace desc : Bool)
  | allocSubregion1 (req : Request) (desc : Bool)
  | free (start size : ULong) (desc : Bool)

def extentCall (ex : Extent) : Call → Option (Outcome × Extent)
  | .allocRegion start size waitspace desc => extentAllocRegion ex start size waitspace desc
  | .allocSubregion1 req desc => extentAllocSubregion1 ex req desc
  | .free start size desc => extentFree ex start size desc

def extentStep (ex : Extent) (call : Call) : Option Extent := (extentCall ex call).map Prod.snd

def extentCreate (start stop : ULong) (noCoalesce : Bool) : Extent := ⟨start, stop, noCoalesce, []⟩

/-!
### The list of regions

The region list of an extent: sorted, disjoint and inside the extent. A region
that is put into a gap adds its addresses, freeing a range takes them away.
-/

variable {ex : Extent} {start size stop x : ULong} {bef tl regions : List Region}

def Covers (regions : List Region) (x : ULong) : Prop :=
  ∃ r ∈ regions, r.erStart ≤ x ∧ x ≤ r.erEnd

@[simp] theorem covers_nil : Covers [] x ↔ False := by
  simp [Covers]

@[simp] theorem covers_cons {r : Region} :
    Covers (r :: regions) x ↔ (r.erStart ≤ x ∧ x ≤ r.erEnd) ∨ Covers regions x := by
  simp [Covers]

@[simp] theorem covers_append : Covers (bef ++ tl) x ↔ Covers bef x ∨ Covers tl x := by
  simp [Covers, or_and_right, exists_or]

@[simp] theorem covers_reverse : Covers bef.reverse x ↔ Covers bef x := by
  simp [Covers]

/-- The regions are in order and apart, and none is empty. -/
structure Sorted (regions : List Region) : Prop where
  apart : regions.Pairwise fun left right => left.erEnd < right.erStart
  proper : ∀ r ∈ regions, r.erStart ≤ r.erEnd

/-- What holds of an extent between two calls. -/
structure Extent.Sound (ex : Extent) : Prop where
  sorted : Sorted ex.regions
  inside : ∀ r ∈ ex.regions, ex.exStart ≤ r.erStart ∧ r.erEnd ≤ ex.exEnd

def EndsBelow (before : List Region) (start : ULong) : Prop := ∀ r ∈ before, r.erEnd < start

def StartsAbove (rest : List Region) (stop : ULong) : Prop := ∀ r ∈ rest, stop < r.erStart

theorem sorted_split {middle : List Region} : Sorted (bef.reverse ++ (middle ++ tl)) ↔
      Sorted bef.reverse ∧ Sorted middle ∧ Sorted tl ∧
        (∀ m ∈ middle, EndsBelow bef m.erStart) ∧ (∀ m ∈ middle, StartsAbove tl m.erEnd) ∧
        ∀ r ∈ tl, EndsBelow bef r.erStart := by
  constructor
  · rintro ⟨apart, prop⟩
    rw [pairwise_append, pairwise_append] at apart
    obtain ⟨apartBefore, ⟨apartMiddle, apartRest, mid⟩, far⟩ := apart
    refine ⟨⟨apartBefore, ?_⟩, ⟨apartMiddle, ?_⟩, ⟨apartRest, ?_⟩, ?_, ?_, ?_⟩
    · exact (forall_mem_append.mp prop).1
    · exact fun r mem => prop r (mem_append_right _ (mem_append_left _ mem))
    · exact fun r mem => prop r (mem_append_right _ (mem_append_right _ mem))
    · exact fun m inMiddle r inBefore =>
        far r (mem_reverse.mpr inBefore) m (mem_append_left _ inMiddle)
    · exact fun m inMiddle r hrest => mid m inMiddle r hrest
    · exact fun r hrest b inBefore =>
        far b (mem_reverse.mpr inBefore) r (mem_append_right _ hrest)
  rintro ⟨sortedBefore, sortedMiddle, sortedRest, below, above, around⟩
  refine ⟨?_, ?_⟩
  · rw [pairwise_append, pairwise_append]
    refine ⟨sortedBefore.apart, ⟨sortedMiddle.apart, sortedRest.apart, above⟩, ?_⟩
    intro b inBefore r mem
    rcases mem_append.mp mem with inMiddle | hrest
    · exact below r inMiddle b (mem_reverse.mp inBefore)
    · exact around r hrest b (mem_reverse.mp inBefore)
  intro r mem
  rcases mem_append.mp mem with inBefore | mem
  · exact sortedBefore.proper r inBefore
  · rcases mem_append.mp mem with inMiddle | hrest
    · exact sortedMiddle.proper r inMiddle
    · exact sortedRest.proper r hrest

theorem sorted_nil : Sorted [] := ⟨List.Pairwise.nil, by simp⟩

theorem sorted_singleton {r : Region} (prop : r.erStart ≤ r.erEnd) : Sorted [r] :=
  ⟨pairwise_singleton _ r, by simpa using prop⟩

theorem sorted_cons {r : Region} : Sorted (r :: regions) ↔
      r.erStart ≤ r.erEnd ∧ StartsAbove regions r.erEnd ∧ Sorted regions := by
  constructor
  · rintro ⟨apart, prop⟩
    obtain ⟨above, apartRest⟩ := pairwise_cons.mp apart
    exact ⟨prop r mem_cons_self, above, apartRest,
      (forall_mem_cons.mp prop).2⟩
  rintro ⟨properFirst, above, sort⟩
  refine ⟨pairwise_cons.mpr ⟨above, sort.apart⟩, ?_⟩
  exact forall_mem_cons.mpr ⟨properFirst, sort.proper⟩

structure InGap (start stop : ULong) (before rest : List Region) : Prop where
  ordered : start ≤ stop
  below : EndsBelow before start
  above : StartsAbove rest stop

theorem Sorted.replace (old new : List Region) (sort : Sorted (bef.reverse ++ (old ++ tl)))
    (sortedNew : Sorted new) (below : ∀ m ∈ new, EndsBelow bef m.erStart)
    (above : ∀ m ∈ new, StartsAbove tl m.erEnd) : Sorted (bef.reverse ++ (new ++ tl)) := by
  obtain ⟨sortedBefore, _, sortedRest, _, _, around⟩ := sorted_split.mp sort
  exact sorted_split.mpr ⟨sortedBefore, sortedNew, sortedRest, below, above, around⟩

/-- What putting a range into the list does. -/
structure Inserts (start stop : ULong) (regions result : List Region) : Prop where
  sorted : Sorted result
  covers : ∀ x, Covers result x ↔ Covers regions x ∨ (start ≤ x ∧ x ≤ stop)

theorem inserts_new (sort : Sorted (bef.reverse ++ tl)) (gap : InGap start stop bef tl) :
    Inserts start stop (bef.reverse ++ tl) (bef.reverse ++ ⟨start, stop⟩ :: tl) := by
  refine ⟨?_, ?_⟩
  · refine Sorted.replace [] [⟨start, stop⟩] sort (sorted_singleton gap.ordered) ?_ ?_
    · simpa using gap.below
    · simpa using gap.above
  · intro x
    simp only [covers_append, covers_cons]
    simp only [or_assoc, or_comm]

theorem inserts_prepend {next : Region} (sort : Sorted (bef.reverse ++ next :: tl))
    (gap : InGap start stop bef (next :: tl)) (meets : stop + 1 = next.erStart) :
    Inserts start stop (bef.reverse ++ next :: tl)
      (bef.reverse ++ { next with erStart := start } :: tl) := by
  have split := sorted_split.mp (show Sorted (bef.reverse ++ ([next] ++ tl)) from sort)
  have prop : next.erStart ≤ next.erEnd := split.2.1.proper next (mem_singleton_self next)
  have ord := gap.ordered
  have above : stop < next.erStart := gap.above next mem_cons_self
  refine ⟨?_, ?_⟩
  · refine Sorted.replace [next] [{ next with erStart := start }] sort (sorted_singleton ?_) ?_ ?_
    · simp only
      bv_omega
    · simpa using gap.below
    · simpa using split.2.2.2.2.1
  intro x
  simp only [covers_append, covers_cons]
  have joined : (start ≤ x ∧ x ≤ next.erEnd) ↔
      (next.erStart ≤ x ∧ x ≤ next.erEnd) ∨ (start ≤ x ∧ x ≤ stop) := by
    bv_omega
  rw [joined]
  simp only [or_assoc, or_comm]

theorem inserts_append {s' : Region} (sort : Sorted (bef.reverse ++ s' :: tl))
    (gap : InGap start stop (s' :: bef) tl) (meets : s'.erEnd + 1 = start) :
    Inserts start stop (bef.reverse ++ s' :: tl)
      (bef.reverse ++ { s' with erEnd := stop } :: tl) := by
  have split := sorted_split.mp (show Sorted (bef.reverse ++ ([s'] ++ tl)) from sort)
  have prop : s'.erStart ≤ s'.erEnd :=
    split.2.1.proper s' (mem_singleton_self s')
  have ord := gap.ordered
  have below : s'.erEnd < start := gap.below s' mem_cons_self
  refine ⟨?_, ?_⟩
  · refine Sorted.replace [s'] [{ s' with erEnd := stop }] sort (sorted_singleton ?_) ?_ ?_
    · simp only
      bv_omega
    · simpa using split.2.2.2.1
    · simpa using gap.above
  intro x
  simp only [covers_append, covers_cons]
  have joined : (s'.erStart ≤ x ∧ x ≤ stop) ↔
      (s'.erStart ≤ x ∧ x ≤ s'.erEnd) ∨ (start ≤ x ∧ x ≤ stop) := by
    bv_omega
  rw [joined]
  simp only [or_assoc, or_comm]

theorem inserts_fill {s' next : Region}
    (sort : Sorted (bef.reverse ++ s' :: next :: tl))
    (gap : InGap start stop (s' :: bef) (next :: tl)) (meets : s'.erEnd + 1 = start)
    (meetsNext : stop + 1 = next.erStart) :
    Inserts start stop (bef.reverse ++ s' :: next :: tl)
      (bef.reverse ++ { s' with erEnd := next.erEnd } :: tl) := by
  have split := sorted_split.mp
    (show Sorted (bef.reverse ++ ([s', next] ++ tl)) from sort)
  have prop : s'.erStart ≤ s'.erEnd := split.2.1.proper s' (by simp)
  have properNext : next.erStart ≤ next.erEnd := split.2.1.proper next (by simp)
  have ord := gap.ordered
  have below : s'.erEnd < start := gap.below s' mem_cons_self
  have above : stop < next.erStart := gap.above next mem_cons_self
  refine ⟨?_, ?_⟩
  · refine Sorted.replace [s', next] [{ s' with erEnd := next.erEnd }] sort
      (sorted_singleton ?_) ?_ ?_
    · simp only
      bv_omega
    · have belowAfter := split.2.2.2.1 s' (by simp)
      simpa using belowAfter
    · have aboveNext := split.2.2.2.2.1 next (by simp)
      simpa using aboveNext
  intro x
  simp only [covers_append, covers_cons]
  have joined : (s'.erStart ≤ x ∧ x ≤ next.erEnd) ↔
      (s'.erStart ≤ x ∧ x ≤ s'.erEnd) ∨ (next.erStart ≤ x ∧ x ≤ next.erEnd) ∨
        (start ≤ x ∧ x ≤ stop) := by
    bv_omega
  rw [joined]
  simp only [or_assoc, or_left_comm, or_comm]

/-- The new region joins its neighbours where it touches them. -/
theorem inserts_insertAndOptimize (noCoalesce : Bool) (pos : 1 ≤ size)
    (isStop : stop = start + (size - 1)) (sort : Sorted (bef.reverse ++ tl))
    (gap : InGap start stop bef tl) :
    Inserts start stop (bef.reverse ++ tl)
      (extentInsertAndOptimize noCoalesce start size bef tl) := by
  subst isStop
  have meets {r : Region} (coalesces : start + size = r.erStart) :
      start + (size - 1) + 1 = r.erStart := by
    bv_omega
  have fresh := inserts_new sort gap
  cases bef with
  | nil =>
    cases tl with
    | nil => exact fresh
    | cons fst tl =>
      simp only [extentInsertAndOptimize]
      split
      · rename_i coalesces
        exact @inserts_prepend start _ [] tl fst sort gap (meets coalesces.2)
      · exact fresh
  | cons s' bef =>
    have prepends {next : Region} {tail : List Region} (rst : tl = next :: tail)
        (coalesces : start + size = next.erStart) :
        Inserts start (start + (size - 1)) ((s' :: bef).reverse ++ tl)
          ((s' :: bef).reverse ++ { next with erStart := start } :: tail) := by
      subst rst
      exact inserts_prepend sort gap (meets coalesces)
    simp only [reverse_cons, append_assoc] at sort fresh prepends ⊢
    simp only [extentInsertAndOptimize]
    split
    · exact fresh
    split
    · rename_i appends
      cases tl with
      | nil => exact inserts_append sort gap appends
      | cons next tl =>
        simp only
        split
        · rename_i coalesces
          exact inserts_fill sort gap appends (meets coalesces)
        · exact inserts_append sort gap appends
    · cases tl with
      | nil => exact fresh
      | cons next tl =>
        simp only
        split
        · rename_i coalesces
          exact prepends rfl coalesces
        · exact fresh

/-! ### The extent -/

theorem Extent.Sound.of_covers {lower upper : ULong} {noCoalesce : Bool} (sort : Sorted regions)
    (lt : ∀ x, Covers regions x → lower ≤ x ∧ x ≤ upper) :
    (⟨lower, upper, noCoalesce, regions⟩ : Extent).Sound := by
  refine ⟨sort, ?_⟩
  intro r mem
  have prop := sort.proper r mem
  exact ⟨(lt r.erStart ⟨r, mem, BitVec.le_refl _, prop⟩).1,
    (lt r.erEnd ⟨r, mem, prop, BitVec.le_refl _⟩).2⟩

theorem Extent.Sound.inside_of_covers (sound : ex.Sound) (cov : Covers ex.regions x) :
    ex.exStart ≤ x ∧ x ≤ ex.exEnd := by
  obtain ⟨r, mem, lower, upper⟩ := cov
  obtain ⟨above, below⟩ := sound.inside r mem
  exact ⟨BitVec.le_trans above lower, BitVec.le_trans upper below⟩

/-- What a successful allocation does. -/
structure Allocates (ex : Extent) (start stop : ULong) (ex' : Extent) : Prop where
  sound : ex'.Sound
  bounds : ex'.exStart = ex.exStart ∧ ex'.exEnd = ex.exEnd ∧ ex'.noCoalesce = ex.noCoalesce
  covers : ∀ x, Covers ex'.regions x ↔ Covers ex.regions x ∨ (start ≤ x ∧ x ≤ stop)
  free : ∀ x, start ≤ x → x ≤ stop → ¬ Covers ex.regions x

theorem InGap.free (gap : InGap start stop bef tl) (lower : start ≤ x) (upper : x ≤ stop) :
    ¬ Covers (bef.reverse ++ tl) x := by
  rw [covers_append, covers_reverse]
  rintro (⟨r, mem, _, below⟩ | ⟨r, mem, above, _⟩)
  · have ends := gap.below r mem
    bv_omega
  · have beg := gap.above r mem
    bv_omega

theorem Extent.Sound.insert (sound : ex.Sound) (lst : ex.regions = bef.reverse ++ tl)
    (pos : 1 ≤ size) (isStop : stop = start + (size - 1)) (gap : InGap start stop bef tl)
    (lower : ex.exStart ≤ start) (upper : stop ≤ ex.exEnd) :
    Allocates ex start stop (ex.insert start size bef tl) := by
  have sort : Sorted (bef.reverse ++ tl) := lst ▸ sound.sorted
  have inserts := inserts_insertAndOptimize ex.noCoalesce pos isStop sort gap
  refine ⟨?_, ⟨rfl, rfl, rfl⟩, ?_, ?_⟩
  · apply Extent.Sound.of_covers inserts.sorted
    intro x cov
    rcases (inserts.covers x).mp cov with old | ⟨above, below⟩
    · exact sound.inside_of_covers (lst ▸ old)
    · exact ⟨BitVec.le_trans lower above, BitVec.le_trans below upper⟩
  · rw [lst]
    exact inserts.covers
  · intro x above below
    rw [lst]
    exact gap.free above below

/-! ### A given region -/

theorem placeLoop_gap (sort : Sorted (bef.reverse ++ tl)) (ord : start ≤ stop)
    (below : EndsBelow bef start) {pre tail : List Region}
    (at' : placeLoop start stop bef tl = some (pre, tail)) :
    pre.reverse ++ tail = bef.reverse ++ tl ∧ InGap start stop pre tail := by
  induction tl generalizing bef with
  | nil =>
    obtain ⟨rfl, rfl⟩ := Prod.mk.inj (Option.some.inj at')
    exact ⟨rfl, ord, below, by simp [StartsAbove]⟩
  | cons rp tl ih =>
    unfold placeLoop at at'
    split at at'
    · rename_i far
      obtain ⟨rfl, rfl⟩ := Prod.mk.inj (Option.some.inj at')
      refine ⟨rfl, ord, below, ?_⟩
      have split := sorted_split.mp (show Sorted (bef.reverse ++ ([rp] ++ tl)) from sort)
      have prop := split.2.1.proper rp (mem_singleton_self rp)
      have s' := split.2.2.2.2.1 rp (mem_singleton_self rp)
      intro r mem
      rcases mem_cons.mp mem with rfl | hrest
      · exact far
      · have beg := s' r hrest
        bv_omega
    · split at at'
      · exact absurd at' (by simp)
      rename_i apart
      have next : EndsBelow (rp :: bef) start := by
        exact forall_mem_cons.mpr ⟨BitVec.not_le.mp apart, below⟩
      obtain ⟨lst, gap⟩ := ih (by simpa using sort) next at'
      exact ⟨by simpa using lst, gap⟩

theorem Extent.Sound.allocRegion (sound : ex.Sound) {waitspace desc : Bool} {out : Outcome}
    {ex' : Extent}
    (hc : extentAllocRegion ex start size waitspace desc = some (out, ex')) :
    (out = .ok start ∧ 1 ≤ size ∧ start ≤ start + (size - 1) ∧
      Allocates ex start (start + (size - 1)) ex') ∨
      (∀ res, out ≠ .ok res) ∧ ex' = ex := by
  unfold extentAllocRegion at hc
  simp only at hc
  split at hc
  · exact absurd hc (by simp)
  rename_i chk
  simp only [not_or, BitVec.not_lt] at chk
  obtain ⟨pos, ord, lower, upper⟩ := chk
  split at hc
  · obtain ⟨rfl, rfl⟩ := Prod.mk.inj (Option.some.inj hc)
    exact Or.inr ⟨by simp, rfl⟩
  split at hc
  · obtain ⟨rfl, rfl⟩ := Prod.mk.inj (Option.some.inj hc)
    unfold noSpace
    split <;> simp
  rename_i bef tl at'
  obtain ⟨rfl, rfl⟩ := Prod.mk.inj (Option.some.inj hc)
  obtain ⟨lst, gap⟩ := placeLoop_gap (by simpa using sound.sorted) ord
    (by simp [EndsBelow]) at'
  exact Or.inl ⟨rfl, pos, ord,
    sound.insert (by simpa using lst.symm) pos rfl gap lower upper⟩

/-! ### Freeing -/

/-- What a successful call of `extent_free` does. -/
structure Frees (regions : List Region) (start stop : ULong) (result : List Region) : Prop where
  sorted : Sorted result
  covers : ∀ x, Covers result x ↔ Covers regions x ∧ ¬ (start ≤ x ∧ x ≤ stop)

theorem frees_pieces {rp : Region} {segs : List Region}
    (sort : Sorted (bef.reverse ++ rp :: tl))
    (lower : rp.erStart ≤ start) (upper : stop ≤ rp.erEnd) (sortedPieces : Sorted segs)
    (bnd : ∀ m ∈ segs, rp.erStart ≤ m.erStart ∧ m.erEnd ≤ rp.erEnd)
    (cov : ∀ x, Covers segs x ↔ (rp.erStart ≤ x ∧ x ≤ rp.erEnd) ∧ ¬ (start ≤ x ∧ x ≤ stop)) :
    Frees (bef.reverse ++ rp :: tl) start stop (bef.reverse ++ segs ++ tl) := by
  have split := sorted_split.mp (show Sorted (bef.reverse ++ ([rp] ++ tl)) from sort)
  have below := split.2.2.2.1 rp (mem_singleton_self rp)
  have above := split.2.2.2.2.1 rp (mem_singleton_self rp)
  refine ⟨?_, ?_⟩
  · rw [append_assoc]
    refine Sorted.replace [rp] segs sort sortedPieces ?_ ?_
    · intro m mem r inBefore
      have fst := below r inBefore
      have snd := (bnd m mem).1
      bv_omega
    · intro m mem r hrest
      have fst := above r hrest
      have snd := (bnd m mem).2
      bv_omega
  intro x
  -- the other regions do not meet the range
  have apartBefore : Covers bef x → ¬ (start ≤ x ∧ x ≤ stop) := by
    rintro ⟨r, mem, _, ends⟩ ⟨inLower, _⟩
    have fst := below r mem
    bv_omega
  have apartRest : Covers tl x → ¬ (start ≤ x ∧ x ≤ stop) := by
    rintro ⟨r, mem, beg, _⟩ ⟨_, inUpper⟩
    have fst := above r mem
    bv_omega
  simp only [covers_append, covers_reverse, covers_cons, cov x]
  constructor
  · rintro ((inBefore | lt) | hrest)
    · exact ⟨Or.inl inBefore, apartBefore inBefore⟩
    · exact ⟨Or.inr (Or.inl lt.1), lt.2⟩
    · exact ⟨Or.inr (Or.inr hrest), apartRest hrest⟩
  · rintro ⟨inBefore | lt | hrest, out⟩
    · exact Or.inl (Or.inl inBefore)
    · exact Or.inl (Or.inr ⟨lt, out⟩)
    · exact Or.inr hrest

/-- A free removes exactly its range, which was allocated. -/
theorem frees_freeLoop {coalesce : Bool} {res : List Region}
    (sort : Sorted (bef.reverse ++ tl)) (ord : start ≤ stop)
    (freed : freeLoop coalesce start stop bef tl = some res) :
    Frees (bef.reverse ++ tl) start stop res ∧
      ∀ x, start ≤ x → x ≤ stop → Covers (bef.reverse ++ tl) x := by
  induction tl generalizing bef with
  | nil => exact absurd freed (by simp [freeLoop])
  | cons rp tl ih =>
    have more (again : freeLoop coalesce start stop (rp :: bef) tl = some res) :
        Frees (bef.reverse ++ rp :: tl) start stop res ∧
          ∀ x, start ≤ x → x ≤ stop → Covers (bef.reverse ++ rp :: tl) x := by
      simpa using ih (by simpa using sort) again
    have held (lower : rp.erStart ≤ start) (upper : stop ≤ rp.erEnd) (x : ULong)
        (above : start ≤ x) (below : x ≤ stop) : Covers (bef.reverse ++ rp :: tl) x := by
      simp only [covers_append, covers_cons]
      exact Or.inr (Or.inl ⟨BitVec.le_trans lower above, BitVec.le_trans below upper⟩)
    have segs (lower : rp.erStart ≤ start) (upper : stop ≤ rp.erEnd) {segs : List Region} :=
      @frees_pieces start stop bef tl rp segs sort lower upper
    unfold freeLoop at freed
    split at freed
    · exact more freed
    split at freed
    · exact absurd freed (by simp)
    split at freed
    · rename_i exact_
      obtain ⟨rfl, rfl⟩ := exact_
      obtain rfl := Option.some.inj freed
      refine ⟨?_, held (BitVec.le_refl _) (BitVec.le_refl _)⟩
      have no := @segs (BitVec.le_refl _) (BitVec.le_refl _) [] sorted_nil (by simp)
        (by intro x; simp)
      simpa using no
    split at freed
    · exact more freed
    split at freed
    · rename_i pre
      obtain ⟨rfl, lt⟩ := pre
      obtain rfl := Option.some.inj freed
      refine ⟨?_, held (BitVec.le_refl _) (by bv_omega)⟩
      have kept := @segs (BitVec.le_refl _) (by bv_omega)
        [{ rp with erStart := stop + 1 }] (sorted_singleton (by simp only; bv_omega))
        (by
          intro m mem
          obtain rfl := mem_singleton.mp mem
          simp only
          bv_omega)
        (by
          intro x
          simp only [covers_cons, covers_nil, or_false]
          bv_omega)
      simpa using kept
    split at freed
    · rename_i back
      obtain ⟨lt, rfl⟩ := back
      obtain rfl := Option.some.inj freed
      refine ⟨?_, held (by bv_omega) (BitVec.le_refl _)⟩
      have kept := @segs (by bv_omega) (BitVec.le_refl _)
        [{ rp with erEnd := start - 1 }] (sorted_singleton (by simp only; bv_omega))
        (by
          intro m mem
          obtain rfl := mem_singleton.mp mem
          simp only
          bv_omega)
        (by
          intro x
          simp only [covers_cons, covers_nil, or_false]
          bv_omega)
      simpa using kept
    split at freed
    · rename_i middle
      obtain ⟨insideLower, insideUpper⟩ := middle
      obtain rfl := Option.some.inj freed
      refine ⟨?_, held (by bv_omega) (by bv_omega)⟩
      have kept := @segs (by bv_omega) (by bv_omega)
        [{ rp with erEnd := start - 1 }, ⟨stop + 1, rp.erEnd⟩]
        (by
          rw [sorted_cons]
          refine ⟨by simp only; bv_omega, ?_, sorted_singleton (by simp only; bv_omega)⟩
          intro r mem
          obtain rfl := mem_singleton.mp mem
          simp only
          bv_omega)
        (by
          intro m mem
          rcases mem_cons.mp mem with rfl | mem
          · simp only
            bv_omega
          · obtain rfl := mem_singleton.mp mem
            simp only
            bv_omega)
        (by
          intro x
          simp only [covers_cons, covers_nil, or_false]
          bv_omega)
      simpa using kept
    · exact more freed

end NetBSD.Kern.SubrExtent
