import NetBSD.Arith.WordBits

/-!
Owns the descriptor tables of `sys/kern/kern_descrip.c`: the two bitmaps, the table
of `fdfile_t` and the marks `fd_freefile` and `fd_lastfile`, with `fd_alloc`,
`fd_affix`, the two halves of `fd_close`, `fd_dup2`, `fd_tryexpand` and `fd_copy` on
them. Of a file only whether it is a kqueue is kept.

`none` means that an assertion failed or that a loop used up its fuel.
-/

namespace NetBSD.Kern.Descrip

open NetBSD.Arith Function

/-- `f_type`, as far as `fd_copy` looks at it. -/
inductive File where
  | kqueue
  | other
deriving DecidableEq, Repr

structure Fdfile where
  ff_allocated : Bool
  ff_file : Option File
deriving DecidableEq, Repr

structure Filedesc where
  dt_nfiles : Nat
  dt_ff : Nat → Option Fdfile
  fd_lomap : Nat → UInt32
  fd_himap : Nat → UInt32
  fd_freefile : Nat
  fd_lastfile : Int

inductive Errno where
  | EMFILE
  | ENOSPC
deriving DecidableEq, Repr

def ndfile : Nat := 20

def ndextent : Nat := 50

def ndfdfile : Nat := 6

def ndloslots (n : Nat) : Nat := (n + 31) / 32

def ndhislots (n : Nat) : Nat := (ndloslots n + 31) / 32

def Fdfile.fresh : Fdfile := ⟨false, none⟩

def fdInit : Filedesc where
  dt_nfiles := ndfile
  dt_ff := fun i => if i < ndfdfile then some .fresh else none
  fd_lomap := fun _ => 0
  fd_himap := fun _ => 0
  fd_freefile := 0
  fd_lastfile := -1

def Filedesc.isused (fdp : Filedesc) (fd : Nat) : Bool := mapBit fdp.fd_lomap fd

/-- A word of `fd_lomap`. Maps that do not fit into the structure lie in one piece of memory, the
high map behind the low one. -/
def Filedesc.lomapWord (fdp : Filedesc) (off : Nat) : UInt32 :=
  if ndhislots fdp.dt_nfiles ≤ 1 ∨ off < ndloslots fdp.dt_nfiles then fdp.fd_lomap off
  else fdp.fd_himap (off - ndloslots fdp.dt_nfiles)

def nextZeroLoop (bitmap : Nat → UInt32) : Nat → Nat → Option Nat
  | 0, _ => none
  | words + 1, off =>
    if bitmap off ≠ 0xffffffff then some (off * 32 + (ffs32 (~~~bitmap off) - 1))
    else nextZeroLoop bitmap words (off + 1)

def fdNextZero (bitmap : Nat → UInt32) (want bits : Nat) : Option Nat :=
  if want > bits then none
  else
    let off := want / 32
    let i := want % 32
    if i = 0 then nextZeroLoop bitmap (ndloslots bits - off) off
    else
      let sub := bitmap off ||| (0xffffffff >>> UInt32.ofNat (32 - i))
      if sub ≠ 0xffffffff then some (off * 32 + (ffs32 (~~~sub) - 1))
      else nextZeroLoop bitmap (ndloslots bits - (off + 1)) (off + 1)

/-- The first loop of `fd_last_set`, over the words below a number. -/
def lastWord (bitmap : Nat → UInt32) : Nat → Option Nat
  | 0 => none
  | off + 1 => if bitmap off = 0 then lastWord bitmap off else some off

/-- `ff != NULL && ff->ff_allocated`. -/
def Filedesc.allocated (fdp : Filedesc) (fd : Nat) : Bool :=
  match fdp.dt_ff fd with
  | none => false
  | some ff => ff.ff_allocated

/-- The second loop of `fd_last_set`. -/
def lastAllocated (fdp : Filedesc) : Nat → Nat
  | 0 => 0
  | i + 1 => if fdp.allocated (i + 1) then i + 1 else lastAllocated fdp i

def fdLastSet (fdp : Filedesc) (last : Nat) : Int :=
  match lastWord fdp.fd_lomap ((last + 31) / 32) with
  | none => -1
  | some off => lastAllocated fdp (min ((off + 1) * 32 - 1) (last - 1))

def fdUsed (fdp : Filedesc) (fd : Nat) : Option Filedesc :=
  let off := fd / 32
  match fdp.dt_ff fd with
  | none => none
  | some ff =>
    if mapBit fdp.fd_lomap fd = true ∨ ff.ff_file ≠ none ∨ ff.ff_allocated = true then none
    else
      let lomap := setBit fdp.fd_lomap fd
      let used := { fdp with
        dt_ff := update fdp.dt_ff fd (some { ff with ff_allocated := true })
        fd_lomap := lomap
        fd_lastfile := if (fd : Int) > fdp.fd_lastfile then fd else fdp.fd_lastfile }
      if lomap off = 0xffffffff then
        if mapBit fdp.fd_himap off = true then none
        else some { used with fd_himap := setBit fdp.fd_himap off }
      else some used

/-- `fd_unused`. The assertion about `fd_lastfile` compares without sign. -/
def fdUnused (fdp : Filedesc) (fd : Nat) : Option Filedesc :=
  let off := fd / 32
  match fdp.dt_ff fd with
  | none => none
  | some ff =>
    if ff.ff_file ≠ none ∨ ff.ff_allocated = false ∨ mapBit fdp.fd_lomap fd = false ∨
        (0 ≤ fdp.fd_lastfile ∧ (fd : Int) > fdp.fd_lastfile) ∨
        (fdp.fd_lomap off = 0xffffffff ∧ mapBit fdp.fd_himap off = false) then none
    else
      let unused := { fdp with
        dt_ff := update fdp.dt_ff fd (some { ff with ff_allocated := false })
        fd_freefile := if fd < fdp.fd_freefile then fd else fdp.fd_freefile
        fd_himap := if fdp.fd_lomap off = 0xffffffff then clearBit fdp.fd_himap off
          else fdp.fd_himap
        fd_lomap := clearBit fdp.fd_lomap fd }
      if (fd : Int) = fdp.fd_lastfile then
        some { unused with fd_lastfile := fdLastSet unused fd }
      else some unused

def allocLoop (fdp : Filedesc) (last : Nat) : Nat → Nat → Option (Option (Nat × Nat))
  | 0, _ => none
  | fuel + 1, want =>
    let i := if want < fdp.fd_freefile then fdp.fd_freefile else want
    let off := i / 32
    match fdNextZero fdp.fd_himap off (ndloslots last) with
    | none => some none
    | some hi =>
      match fdNextZero (fun word => fdp.lomapWord (hi + word))
          (if hi > off then 0 else i % 32) 32 with
      | none => allocLoop fdp last fuel ((hi + 1) * 32)
      | some bit =>
        let i := bit + hi * 32
        if i ≥ last then some none else some (some (i, want))

/-- The `fdfile_t` at a number, allocated where there is none. -/
def Filedesc.provide (fdp : Filedesc) (fd : Nat) : Option Filedesc :=
  match fdp.dt_ff fd with
  | none => if fd ≥ ndfdfile then
      some { fdp with dt_ff := update fdp.dt_ff fd (some .fresh) } else none
  | some _ => some fdp

def fdAlloc (fdp : Filedesc) (want lim : Nat) : Option (Filedesc × Except Errno Nat) := do
  let last := min fdp.dt_nfiles lim
  match ← allocLoop fdp last (ndloslots last + 2) want with
  | none => some (fdp, .error (if fdp.dt_nfiles ≥ lim then .EMFILE else .ENOSPC))
  | some (i, want) => do
      let fdp ← fdp.provide i
      let fdp ← fdUsed fdp i
      some (if want ≤ fdp.fd_freefile then { fdp with fd_freefile := i } else fdp, .ok i)

def fdAffix (fdp : Filedesc) (fd : Nat) (file : File) : Option Filedesc :=
  match fdp.dt_ff fd with
  | some ⟨true, none⟩ =>
    if fdp.isused fd then
      some { fdp with dt_ff := update fdp.dt_ff fd (some ⟨true, some file⟩) }
    else none
  | _ => none

/-- The first half of `fd_close`: the file is taken off. -/
def fdDetach (fdp : Filedesc) (fd : Nat) : Filedesc :=
  match fdp.dt_ff fd with
  | some ff => { fdp with dt_ff := update fdp.dt_ff fd (some { ff with ff_file := none }) }
  | none => fdp

def fdTryexpand (fdp : Filedesc) : Filedesc :=
  let oldnfiles := fdp.dt_nfiles
  let numfiles := if oldnfiles < ndextent then ndextent else 2 * oldnfiles
  let expanded := { fdp with
    dt_nfiles := numfiles
    dt_ff := fun i => if i < oldnfiles then fdp.dt_ff i else none }
  if ndhislots numfiles > ndhislots oldnfiles then
    { expanded with
      fd_himap := fun word => if word < ndhislots oldnfiles then fdp.fd_himap word else 0
      fd_lomap := fun word => if word < ndloslots oldnfiles then fdp.fd_lomap word else 0 }
  else expanded

def expandTo (newfd : Nat) : Nat → Filedesc → Option Filedesc
  | 0, _ => none
  | fuel + 1, fdp =>
    if newfd ≥ fdp.dt_nfiles then expandTo newfd fuel (fdTryexpand fdp) else some fdp

/-- `fd_dup2`. While the descriptor is half open the call waits. -/
def fdDup2 (fdp : Filedesc) (file : File) (newfd : Nat) : Option Filedesc := do
  let fdp ← expandTo newfd (newfd + 2) fdp
  if fdp.isused newfd && decide ((fdp.dt_ff newfd).bind Fdfile.ff_file = none) then some fdp
  else
    let fdp ← if fdp.isused newfd then fdUnused (fdDetach fdp newfd) newfd else some fdp
    let fdp ← fdp.provide newfd
    let fdp ← fdUsed fdp newfd
    fdAffix fdp newfd file

/-- The loop of `fd_copy` that lets the table shrink. -/
def shrinkLoop (lastfile : Int) : Nat → Nat → Option Nat
  | 0, _ => none
  | fuel + 1, i =>
    if i ≥ 2 * ndextent ∧ (i : Int) > lastfile * 2 then shrinkLoop lastfile fuel (i / 2)
    else some i

def copySize (fdp : Filedesc) : Option Nat :=
  if fdp.fd_lastfile < ndfile then some ndfile
  else shrinkLoop fdp.fd_lastfile (fdp.dt_nfiles + 1) fdp.dt_nfiles

/-- An iteration of the loop of `fd_copy`. -/
def copyStep (fdp newfdp : Filedesc) (i : Nat) : Option Filedesc :=
  match (fdp.dt_ff i).bind Fdfile.ff_file with
  | none => if newfdp.isused i then none else some newfdp
  | some .kqueue =>
    some { newfdp with fd_freefile := if i < newfdp.fd_freefile then i else newfdp.fd_freefile }
  | some .other =>
    let j := i / 32
    if mapBit newfdp.fd_lomap i = true then none
    else
      let lomap := setBit newfdp.fd_lomap i
      let copied := { newfdp with
        dt_ff := update newfdp.dt_ff i (some ⟨true, some .other⟩)
        fd_lomap := lomap
        fd_lastfile := i }
      if lomap j = 0xffffffff then
        if mapBit newfdp.fd_himap j = true then none
        else some { copied with fd_himap := setBit newfdp.fd_himap j }
      else some copied

/-- The loop of `fd_copy`, over the descriptors below a number. -/
def copyLoop (fdp newfdp : Filedesc) : Nat → Option Filedesc
  | 0 => some newfdp
  | i + 1 => (copyLoop fdp newfdp i).bind fun newfdp => copyStep fdp newfdp i

def fdCopy (fdp : Filedesc) : Option Filedesc := do
  let i ← copySize fdp
  let newfdp := { fdInit with dt_nfiles := i, fd_freefile := fdp.fd_freefile }
  if fdp.fd_lastfile ≥ ndfile ∧ i ≤ ndfile then none
  else if ndhislots i > ndhislots ndfile ∧ i < 32 * 32 then none
  else copyLoop fdp newfdp (fdp.fd_lastfile + 1).toNat

inductive Event where
  | alloc (want lim : Nat)
  | affix (fd : Nat) (file : File)
  | detach (fd : Nat)
  | release (fd : Nat)
  | dup2 (file : File) (newfd : Nat)
  | tryexpand
  | copy
deriving DecidableEq, Repr

/-- One step. A file is affixed only to a half open descriptor, which `fd_abort` or the second half
of `fd_close` may release, and is taken off only where there is one. After a copy the run goes on
with the new table. -/
def step (fdp : Filedesc) : Event → Option Filedesc
  | .alloc want lim => (fdAlloc fdp want lim).map Prod.fst
  | .affix fd file =>
    if fdp.dt_ff fd = some ⟨true, none⟩ then fdAffix fdp fd file else some fdp
  | .detach fd => some (fdDetach fdp fd)
  | .release fd => if fdp.dt_ff fd = some ⟨true, none⟩ then fdUnused fdp fd else some fdp
  | .dup2 file newfd => fdDup2 fdp file newfd
  | .tryexpand => some (fdTryexpand fdp)
  | .copy => fdCopy fdp

/-!
### The invariant and the searches

The invariant of a descriptor table and the searches in its bitmaps: the two
loops that look for a clear bit find the least one, and the loop that looks for
the last descriptor finds the greatest one in use.
-/

def TableSize (n : Nat) : Prop := n = ndfile ∨ ∃ k, n = ndextent * 2 ^ k

/-- The greatest descriptor in use, or -1. -/
def IsLast (fdp : Filedesc) (last : Int) : Prop :=
  -1 ≤ last ∧ (∀ fd, fdp.isused fd = true → (fd : Int) ≤ last) ∧
    (0 ≤ last → fdp.isused last.toNat = true)

def HighMap (lomap himap : Nat → UInt32) : Prop :=
  ∀ word, mapBit himap word = true ↔ lomap word = 0xffffffff

/-- What the bitmaps, the table and the marks have to do with each other, but for `fd_freefile`. -/
structure Consistent (fdp : Filedesc) : Prop where
  size : TableSize fdp.dt_nfiles
  builtin : ∀ fd < ndfdfile, fdp.dt_ff fd ≠ none
  lomap : ∀ fd, fdp.isused fd = fdp.allocated fd
  file : ∀ fd ff, fdp.dt_ff fd = some ff → ff.ff_file ≠ none → ff.ff_allocated = true
  inside : ∀ fd, fdp.isused fd = true → fd < fdp.dt_nfiles
  himap : HighMap fdp.fd_lomap fdp.fd_himap
  lastfile : IsLast fdp fdp.fd_lastfile

/-- Every number below `fd_freefile` is in use. -/
def FreefileRight (fdp : Filedesc) : Prop := ∀ fd < fdp.fd_freefile, fdp.isused fd = true

section Search

variable {bitmap : Nat → UInt32} {off want bits : Nat}

theorem nextZeroLoop_spec (bitmap : Nat → UInt32) (words off : Nat) :
    LeastClear (mapBit bitmap) (off * 32) ((off + words) * 32) (nextZeroLoop bitmap words off) := by
  induction words generalizing off with
  | zero =>
    intro m fst last
    omega
  | succ words ih =>
    unfold nextZeroLoop
    by_cases full : bitmap off = 0xffffffff
    · have tl := ih (off + 1)
      have here := word_full_iff.mp full
      have cov : ∀ m, off * 32 ≤ m → m < (off + 1) * 32 → mapBit bitmap m = true := by
        intro m fst last
        have := here (m - off * 32) (by omega)
        rwa [show off * 32 + (m - off * 32) = m by omega] at this
      simp only [full]
      rw [show off + (words + 1) = off + 1 + words by omega]
      exact tl.extend (by omega) cov
    · obtain ⟨_, lt, clr, prev⟩ := ffs32_not_least full
      simp only [ne_eq, full]
      refine ⟨by omega, by omega, ?_, fun m fst last => ?_⟩
      · rw [← bitAt_eq_mapBit lt]
        exact clr
      · have := prev (m - off * 32) (by omega) (by omega)
        rw [bitAt_eq_mapBit (by omega)] at this
        rwa [show off * 32 + (m - off * 32) = m by omega] at this

/-- The least clear bit from `want` on, in both maps. -/
theorem fdNextZero_spec (bitmap : Nat → UInt32) (lt : want ≤ bits) :
    LeastClear (mapBit bitmap) want (ndloslots bits * 32) (fdNextZero bitmap want bits) := by
  unfold fdNextZero
  simp only [not_lt.mpr lt]
  unfold ndloslots
  by_cases algn : want % 32 = 0
  · have whole := nextZeroLoop_spec bitmap ((bits + 31) / 32 - want / 32) (want / 32)
    simp only [algn]
    rwa [show want / 32 * 32 = want by omega,
      show want / 32 + ((bits + 31) / 32 - want / 32) = (bits + 31) / 32 by omega] at whole
  simp only [algn]
  -- the bits below `want` in its word are masked out
  generalize isSub : bitmap (want / 32) ||| (0xffffffff >>> UInt32.ofNat (32 - want % 32)) = sub
  have subBit : ∀ k < 32, bitAt sub k = (mapBit bitmap (want / 32 * 32 + k) ||
      decide (k < want % 32)) := by
    intro k kInside
    rw [← isSub, bitAt_or, bitAt_low (by omega) (Nat.mod_lt _ (by omega)) kInside,
      bitAt_eq_mapBit kInside]
  by_cases full : sub = 0xffffffff
  · have tl := nextZeroLoop_spec bitmap ((bits + 31) / 32 - (want / 32 + 1)) (want / 32 + 1)
    rw [show want / 32 + 1 + ((bits + 31) / 32 - (want / 32 + 1)) = (bits + 31) / 32 by omega]
      at tl
    have cov : ∀ m, want ≤ m → m < (want / 32 + 1) * 32 → mapBit bitmap m = true := by
      intro m fst last
      have := subBit (m - want / 32 * 32) (by omega)
      rw [full, bitAt_allOnes (by omega),
        show want / 32 * 32 + (m - want / 32 * 32) = m by omega] at this
      have notLow : ¬ m - want / 32 * 32 < want % 32 := by omega
      simpa [notLow] using this.symm
    simp only [full, ↓reduceIte]
    exact tl.extend (by omega) cov
  · obtain ⟨_, kInside, clr, prev⟩ := ffs32_not_least full
    simp only [ne_eq, full]
    rw [subBit _ kInside] at clr
    simp only [Bool.or_eq_false_iff, decide_eq_false_iff_not] at clr
    refine ⟨by omega, by omega, clr.1, fun m fst last => ?_⟩
    have := prev (m - want / 32 * 32) (by omega) (by omega)
    rw [subBit _ (by omega), show want / 32 * 32 + (m - want / 32 * 32) = m by omega] at this
    have notLow : ¬ m - want / 32 * 32 < want % 32 := by omega
    simpa [notLow] using this

theorem lastWord_spec (bitmap : Nat → UInt32) (words : Nat) : match lastWord bitmap words with
    | none => ∀ word < words, bitmap word = 0
    | some off => off < words ∧ bitmap off ≠ 0 ∧ ∀ word < words, off < word → bitmap word = 0 := by
  induction words with
  | zero =>
    intro word absurd
    omega
  | succ words ih =>
    by_cases eq0 : bitmap words = 0
    · have same : lastWord bitmap (words + 1) = lastWord bitmap words := by
        simp [lastWord, eq0]
      rw [same]
      cases found : lastWord bitmap words with
      | none =>
        rw [found] at ih
        intro word lt
        by_cases lst : word = words
        · rw [lst, eq0]
        · exact ih word (by omega)
      | some off =>
        rw [found] at ih
        obtain ⟨lt, nz, s'⟩ := ih
        refine ⟨by omega, nz, fun word below_ above => ?_⟩
        by_cases lst : word = words
        · rw [lst, eq0]
        · exact s' word (by omega) above
    · have same : lastWord bitmap (words + 1) = some words := by simp [lastWord, eq0]
      rw [same]
      exact ⟨by omega, eq0, fun word lt above => by omega⟩

theorem lastAllocated_spec (fdp : Filedesc) {i k : Nat} (lt : k ≤ i)
    (isAllocated : fdp.allocated k = true) :
    lastAllocated fdp i ≤ i ∧ fdp.allocated (lastAllocated fdp i) = true ∧
      ∀ fd ≤ i, fdp.allocated fd = true → fd ≤ lastAllocated fdp i := by
  induction i with
  | zero =>
    obtain rfl : k = 0 := by omega
    exact ⟨le_refl _, isAllocated, fun fd sml _ => sml⟩
  | succ i ih =>
    unfold lastAllocated
    by_cases here : fdp.allocated (i + 1) = true
    · rw [if_pos here]
      exact ⟨le_refl _, here, fun fd sml _ => sml⟩
    rw [if_neg here]
    have notTop : k ≠ i + 1 := by
      rintro rfl
      exact here isAllocated
    obtain ⟨below_, hsome, least⟩ := ih (by omega)
    refine ⟨by omega, hsome, fun fd sml used => least fd ?_ used⟩
    have : fd ≠ i + 1 := by
      rintro rfl
      exact here used
    omega

end Search

section Alloc

variable {fdp : Filedesc} {last want fuel : Nat}

theorem Consistent.isused_of_himap (good : Consistent fdp) {fd : Nat}
    (isSet : mapBit fdp.fd_himap (fd / 32) = true) : fdp.isused fd = true := by
  have full := word_full_iff.mp ((good.himap _).mp isSet) (fd % 32) (Nat.mod_lt _ (by omega))
  rwa [show fd / 32 * 32 + fd % 32 = fd by omega] at full

theorem lomapWord_cases (fdp : Filedesc) (hi : Nat) :
    fdp.lomapWord hi = fdp.fd_lomap hi ∨ fdp.dt_nfiles ≤ hi * 32 := by
  unfold Filedesc.lomapWord
  split
  · exact Or.inl rfl
  · rename_i far
    simp only [ndloslots] at far
    omega

theorem mapBit_lomapWord {hi k : Nat} (isWord : fdp.lomapWord hi = fdp.fd_lomap hi)
    (lt : k < 32) :
    mapBit (fun word => fdp.lomapWord (hi + word)) k = fdp.isused (hi * 32 + k) := by
  have fst : k / 32 = 0 := by omega
  have eqWord : (hi * 32 + k) / 32 = hi := by omega
  simp [mapBit, Filedesc.isused, fst, eqWord, isWord]

/-- The search begins at `fd_freefile`, right or not. -/
theorem allocLoop_spec (good : Consistent fdp) (lt : last ≤ fdp.dt_nfiles)
    (some_ : 1 ≤ fuel) (suff : ndloslots last + 2 ≤ fuel + want / 32) :
    ∃ res, allocLoop fdp last fuel want = some res ∧
      LeastClear fdp.isused (max want fdp.fd_freefile) last (res.map Prod.fst) ∧
      ∀ i later, res = some (i, later) → later ≤ fdp.fd_freefile →
        ∀ fd, fdp.fd_freefile ≤ fd → fd < i → fdp.isused fd = true := by
  induction fuel generalizing want with
  | zero => omega
  | succ fuel ih =>
    unfold allocLoop
    simp only
    generalize beg : (if want < fdp.fd_freefile then fdp.fd_freefile else want) = start
    have startIs : max want fdp.fd_freefile = start := by
      rw [← beg]
      split <;> omega
    rw [startIs]
    by_cases far : start / 32 > ndloslots last
    · have stops : fdNextZero fdp.fd_himap (start / 32) (ndloslots last) = none := by
        simp [fdNextZero, far]
      rw [stops]
      refine ⟨none, rfl, fun fd fst prev => ?_, by simp⟩
      unfold ndloslots at far
      omega
    have search := fdNextZero_spec fdp.fd_himap (not_lt.mp far)
    cases found : fdNextZero fdp.fd_himap (start / 32) (ndloslots last) with
    | none =>
      rw [found] at search
      refine ⟨none, rfl, fun fd fst prev => ?_, by simp⟩
      apply good.isused_of_himap
      apply search
      · omega
      · simp only [ndloslots]
        omega
    | some hi =>
      rw [found] at search
      obtain ⟨hiAbove, _, hiClear, fullWords⟩ := search
      -- everything before the word is in use
      have before_ : ∀ fd, start ≤ fd → fd < hi * 32 → fdp.isused fd = true := fun fd fst low =>
        good.isused_of_himap (fullWords _ (by omega) (by omega))
      have bnd : (if hi > start / 32 then 0 else start % 32) ≤ 32 := by
        split <;> omega
      have isFrom : hi * 32 + (if hi > start / 32 then 0 else start % 32) =
          max start (hi * 32) := by
        split <;> omega
      dsimp only
      generalize (if hi > start / 32 then 0 else start % 32) = from_ at bnd isFrom ⊢
      have inner := fdNextZero_spec (fun word => fdp.lomapWord (hi + word)) bnd
      simp only [show ndloslots 32 * 32 = 32 from rfl] at inner
      rcases lomapWord_cases fdp hi with isWord | tail
      · have bitOf (k : Nat) := @mapBit_lomapWord fdp hi k isWord
        cases stopped : fdNextZero (fun word => fdp.lomapWord (hi + word)) from_ 32 with
        | none =>
          rw [stopped] at inner
          have cov : ∀ fd, start ≤ fd → fd < (hi + 1) * 32 → fdp.isused fd = true := by
            intro fd fst last_
            by_cases low : fd < hi * 32
            · exact before_ fd fst low
            · have := inner (fd - hi * 32) (by omega) (by omega)
              rwa [bitOf _ (by omega), show hi * 32 + (fd - hi * 32) = fd by omega] at this
          obtain ⟨res, loop, lowest, hint⟩ := ih
            (show 1 ≤ fuel by omega) (show _ ≤ fuel + (hi + 1) * 32 / 32 by omega)
          exact ⟨res, loop, lowest.extend (by omega) fun fd fst last_ =>
            cov fd fst (by omega), hint⟩
        | some bit =>
          rw [stopped] at inner
          obtain ⟨bitAbove, bitInside, clr, least⟩ := inner
          rw [bitOf _ bitInside] at clr
          have below_ : ∀ fd, start ≤ fd → fd < bit + hi * 32 → fdp.isused fd = true := by
            intro fd fst last_
            by_cases low : fd < hi * 32
            · exact before_ fd fst low
            · have := least (fd - hi * 32) (by omega) (by omega)
              rwa [bitOf _ (by omega), show hi * 32 + (fd - hi * 32) = fd by omega] at this
          by_cases full : bit + hi * 32 ≥ last
          · refine ⟨none, by simp [full], fun fd fst last_ => ?_, by simp⟩
            exact below_ fd fst (by omega)
          refine ⟨some (bit + hi * 32, want), by simp [full], ?_, ?_⟩
          · refine ⟨by omega, by omega, ?_, below_⟩
            rwa [add_comm]
          · rintro i later same low fd fst smaller
            obtain ⟨rfl, rfl⟩ := Prod.mk.inj (Option.some.inj same)
            exact below_ fd (by omega) smaller
      · -- the high map was read: nothing in the table is left
        have nothing : ∀ fd, start ≤ fd → fd < last → fdp.isused fd = true :=
          fun fd fst last_ => before_ fd fst (by omega)
        cases stopped : fdNextZero (fun word => fdp.lomapWord (hi + word)) from_ 32 with
        | none =>
          obtain ⟨res, loop, lowest, hint⟩ := ih
            (show 1 ≤ fuel by omega) (show _ ≤ fuel + (hi + 1) * 32 / 32 by omega)
          refine ⟨res, loop, ?_, hint⟩
          cases isResult : res.map Prod.fst with
          | none => exact nothing
          | some i =>
            rw [isResult] at lowest
            obtain ⟨above, iInside, _⟩ := lowest
            omega
        | some bit =>
          have full : bit + hi * 32 ≥ last := by omega
          exact ⟨none, by simp [full], nothing, by simp⟩

end Alloc

end NetBSD.Kern.Descrip
