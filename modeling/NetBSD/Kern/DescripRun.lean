import NetBSD.Kern.DescripUse
import NetBSD.Machine.Trace

/-!
Owns the copy of a descriptor table and all runs of the operations. The copy leaves
out half open descriptors and kqueues but takes over `fd_freefile`, lowered for the
kqueues only: its `fd_freefile` is right exactly when no half open descriptor lies
below both.
-/

namespace NetBSD.Kern.Descrip

open NetBSD.Arith NetBSD.Machine Option Filedesc

section Copy

variable {fdp : Filedesc}

def Filedesc.fileAt (fdp : Filedesc) (fd : Nat) : Option File := (fdp.dt_ff fd).bind Fdfile.ff_file

/-- The table that `fd_copy` builds, with the descriptors below a number copied. -/
structure Copied (fdp : Filedesc) (size n : Nat) (newfdp : Filedesc) : Prop where
  nfiles : newfdp.dt_nfiles = size
  isused : ∀ m, newfdp.isused m = decide (m < n ∧ fdp.fileAt m = some .other)
  dt_ff : ∀ m, newfdp.dt_ff m =
    if m < n ∧ fdp.fileAt m = some .other then some ⟨true, some .other⟩ else fdInit.dt_ff m
  himap : HighMap newfdp.fd_lomap newfdp.fd_himap
  lastfile : IsLast newfdp newfdp.fd_lastfile
  freefile_le : newfdp.fd_freefile ≤ fdp.fd_freefile
  freefile_kqueue : ∀ k < n, fdp.fileAt k = some .kqueue → newfdp.fd_freefile ≤ k
  freefile_eq : newfdp.fd_freefile = fdp.fd_freefile ∨
    ∃ k < n, fdp.fileAt k = some .kqueue ∧ newfdp.fd_freefile = k

/-- One slot of the copy: a file shared or a slot left free. -/
theorem copyStep_spec {size n : Nat} {newfdp : Filedesc} (copy : Copied fdp size n newfdp) :
    ∃ s', copyStep fdp newfdp n = some s' ∧ Copied fdp size (n + 1) s' := by
  have notUsed : newfdp.isused n = false := by simp [copy.isused]
  have next : ∀ m, m < n + 1 ↔ m < n ∨ m = n := fun m => by omega
  unfold copyStep
  cases isFile : fdp.fileAt n with
  | none =>
    simp only [fileAt] at isFile
    rw [isFile]
    have diff : ∀ m (file : File), fdp.fileAt m = some file → m ≠ n := by
      rintro m file hf rfl
      rw [fileAt, isFile] at hf
      cases hf
    refine ⟨newfdp, by simp [notUsed], copy.nfiles, fun m => ?_, fun m => ?_, copy.himap,
      copy.lastfile, copy.freefile_le, fun k sml isKqueue => ?_, ?_⟩
    · rw [copy.isused, decide_eq_decide, next]
      exact and_congr_left fun hf => by simp [diff m _ hf]
    · rw [copy.dt_ff]
      congr 1
      rw [eq_iff_iff, next]
      exact and_congr_left fun hf => by simp [diff m _ hf]
    · have := diff k _ isKqueue
      exact copy.freefile_kqueue k (by omega) isKqueue
    · exact copy.freefile_eq.imp id fun ⟨k, sml, tl⟩ => ⟨k, by omega, tl⟩
  | some file =>
    cases file with
    | kqueue =>
      have isFile' := isFile
      simp only [fileAt] at isFile
      rw [isFile]
      have diff : ∀ m, fdp.fileAt m = some .other → m ≠ n := by
        rintro m hf rfl
        rw [isFile'] at hf
        cases hf
      refine ⟨_, rfl, copy.nfiles, fun m => ?_, fun m => ?_, copy.himap, copy.lastfile, ?_,
        fun k sml isKqueue => ?_, ?_⟩
      · refine (copy.isused m).trans ?_
        rw [decide_eq_decide, next]
        exact and_congr_left fun hf => by simp [diff m hf]
      · refine (copy.dt_ff m).trans ?_
        congr 1
        rw [eq_iff_iff, next]
        exact and_congr_left fun hf => by simp [diff m hf]
      · have := copy.freefile_le
        simp only
        split <;> omega
      · simp only
        by_cases isN : k = n
        · split <;> omega
        · have := copy.freefile_kqueue k (by omega) isKqueue
          split <;> omega
      · simp only
        split
        · exact .inr ⟨n, by omega, isFile', rfl⟩
        · exact copy.freefile_eq.imp id fun ⟨k, sml, tl⟩ => ⟨k, by omega, tl⟩
    | other =>
      have isFile' := isFile
      simp only [fileAt] at isFile
      rw [isFile]
      obtain ⟨highClear, high⟩ := copy.himap.set notUsed
      generalize hi : (if setBit newfdp.fd_lomap n (n / 32) = 0xffffffff then
        setBit newfdp.fd_himap (n / 32) else newfdp.fd_himap) = himap at high
      have isused : ∀ m, mapBit (setBit newfdp.fd_lomap n) m =
          decide (m < n + 1 ∧ fdp.fileAt m = some .other) := by
        intro m
        rw [mapBit_setBit, show mapBit newfdp.fd_lomap m = _ from copy.isused m]
        by_cases isN : m = n
        · simp [isN, isFile']
        · simp [next, isN]
      refine ⟨⟨newfdp.dt_nfiles, Function.update newfdp.dt_ff n (some ⟨true, some .other⟩),
        setBit newfdp.fd_lomap n, himap, newfdp.fd_freefile, n⟩, ?_, copy.nfiles, isused,
        fun m => ?_, high, ⟨by simp only; omega, fun m used => ?_, fun _ => ?_⟩,
        copy.freefile_le, fun k sml isKqueue => ?_, ?_⟩
      · simp only [show mapBit newfdp.fd_lomap n = false from notUsed, Bool.false_eq_true,
          ↓reduceIte, highClear, ← hi]
        split <;> rfl
      · by_cases isN : m = n
        · simp [isN, isFile']
        · simp [isN, copy.dt_ff, next]
      · rw [Filedesc.isused, isused] at used
        have := (of_decide_eq_true used).1
        simp only
        omega
      · rw [Filedesc.isused, isused]
        simp [isFile']
      · have isN : k ≠ n := by
          rintro rfl
          rw [isFile'] at isKqueue
          cases isKqueue
        exact copy.freefile_kqueue k (by omega) isKqueue
      · exact copy.freefile_eq.imp id fun ⟨k, sml, tl⟩ => ⟨k, by omega, tl⟩

theorem copyLoop_spec (fdp : Filedesc) (size n : Nat) :
    ∃ newfdp, copyLoop fdp { fdInit with dt_nfiles := size, fd_freefile := fdp.fd_freefile } n =
      some newfdp ∧ Copied fdp size n newfdp := by
  induction n with
  | zero =>
    refine ⟨_, rfl, rfl, fun m => ?_, fun m => ?_, fun word => ?_, ⟨?_, fun m used => ?_, ?_⟩,
      le_refl _, by simp, .inl rfl⟩
    · simp [Filedesc.isused, fdInit, mapBit, bitAt]
    · simp
    · simp [fdInit, mapBit, bitAt]
    · simp [fdInit]
    · simp [Filedesc.isused, fdInit, mapBit, bitAt] at used
    · simp [fdInit]
  | succ n ih =>
    obtain ⟨newfdp, loop, copy⟩ := ih
    obtain ⟨s', move, copied'⟩ := copyStep_spec copy
    exact ⟨s', by simp [copyLoop, loop, move], copied'⟩

theorem shrinkLoop_spec {lastfile : Int} {fuel i : Nat} (size : ∃ k, i = ndextent * 2 ^ k)
    (rm : lastfile < i) (suff : i < fuel) :
    ∃ j, shrinkLoop lastfile fuel i = some j ∧ (∃ k, j = ndextent * 2 ^ k) ∧ lastfile < j := by
  induction fuel generalizing i with
  | zero => omega
  | succ fuel ih =>
    unfold shrinkLoop
    split
    · rename_i large
      obtain ⟨k, rfl⟩ := size
      simp only [ndextent] at *
      cases k with
      | zero => simp at large
      | succ k =>
        have half : 50 * 2 ^ (k + 1) / 2 = 50 * 2 ^ k := by
          omega
        rw [half]
        exact ih ⟨k, rfl⟩ (by omega) (by omega)
    · exact ⟨i, rfl, size, rm⟩

/-- A descriptor in use without a file. -/
def Filedesc.HalfOpen (fdp : Filedesc) (fd : Nat) : Prop :=
  fdp.isused fd = true ∧ fdp.fileAt fd = none

/-- A copy is made only while every half open descriptor lies at or above `fd_freefile` or above a
kqueue. -/
def CopyFine (fdp : Filedesc) : Prop :=
  ∀ fd, fdp.HalfOpen fd → fdp.fd_freefile ≤ fd ∨ ∃ k < fd, fdp.fileAt k = some .kqueue

/-- The copy is consistent, and its hint is right exactly when the copy is fine. -/
theorem fdCopy_spec (good : Consistent fdp) :
    ∃ newfdp, fdCopy fdp = some newfdp ∧ Consistent newfdp ∧
      (FreefileRight fdp → (FreefileRight newfdp ↔ CopyFine fdp)) := by
  obtain ⟨low, highest, last⟩ := good.lastfile
  obtain ⟨size, fnd, hsz, large, rm⟩ : ∃ size, copySize fdp = some size ∧
      TableSize size ∧ (fdp.fd_lastfile ≥ ndfile → ndfile < size) ∧ fdp.fd_lastfile < size := by
    unfold copySize
    split
    · rename_i sml
      exact ⟨ndfile, rfl, .inl rfl, fun absurd => by omega, sml⟩
    have lt := good.inside _ (last (by omega))
    have pow : ∃ k, fdp.dt_nfiles = ndextent * 2 ^ k := by
      rcases good.size with isBuiltin | pow
      · rw [isBuiltin] at lt
        omega
      · exact pow
    obtain ⟨size, shrunk, ⟨k, hsz⟩, rm⟩ := shrinkLoop_spec pow
      (show fdp.fd_lastfile < fdp.dt_nfiles by omega) (Nat.lt_succ_self _)
    refine ⟨size, shrunk, .inr ⟨k, hsz⟩, fun _ => ?_, rm⟩
    omega
  have maps : ¬ (ndhislots size > ndhislots ndfile ∧ size < 32 * 32) := by
    unfold ndhislots ndloslots ndfile
    omega
  obtain ⟨newfdp, looped, copied⟩ := copyLoop_spec fdp size (fdp.fd_lastfile + 1).toNat
  -- every file lies below the bound of the loop
  have usedFile : ∀ fd file, fdp.fileAt fd = some file →
      fdp.isused fd = true ∧ fd < (fdp.fd_lastfile + 1).toNat := by
    intro fd file isFile
    obtain ⟨ff, isFf, hf⟩ := bind_eq_some_iff.mp isFile
    have used : fdp.isused fd = true := by
      rw [good.lomap, allocated_of_dt_ff isFf]
      exact good.file fd ff isFf (by simp [hf])
    have := highest fd used
    exact ⟨used, by omega⟩
  have isused : ∀ m, newfdp.isused m = true ↔ fdp.fileAt m = some .other := by
    intro m
    rw [copied.isused, decide_eq_true_eq]
    exact and_iff_right_of_imp fun isFile => (usedFile m _ isFile).2
  refine ⟨newfdp, ?_, ⟨copied.nfiles ▸ hsz, fun m sml => ?_, fun m => ?_, fun m ff isFf => ?_,
    fun m used => ?_, copied.himap, copied.lastfile⟩,
    fun wasRight => ⟨fun right fd ⟨used, noFile⟩ => ?_, fun fine fd sml => ?_⟩⟩
  · have fst : ¬ (fdp.fd_lastfile ≥ ndfile ∧ size ≤ ndfile) := by
      omega
    simp only [fdCopy, fnd, bind_eq_bind, bind_some, fst, maps]
    exact looped
  · rw [copied.dt_ff]
    split
    · simp
    · simp [fdInit, sml]
  · rw [copied.isused, allocated, copied.dt_ff]
    by_cases isCopied : m < (fdp.fd_lastfile + 1).toNat ∧ fdp.fileAt m = some .other
    · rw [if_pos isCopied, decide_eq_true isCopied]
    · rw [if_neg isCopied, decide_eq_false isCopied]
      by_cases sml : m < ndfdfile
      · simp [fdInit, sml, Fdfile.fresh]
      · simp [fdInit, sml]
  · intro hf
    rw [copied.dt_ff] at isFf
    split at isFf
    · rw [← some.inj isFf]
    · simp only [fdInit] at isFf
      split at isFf
      · rw [← some.inj isFf] at hf
        simp [Fdfile.fresh] at hf
      · cases isFf
  · rw [copied.nfiles]
    have := (usedFile m _ ((isused m).mp used)).2
    omega
  · -- a half open descriptor below would be free in the copy
    by_contra neither
    push Not at neither
    obtain ⟨low', noKqueue⟩ := neither
    have below_ : fd < newfdp.fd_freefile := by
      rcases copied.freefile_eq with same | ⟨k, _, isKqueue, same⟩
      · omega
      by_contra later
      rcases lt_or_ge k fd with prev | s'
      · exact noKqueue k prev isKqueue
      · obtain rfl : k = fd := by omega
        rw [noFile] at isKqueue
        cases isKqueue
    have := (isused fd).mp (right fd below_)
    rw [noFile] at this
    cases this
  · have smaller := copied.freefile_le
    have used := wasRight fd (by omega)
    rw [isused]
    cases isFile : fdp.fileAt fd with
    | none =>
      rcases fine fd ⟨used, isFile⟩ with above | ⟨k, prev, isKqueue⟩
      · omega
      · have := copied.freefile_kqueue k (usedFile k _ isKqueue).2 isKqueue
        omega
    | some file =>
      cases file with
      | other => rfl
      | kqueue =>
        have := copied.freefile_kqueue fd (usedFile fd _ isFile).2 isFile
        omega

end Copy

section Run

theorem fdInit_good : Good fdInit := by
  refine ⟨⟨.inl rfl, ?_, ?_, ?_, ?_, ?_, ?_, ?_, ?_⟩, ?_⟩
  · intro fd sml
    simp [fdInit, sml]
  · intro fd
    simp only [Filedesc.isused, allocated, fdInit, mapBit]
    split
    · simp [bitAt]
    · rename_i ff isFf
      split at isFf
      · rw [← some.inj isFf]
        simp [bitAt, Fdfile.fresh]
      · cases isFf
  · intro fd ff isFf hf
    simp only [fdInit] at isFf
    split at isFf
    · rw [← some.inj isFf] at hf
      simp [Fdfile.fresh] at hf
    · cases isFf
  · simp [Filedesc.isused, fdInit, mapBit, bitAt]
  · intro word
    simp [fdInit, mapBit, bitAt]
  · decide
  · simp [Filedesc.isused, fdInit, mapBit, bitAt]
  · simp [fdInit]
  · simp [FreefileRight, fdInit]

/-- What is to hold in every state: the bitmaps and marks are right, and `fd_alloc` gives the lowest
number. -/
structure Sound (fdp : Filedesc) : Prop where
  consistent : Consistent fdp
  right : FreefileRight fdp
  lowest : ∀ want lim, ∃ after result, fdAlloc fdp want lim = some (after, result) ∧
    Allocates fdp want lim after result

theorem sound_iff_settled (fdp : Filedesc) : Sound fdp ↔ Settled True fdp := by
  constructor
  · exact fun sound => ⟨sound.consistent, fun _ => sound.right⟩
  · intro done
    refine ⟨done.consistent, done.right trivial, fun want lim => ?_⟩
    obtain ⟨s', res, alloc, _, lowest⟩ := fdAlloc_spec done want lim
    exact ⟨s', res, alloc, lowest trivial⟩

def Fine (fdp : Filedesc) : Event → Prop
  | .copy => CopyFine fdp
  | _ => True

theorem step_settled {careful : Prop} {fdp : Filedesc} (done : Settled careful fdp)
    (event : Event) (fine : careful → Fine fdp event) :
    ∃ s', step fdp event = some s' ∧ Settled careful s' := by
  cases event with
  | alloc want lim =>
    obtain ⟨s', res, allocated, settledAfter, _⟩ := fdAlloc_spec done want lim
    exact ⟨s', by simp [step, allocated], settledAfter⟩
  | affix fd file =>
    simp only [step]
    split
    · rename_i isHalf
      exact fdAffix_spec done isHalf file
    · exact ⟨fdp, rfl, done⟩
  | detach fd => exact ⟨_, rfl, (fdDetach_spec done fd).1⟩
  | release fd =>
    simp only [step]
    split
    · rename_i isHalf
      obtain ⟨s', fresh, frees⟩ := fdUnused_spec done.consistent isHalf
      exact ⟨s', fresh, frees.settled done.right⟩
    · exact ⟨fdp, rfl, done⟩
  | dup2 file newfd => exact fdDup2_spec done file newfd
  | tryexpand => exact ⟨_, rfl, (fdTryexpand_spec done).1⟩
  | copy =>
    obtain ⟨newfdp, copied, good, rightIff⟩ := fdCopy_spec done.consistent
    exact ⟨newfdp, copied, good, fun isCareful =>
      (rightIff (done.right isCareful)).mpr (fine isCareful)⟩

theorem step_sound {fdp : Filedesc} (sound : Sound fdp) (event : Event) :
    (∃ s', step fdp event = some s' ∧ Sound s') ↔ Fine fdp event := by
  constructor
  · rintro ⟨s', move, soundAfter⟩
    cases event with
    | copy =>
      obtain ⟨newfdp, copied, _, rightIff⟩ := fdCopy_spec sound.consistent
      obtain rfl := some.inj (copied.symm.trans move)
      exact (rightIff sound.right).mp soundAfter.right
    | _ => exact trivial
  · intro fine
    obtain ⟨s', move, done⟩ :=
      step_settled ((sound_iff_settled fdp).mp sound) event fun _ => fine
    exact ⟨s', move, (sound_iff_settled s').mpr done⟩

/-- Every state reached has right bitmaps and marks and allocates the lowest number exactly when
every copy meets its condition. -/
theorem fdAlloc_lowest (events : List Event) : (∀ front, front <+: events →
      ∃ reached, consume step front fdInit = some reached ∧ Sound reached) ↔
    ∀ front event, front ++ [event] <+: events → ∀ reached,
      consume step front fdInit = some reached → Fine reached event :=
  consume_invariant_iff step Sound Fine (fun _ event sound => step_sound sound event) events
    ((sound_iff_settled fdInit).mpr ⟨fdInit_good.consistent, fun _ => fdInit_good.right⟩)

/-- Descriptor 0 is half open while 1 is open; the copy has `fd_freefile` 1 and 0 free. -/
theorem fdCopy_freefile : ¬ ∀ (events : List Event) (front : List Event), front <+: events →
    ∃ reached, consume step front fdInit = some reached ∧ Sound reached := by
  intro always
  have wrong : (consume step [.alloc 0 20, .alloc 0 20, .affix 1 .other, .copy] fdInit).map
      (fun fdp => (fdp.fd_freefile, fdp.isused 0)) = some (1, false) := by decide
  obtain ⟨reached, eaten, sound⟩ := always
    [.alloc 0 20, .alloc 0 20, .affix 1 .other, .copy] _ (List.prefix_refl _)
  rw [eaten, map_some, some.injEq, Prod.mk.injEq] at wrong
  have used := sound.right 0 (by omega)
  rw [wrong.2] at used
  cases used

end Run

end NetBSD.Kern.Descrip
