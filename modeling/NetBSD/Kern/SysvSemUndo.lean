import NetBSD.Kern.SysvSem
import Mathlib.Data.List.Perm.Basic

/-!
Owns the undo entries of one process as a map from semaphores to adjustments. The
order of the entries changes when one is deleted, so what a step does is said up to
order; taking the same step back then always finds room.
-/

namespace NetBSD.Kern.SysvSem

open List Option Undo

def UndoEntry.Is (ent : UndoEntry) (semid semnum : Nat) : Prop :=
  ent.un_id = semid ∧ ent.un_num = semnum

instance (ent : UndoEntry) (semid semnum : Nat) : Decidable (ent.Is semid semnum) :=
  inferInstanceAs (Decidable (_ ∧ _))

def adjOf (ents : List UndoEntry) (semid semnum : Nat) : Int :=
  match ents with
  | [] => 0
  | ent :: rest => if ent.Is semid semnum then ent.un_adjval else adjOf rest semid semnum

/-- The invariant of the entries of a process. -/
structure Vector (ents : List UndoEntry) : Prop where
  keys : ents.Pairwise fun a b => ¬ (a.un_id = b.un_id ∧ a.un_num = b.un_num)
  values : ∀ ent ∈ ents, ent.un_adjval ≠ 0 ∧ -32768 ≤ ent.un_adjval ∧ ent.un_adjval ≤ 32767
  room : ents.length ≤ semume

def adjusted (ent : UndoEntry) (adjval : Int) (rest : List UndoEntry) : List UndoEntry :=
  if short (ent.un_adjval + adjval) = 0 then rest
  else { ent with un_adjval := short (ent.un_adjval + adjval) } :: rest

section Short

theorem short_eq {x : Int} (low : -32768 ≤ x) (high : x ≤ 32767) : short x = x := by
  unfold short
  omega

theorem short_bounds (x : Int) : -32768 ≤ short x ∧ short x ≤ 32767 := by
  unfold short
  omega

def sembuf (sem_num : Nat) (x : Int) (undo : Bool) : Sembuf :=
  ⟨sem_num, short x, false, undo, short_bounds x⟩

theorem short_add (x y : Int) : short (short x + y) = short (x + y) := by
  unfold short
  omega

end Short

section Vector

variable {ents ents' tl : List UndoEntry} {ent : UndoEntry} {semid semnum : Nat} {adjval : Int}

theorem vector_nil : Vector [] where
  keys := List.Pairwise.nil
  values := fun ent isIn => by cases isIn
  room := Nat.zero_le _

theorem Vector.perm (vec : Vector ents) (same : ents.Perm ents') : Vector ents' where
  keys := (same.pairwise_iff fun apart back => apart ⟨back.1.symm, back.2.symm⟩).mp vec.keys
  values := fun ent isIn => vec.values ent (same.mem_iff.mpr isIn)
  room := same.length_eq ▸ vec.room

theorem Vector.tail (vec : Vector (ent :: tl)) : Vector tl where
  keys := (pairwise_cons.mp vec.keys).2
  values := (forall_mem_cons.mp vec.values).2
  room := Nat.le_of_succ_le vec.room

theorem adjOf_eq_zero (miss : ∀ ent ∈ ents, ¬ ent.Is semid semnum) :
    adjOf ents semid semnum = 0 := by
  induction ents with
  | nil => rfl
  | cons fst tl ih =>
    obtain ⟨notFirst, notRest⟩ := forall_mem_cons.mp miss
    rw [adjOf, if_neg notFirst, ih notRest]

theorem Vector.adjOf_of_mem (vec : Vector ents) (isIn : ent ∈ ents) :
    adjOf ents ent.un_id ent.un_num = ent.un_adjval := by
  induction ents with
  | nil => cases isIn
  | cons fst tl ih =>
    obtain ⟨apart, _⟩ := pairwise_cons.mp vec.keys
    rw [adjOf]
    rcases mem_cons.mp isIn with rfl | mem
    · exact if_pos ⟨rfl, rfl⟩
    · have notFirst : ¬ fst.Is ent.un_id ent.un_num := apart ent mem
      rw [if_neg notFirst, ih vec.tail mem]

theorem Vector.adjOf_perm (vec : Vector ents) (same : ents.Perm ents') (semid semnum : Nat) :
    adjOf ents semid semnum = adjOf ents' semid semnum := by
  by_cases fnd : ∃ ent ∈ ents, ent.Is semid semnum
  · obtain ⟨ent, isIn, rfl, rfl⟩ := fnd
    rw [vec.adjOf_of_mem isIn, (vec.perm same).adjOf_of_mem (same.mem_iff.mp isIn)]
  · have miss : ∀ ent ∈ ents, ¬ ent.Is semid semnum := fun ent isIn is => fnd ⟨ent, isIn, is⟩
    rw [adjOf_eq_zero miss, adjOf_eq_zero fun ent isIn => miss ent (same.mem_iff.mpr isIn)]

theorem fillHole_perm (tl : List UndoEntry) : (fillHole tl).Perm tl := by
  cases tl with
  | nil => exact .refl _
  | cons ent tl =>
    have whole := dropLast_append_getLast (cons_ne_nil ent tl)
    have moved : ([(ent :: tl).getLast (cons_ne_nil ent tl)] ++
        (ent :: tl).dropLast).Perm ((ent :: tl).dropLast ++ [_]) := perm_append_comm
    rw [whole] at moved
    exact moved

theorem adjustLoop_none (hn : adjustLoop semid semnum adjval ents = none) :
    ∀ ent ∈ ents, ¬ ent.Is semid semnum := by
  induction ents with
  | nil => exact fun ent isIn => by cases isIn
  | cons fst tl ih =>
    rw [adjustLoop] at hn
    split at hn
    · rename_i oth
      refine forall_mem_cons.mpr ⟨fun is => ?_, ih ?_⟩
      · exact oth.elim (fun ne => ne is.1) fun ne => ne is.2
      · exact map_eq_none_iff.mp hn
    · dsimp only at hn
      split at hn <;> cases hn

theorem adjustLoop_some (hsome : adjustLoop semid semnum adjval ents = some ents') :
    ∃ ent tl, ents.Perm (ent :: tl) ∧ ent.Is semid semnum ∧
      ents'.Perm (adjusted ent adjval tl) := by
  induction ents generalizing ents' with
  | nil => cases hsome
  | cons fst oths ih =>
    rw [adjustLoop] at hsome
    split at hsome
    · obtain ⟨more, isMore, rfl⟩ := map_eq_some_iff.mp hsome
      obtain ⟨ent, tl, split, is, s'⟩ := ih isMore
      refine ⟨ent, fst :: tl, (split.cons fst).trans (List.Perm.swap ent fst tl), is, ?_⟩
      refine (s'.cons fst).trans ?_
      unfold adjusted
      split
      · exact .refl _
      · exact List.Perm.swap _ _ _
    rename_i same
    rw [not_or, not_ne_iff, not_ne_iff] at same
    refine ⟨fst, oths, .refl _, same, ?_⟩
    dsimp only at hsome
    unfold adjusted
    split at hsome
    · rename_i zero
      obtain rfl := some.inj hsome
      rw [if_pos zero]
      exact fillHole_perm oths
    · rename_i notZero
      obtain rfl := some.inj hsome
      rw [if_neg notZero]

/-- What an adjustment comes to, up to the order of the entries. -/
inductive Adjusts (semid semnum : Nat) (adjval : Int) (ents : List UndoEntry) :
    List UndoEntry → Prop where
  | found (ent : UndoEntry) (rest : List UndoEntry) {ents' : List UndoEntry}
      (split : ents.Perm (ent :: rest)) (is : ent.Is semid semnum)
      (after : ents'.Perm (adjusted ent adjval rest)) : Adjusts semid semnum adjval ents ents'
  | created {ents' : List UndoEntry} (absent : ∀ ent ∈ ents, ¬ ent.Is semid semnum)
      (room : ents.length ≠ semume)
      (after : ents'.Perm (⟨short adjval, semnum, semid⟩ :: ents)) :
      Adjusts semid semnum adjval ents ents'

theorem adjustEntries_some (hsome : adjustEntries semid semnum adjval ents = some ents') :
    Adjusts semid semnum adjval ents ents' := by
  unfold adjustEntries at hsome
  split at hsome
  · rename_i fnd
    obtain rfl := some.inj hsome
    obtain ⟨ent, tl, split, is, s'⟩ := adjustLoop_some fnd
    exact .found ent tl split is s'
  rename_i miss
  split at hsome
  · cases hsome
  · rename_i rm
    obtain rfl := some.inj hsome
    exact .created (adjustLoop_none miss) rm (perm_append_singleton _ _)

theorem adjustEntries_none (hn : adjustEntries semid semnum adjval ents = none) :
    (∀ ent ∈ ents, ¬ ent.Is semid semnum) ∧ ents.length = semume := by
  unfold adjustEntries at hn
  split at hn
  · cases hn
  · rename_i miss
    split at hn
    · exact ⟨adjustLoop_none miss, ‹_›⟩
    · cases hn

theorem Adjusts.vector (adjusts : Adjusts semid semnum adjval ents ents') (vec : Vector ents)
    (notZero : short adjval ≠ 0) : Vector ents' := by
  cases adjusts with
  | found ent tl split is s' =>
    have whole := vec.perm split
    refine Vector.perm ?_ s'.symm
    unfold adjusted
    split
    · exact whole.tail
    · rename_i changed
      obtain ⟨apart, restApart⟩ := pairwise_cons.mp whole.keys
      refine ⟨pairwise_cons.mpr ⟨apart, restApart⟩, ?_, whole.room⟩
      exact forall_mem_cons.mpr ⟨⟨changed, short_bounds _⟩, whole.tail.values⟩
  | created miss rm s' =>
    refine Vector.perm ⟨?_, ?_, ?_⟩ s'.symm
    · exact pairwise_cons.mpr ⟨fun ent isIn same =>
        miss ent isIn ⟨same.1.symm, same.2.symm⟩, vec.keys⟩
    · exact forall_mem_cons.mpr ⟨⟨notZero, short_bounds _⟩, vec.values⟩
    · have := vec.room
      rw [length_cons]
      omega

theorem Adjusts.adjOf (adjusts : Adjusts semid semnum adjval ents ents') (vec : Vector ents)
    (notZero : short adjval ≠ 0) (i n : Nat) :
    adjOf ents' i n =
      if i = semid ∧ n = semnum then short (adjOf ents i n + adjval) else adjOf ents i n := by
  have vectorAfter := adjusts.vector vec notZero
  cases adjusts with
  | found ent tl split is s' =>
    obtain ⟨rfl, rfl⟩ := is
    have miss : ∀ oth ∈ tl, ¬ oth.Is ent.un_id ent.un_num := fun oth isIn is =>
      (pairwise_cons.mp (vec.perm split).keys).1 oth isIn ⟨is.1.symm, is.2.symm⟩
    rw [vectorAfter.adjOf_perm s', vec.adjOf_perm split]
    by_cases same : i = ent.un_id ∧ n = ent.un_num
    · obtain ⟨rfl, rfl⟩ := same
      rw [if_pos ⟨rfl, rfl⟩, SysvSem.adjOf, if_pos ⟨rfl, rfl⟩]
      unfold adjusted
      split
      · rename_i zero
        rw [zero, adjOf_eq_zero miss]
      · rw [SysvSem.adjOf, if_pos ⟨rfl, rfl⟩]
    · have oth : ¬ ent.Is i n := fun is => same ⟨is.1.symm, is.2.symm⟩
      rw [SysvSem.adjOf, if_neg oth]
      unfold adjusted
      split
      · rfl
      · exact if_neg oth
  | created miss rm s' =>
    rw [vectorAfter.adjOf_perm s', SysvSem.adjOf]
    by_cases same : i = semid ∧ n = semnum
    · obtain ⟨rfl, rfl⟩ := same
      rw [if_pos ⟨rfl, rfl⟩, if_pos ⟨rfl, rfl⟩, adjOf_eq_zero miss, Int.zero_add]
    · have oth : ¬ UndoEntry.Is ⟨short adjval, semnum, semid⟩ i n :=
        fun is => same ⟨is.1.symm, is.2.symm⟩
      rw [if_neg same, if_neg oth]

theorem Vector.adjOf_bounds (vec : Vector ents) (i n : Nat) :
    -32768 ≤ SysvSem.adjOf ents i n ∧ SysvSem.adjOf ents i n ≤ 32767 := by
  by_cases fnd : ∃ ent ∈ ents, ent.Is i n
  · obtain ⟨ent, isIn, rfl, rfl⟩ := fnd
    rw [vec.adjOf_of_mem isIn]
    exact (vec.values ent isIn).2
  · rw [adjOf_eq_zero fun ent isIn is => fnd ⟨ent, isIn, is⟩]
    decide

theorem Vector.nodup (vec : Vector ents) : ents.Nodup := by
  refine vec.keys.imp fun apart same => ?_
  rw [same] at apart
  exact apart ⟨rfl, rfl⟩

theorem Vector.perm_of_adjOf (vec : Vector ents) (vector' : Vector ents')
    (same : ∀ i n, SysvSem.adjOf ents i n = SysvSem.adjOf ents' i n) : ents.Perm ents' := by
  have included : ∀ {l l' : List UndoEntry}, Vector l → Vector l' →
      (∀ i n, SysvSem.adjOf l i n = SysvSem.adjOf l' i n) → ∀ ent ∈ l, ent ∈ l' := by
    intro l l' left right agree ent isIn
    have v := left.adjOf_of_mem isIn
    rw [agree] at v
    by_cases fnd : ∃ oth ∈ l', oth.Is ent.un_id ent.un_num
    · obtain ⟨oth, inOther, sameId, sameNum⟩ := fnd
      have valueOther := right.adjOf_of_mem inOther
      rw [sameId, sameNum, v] at valueOther
      obtain ⟨adj, num, id⟩ := ent
      dsimp only at sameId sameNum valueOther
      rw [valueOther, ← sameId, ← sameNum]
      exact inOther
    · rw [adjOf_eq_zero fun oth isIn is => fnd ⟨oth, isIn, is⟩] at v
      exact absurd v.symm (left.values ent isIn).1
  refine (perm_ext_iff_of_nodup vec.nodup vector'.nodup).mpr fun ent => ⟨?_, ?_⟩
  · exact included vec vector' same ent
  · exact included vector' vec (fun i n => (same i n).symm) ent

theorem short_neg (notZero : short adjval ≠ 0) : short (-adjval) ≠ 0 := by
  unfold short at notZero ⊢
  omega

theorem Adjusts.back (adjusts : Adjusts semid semnum adjval ents ents') (vec : Vector ents)
    (notZero : short adjval ≠ 0) {late : List UndoEntry} (same : late.Perm ents') :
    ∃ prev, adjustEntries semid semnum (-adjval) late = some prev ∧ prev.Perm ents := by
  have vectorLate : Vector late := (adjusts.vector vec notZero).perm same.symm
  have mapLate := vectorLate.adjOf_perm same
  cases isBefore : adjustEntries semid semnum (-adjval) late with
  | some prev =>
    have back := adjustEntries_some isBefore
    have vectorBefore := back.vector vectorLate (short_neg notZero)
    refine ⟨prev, rfl, vectorBefore.perm_of_adjOf vec fun i n => ?_⟩
    have bnds := vec.adjOf_bounds i n
    rw [back.adjOf vectorLate (short_neg notZero), mapLate, adjusts.adjOf vec notZero]
    split
    · rw [short_add, Int.add_neg_cancel_right, short_eq bnds.1 bnds.2]
    · rfl
  | none =>
    obtain ⟨miss, full⟩ := adjustEntries_none isBefore
    rw [same.length_eq] at full
    cases adjusts with
    | found ent tl split is s' =>
      have fits := (vec.perm split).room
      rw [length_cons] at fits
      have longer : ents'.length = (adjusted ent adjval tl).length := s'.length_eq
      unfold adjusted at longer s'
      split at longer
      · omega
      rename_i changed
      rw [if_neg changed] at s'
      have isIn : { ent with un_adjval := short (ent.un_adjval + adjval) } ∈ late :=
        same.symm.subset (s'.symm.subset mem_cons_self)
      have noEntry := miss _ isIn
      exact absurd is noEntry
    | created noEntry rm s' =>
      exact absurd ⟨rfl, rfl⟩ (miss _ (same.symm.subset (s'.symm.subset mem_cons_self)))

end Vector

/-- What a process owes a semaphore. -/
def owed (semu_list : List Undo) (p semid semnum : Nat) : Int :=
  adjOf ((findUndo p semu_list).getD []) semid semnum

structure Undos (semmnu : Nat) (semu_list : List Undo) : Prop where
  procs : (semu_list.map Undo.un_proc).Nodup
  vectors : ∀ suptr ∈ semu_list, Vector suptr.un_ent
  room : semu_list.length ≤ semmnu

section List

variable {semmnu p q semid semnum : Nat} {semu_list s' : List Undo} {ents : List UndoEntry}
  {adjval : Int}

theorem findUndo_none : findUndo p semu_list = none ↔ p ∉ semu_list.map un_proc := by
  induction semu_list with
  | nil => simp [findUndo]
  | cons suptr tl ih =>
    rw [findUndo, map_cons, mem_cons, not_or]
    split
    · rename_i same
      exact iff_of_false (fun no => by cases no) fun miss => miss.1 same.symm
    · rename_i oth
      rw [ih]
      exact ⟨fun miss => ⟨fun same => oth same.symm, miss⟩, And.right⟩

theorem findUndo_mem (fnd : findUndo p semu_list = some ents) : ⟨p, ents⟩ ∈ semu_list := by
  induction semu_list with
  | nil => cases fnd
  | cons suptr tl ih =>
    rw [findUndo] at fnd
    split at fnd
    · rename_i same
      obtain rfl := some.inj fnd
      rw [← same]
      exact mem_cons_self
    · exact mem_cons_of_mem suptr (ih fnd)

theorem findUndo_of_mem (procs : (semu_list.map un_proc).Nodup) {suptr : Undo}
    (isIn : suptr ∈ semu_list) : findUndo suptr.un_proc semu_list = some suptr.un_ent := by
  induction semu_list with
  | nil => cases isIn
  | cons fst tl ih =>
    obtain ⟨notIn, restProcs⟩ := nodup_cons.mp procs
    rw [findUndo]
    rcases mem_cons.mp isIn with rfl | mem
    · exact if_pos rfl
    · have oth : fst.un_proc ≠ suptr.un_proc := fun same =>
        notIn (same ▸ mem_map_of_mem mem)
      rw [if_neg oth, ih restProcs mem]

theorem Undos.vector (undos : Undos semmnu semu_list) (p : Nat) :
    Vector ((findUndo p semu_list).getD []) := by
  cases found : findUndo p semu_list with
  | some ents => exact undos.vectors _ (findUndo_mem found)
  | none => exact vector_nil

theorem Undos.owed_bounds (undos : Undos semmnu semu_list) (p i n : Nat) :
    -32768 ≤ owed semu_list p i n ∧ owed semu_list p i n ≤ 32767 :=
  (undos.vector p).adjOf_bounds i n

variable (p ents semu_list) in
theorem procs_setUndo : (setUndo p ents semu_list).map un_proc =
    semu_list.map un_proc := by
  induction semu_list with
  | nil => rfl
  | cons suptr tl ih =>
    rw [setUndo]
    split
    · rfl
    · rw [map_cons, map_cons, ih]

variable (ents) in
theorem findUndo_setUndo_self (fnd : findUndo p semu_list ≠ none) :
    findUndo p (setUndo p ents semu_list) = some ents := by
  induction semu_list with
  | nil => exact absurd rfl fnd
  | cons suptr tl ih =>
    rw [findUndo] at fnd
    rw [setUndo]
    split
    · rename_i same
      rw [findUndo, if_pos same]
    · rename_i oth
      rw [if_neg oth] at fnd
      rw [findUndo, if_neg oth, ih fnd]

theorem findUndo_setUndo_other (oth : q ≠ p) :
    findUndo q (setUndo p ents semu_list) = findUndo q semu_list := by
  induction semu_list with
  | nil => rfl
  | cons suptr tl ih =>
    rw [setUndo]
    split
    · rename_i same
      have notQ : ¬ suptr.un_proc = q := fun isQ => oth (isQ.symm.trans same)
      rw [findUndo, findUndo, if_neg notQ, if_neg notQ]
    · rw [findUndo, findUndo, ih]

theorem mem_setUndo {suptr : Undo} (isIn : suptr ∈ setUndo p ents semu_list) :
    suptr ∈ semu_list ∨ suptr.un_ent = ents := by
  induction semu_list with
  | nil => cases isIn
  | cons fst tl ih =>
    rw [setUndo] at isIn
    split at isIn
    · rcases mem_cons.mp isIn with rfl | mem
      · exact .inr rfl
      · exact .inl (mem_cons_of_mem fst mem)
    · rcases mem_cons.mp isIn with rfl | mem
      · exact .inl mem_cons_self
      · exact (ih mem).imp_left (mem_cons_of_mem fst)

theorem Undos.setUndo (undos : Undos semmnu semu_list) (vec : Vector ents) :
    Undos semmnu (setUndo p ents semu_list) where
  procs := by
    rw [procs_setUndo]
    exact undos.procs
  vectors := by
    intro suptr isIn
    rcases mem_setUndo isIn with old | new
    · exact undos.vectors suptr old
    · rw [new]
      exact vec
  room := by
    have same := congrArg List.length (procs_setUndo p semu_list ents)
    rw [length_map, length_map] at same
    rw [same]
    exact undos.room

theorem findUndo_filter (procs : (semu_list.map un_proc).Nodup) :
    (findUndo q (semu_list.filter fun suptr => decide (suptr.un_ent ≠ []))).getD [] =
      (findUndo q semu_list).getD [] := by
  induction semu_list with
  | nil => rfl
  | cons suptr tl ih =>
    obtain ⟨notIn, restProcs⟩ := nodup_cons.mp procs
    rw [filter_cons, findUndo]
    by_cases empty : suptr.un_ent = []
    · rw [if_neg (by simp [empty]), ih restProcs]
      split
      · rename_i same
        have miss : findUndo q tl = none := findUndo_none.mpr (same ▸ notIn)
        rw [miss, empty]
        rfl
      · rfl
    · rw [if_pos (decide_eq_true empty), findUndo]
      split
      · rfl
      · exact ih restProcs

/-- A fresh undo vector leaves every other process as it was. -/
theorem semuAlloc_spec (undos : Undos semmnu semu_list) (miss : findUndo p semu_list = none)
    (alloc : semuAlloc semmnu semu_list p = some s') :
    findUndo p s' = some [] ∧ Undos semmnu s' ∧
      ∀ q, (findUndo q s').getD [] = (findUndo q semu_list).getD [] := by
  have notIn := findUndo_none.mp miss
  unfold semuAlloc at alloc
  split at alloc
  · rename_i rm
    obtain rfl := some.inj alloc
    refine ⟨if_pos rfl, ⟨?_, forall_mem_cons.mpr ⟨vector_nil, undos.vectors⟩, rm⟩, fun q => ?_⟩
    · exact nodup_cons.mpr ⟨notIn, undos.procs⟩
    rw [findUndo]
    split
    · rename_i same
      obtain rfl : p = q := same
      rw [miss]
      rfl
    · rfl
  dsimp only at alloc
  split at alloc
  · split at alloc
    · rename_i rm
      obtain rfl := some.inj alloc
      have fewer : ((semu_list.filter fun suptr => decide (suptr.un_ent ≠ [])).map
          un_proc).Sublist (semu_list.map un_proc) := filter_sublist.map _
      refine ⟨if_pos rfl, ⟨?_, ?_, rm⟩, fun q => ?_⟩
      · exact nodup_cons.mpr ⟨fun isIn => notIn (fewer.subset isIn), undos.procs.sublist fewer⟩
      · exact forall_mem_cons.mpr ⟨vector_nil, fun suptr isIn =>
          undos.vectors suptr (mem_filter.mp isIn).1⟩
      · rw [findUndo]
        split
        · rename_i same
          obtain rfl : p = q := same
          rw [miss]
          rfl
        · exact findUndo_filter undos.procs
    · cases alloc
  · cases alloc

section

variable (undos : Undos semmnu semu_list) (notZero : short adjval ≠ 0)
  (ok : semundoAdjust semmnu p semid semnum adjval semu_list = .ok s')

include undos notZero ok

/-- An adjustment touches one entry of one process. -/
theorem semundoAdjust_ok :
    Undos semmnu s' ∧ findUndo p s' ≠ none ∧
      Adjusts semid semnum adjval ((findUndo p semu_list).getD []) ((findUndo p s').getD []) ∧
      ∀ q, q ≠ p → (findUndo q s').getD [] = (findUndo q semu_list).getD [] := by
  have vec := undos.vector p
  unfold semundoAdjust at ok
  split at ok
  · rename_i ents fnd
    rw [fnd] at vec ⊢
    split at ok
    · rename_i new isNew
      obtain rfl := Except.ok.inj ok
      have adjusts := adjustEntries_some isNew
      have hit := findUndo_setUndo_self new
        (show findUndo p semu_list ≠ none by rw [fnd]; exact some_ne_none _)
      rw [hit]
      refine ⟨undos.setUndo (adjusts.vector vec notZero), some_ne_none _, adjusts, ?_⟩
      intro q oth
      rw [findUndo_setUndo_other oth]
    · cases ok
  rename_i miss
  rw [miss] at vec ⊢
  split at ok
  · cases ok
  rename_i more alloc
  obtain ⟨empty, undosMore, same⟩ := semuAlloc_spec undos miss alloc
  split at ok
  · rename_i new isNew
    obtain rfl := Except.ok.inj ok
    have adjusts := adjustEntries_some isNew
    have hit := findUndo_setUndo_self new
      (show findUndo p more ≠ none by rw [empty]; exact some_ne_none _)
    rw [hit]
    refine ⟨undosMore.setUndo (adjusts.vector vec notZero), some_ne_none _, adjusts, ?_⟩
    intro q oth
    rw [findUndo_setUndo_other oth, same]
  · cases ok

theorem semundoAdjust_owed (q i n : Nat) :
    owed s' q i n = if q = p ∧ i = semid ∧ n = semnum then short (owed semu_list q i n + adjval)
      else owed semu_list q i n := by
  obtain ⟨_, _, adjusts, oths⟩ := semundoAdjust_ok undos notZero ok
  unfold owed
  by_cases same : q = p
  · subst same
    rw [adjusts.adjOf (undos.vector q) notZero]
    simp only [true_and]
  · rw [oths q same, if_neg fun both => same both.1]

end

end List

/-!
### The other calls

What the other calls do to the undo structures: `semundo_clear` drops the entries of
a set or of one semaphore, `semexit` drops a structure, and a reallocation reverses the
list.
-/

section Clear

variable {semid : Nat} {semnum : Option Nat} {ents : List UndoEntry}

def cleared (semid : Nat) (semnum : Option Nat) (ent : UndoEntry) : Bool :=
  decide (ent.un_id = semid ∧ ∀ num, semnum = some num → ent.un_num = num)

/-- Clearing removes the entries of the semaphores, in any order. -/
theorem clearLoop_perm (vec : Vector ents) {fuel : Nat} (suff : ents.length < fuel) :
    (clearLoop semid semnum fuel ents).Perm (ents.filter fun ent => !cleared semid semnum ent) := by
  induction fuel generalizing ents with
  | zero => omega
  | succ fuel ih =>
    cases ents with
    | nil => exact .refl _
    | cons ent tl =>
      have fewer : tl.length < fuel := by
        rw [length_cons] at suff
        omega
      unfold clearLoop
      rw [filter_cons]
      by_cases same : ent.un_id = semid
      · rw [if_pos same]
        cases semnum with
        | none =>
          have isCleared : cleared semid none ent = true :=
            decide_eq_true ⟨same, fun num isNum => by cases isNum⟩
          rw [isCleared]
          have full := fillHole_perm tl
          refine (ih (vec.tail.perm full.symm)
            (full.length_eq ▸ fewer)).trans (full.filter _)
        | some num =>
          dsimp only
          by_cases isNum : ent.un_num = num
          · have isCleared : cleared semid (some num) ent = true :=
              decide_eq_true ⟨same, fun n isN => isNum.trans (some.inj isN)⟩
            rw [if_pos isNum, isCleared]
            -- no other entry has the same key
            have oths : tl.filter (fun ent => !cleared semid (some num) ent) = tl := by
              refine filter_eq_self.mpr fun oth isIn => ?_
              have apart := (pairwise_cons.mp vec.keys).1 oth isIn
              have notCleared : cleared semid (some num) oth = false :=
                decide_eq_false fun is =>
                  apart ⟨same.trans is.1.symm, isNum.trans (is.2 num rfl).symm⟩
              rw [notCleared]
              rfl
            rw [oths]
            exact fillHole_perm tl
          · have notCleared : cleared semid (some num) ent = false :=
              decide_eq_false fun is => isNum (is.2 num rfl)
            rw [if_neg isNum, notCleared]
            exact (ih vec.tail fewer).cons ent
      · have notCleared : cleared semid semnum ent = false :=
          decide_eq_false fun is => same is.1
        rw [if_neg same, notCleared]
        exact (ih vec.tail fewer).cons ent

theorem Vector.filter (vec : Vector ents) (keep : UndoEntry → Bool) :
    Vector (ents.filter keep) where
  keys := vec.keys.sublist filter_sublist
  values := fun ent isIn => vec.values ent (mem_filter.mp isIn).1
  room := Nat.le_trans (length_filter_le _ _) vec.room

theorem adjOf_filter (vec : Vector ents) (i n : Nat) :
    adjOf (ents.filter fun ent => !cleared semid semnum ent) i n =
      if i = semid ∧ ∀ num, semnum = some num → n = num then 0 else adjOf ents i n := by
  have kept := vec.filter fun ent => !cleared semid semnum ent
  by_cases isCleared : i = semid ∧ ∀ num, semnum = some num → n = num
  · rw [if_pos isCleared]
    refine adjOf_eq_zero fun ent isIn is => ?_
    obtain ⟨rfl, rfl⟩ := is
    have isKept := (mem_filter.mp isIn).2
    have gone : cleared semid semnum ent = true := decide_eq_true isCleared
    rw [gone] at isKept
    cases isKept
  rw [if_neg isCleared]
  by_cases fnd : ∃ ent ∈ ents, ent.Is i n
  · obtain ⟨ent, isIn, rfl, rfl⟩ := fnd
    have stays : cleared semid semnum ent = false := decide_eq_false isCleared
    have isKept : ent ∈ ents.filter fun ent => !cleared semid semnum ent :=
      mem_filter.mpr ⟨isIn, by rw [stays]; rfl⟩
    rw [vec.adjOf_of_mem isIn, kept.adjOf_of_mem isKept]
  · rw [adjOf_eq_zero fun ent isIn is => fnd ⟨ent, isIn, is⟩,
      adjOf_eq_zero fun ent isIn is => fnd ⟨ent, (mem_filter.mp isIn).1, is⟩]

variable {semmnu : Nat} {semu_list : List Undo}

theorem findUndo_clear (p : Nat) : findUndo p (semundoClear semid semnum semu_list) =
    (findUndo p semu_list).map fun ents => clearLoop semid semnum (ents.length + 1) ents := by
  induction semu_list with
  | nil => rfl
  | cons suptr tl ih =>
    rw [semundoClear, map_cons, findUndo, findUndo]
    split
    · rfl
    · exact ih

theorem Undos.clear (undos : Undos semmnu semu_list) (semid : Nat) (semnum : Option Nat) :
    Undos semmnu (semundoClear semid semnum semu_list) where
  procs := by
    rw [semundoClear, List.map_map]
    exact undos.procs
  vectors := by
    intro suptr isIn
    obtain ⟨old, isOld, rfl⟩ := mem_map.mp isIn
    have vec := undos.vectors old isOld
    exact (vec.filter _).perm (clearLoop_perm vec (Nat.lt_succ_self _)).symm
  room := by
    rw [semundoClear, length_map]
    exact undos.room

theorem Undos.owed_clear (undos : Undos semmnu semu_list) (q i n : Nat) :
    owed (semundoClear semid semnum semu_list) q i n =
      if i = semid ∧ ∀ num, semnum = some num → n = num then 0 else owed semu_list q i n := by
  unfold owed
  rw [findUndo_clear]
  cases found : findUndo q semu_list with
  | none =>
    exact (ite_self _).symm
  | some ents =>
    have vec : Vector ents := undos.vectors _ (findUndo_mem found)
    have perm := @clearLoop_perm semid semnum ents vec _ (Nat.lt_succ_self _)
    exact ((vec.filter _).adjOf_perm perm.symm i n).symm.trans (adjOf_filter vec i n)

end Clear

section Removed

variable {semmnu p : Nat} {semu_list : List Undo}

theorem findUndo_removeUndo (procs : (semu_list.map un_proc).Nodup) (q : Nat) :
    findUndo q (removeUndo p semu_list) = if q = p then none else findUndo q semu_list := by
  induction semu_list with
  | nil => exact (ite_self _).symm
  | cons suptr tl ih =>
    obtain ⟨notIn, restProcs⟩ := nodup_cons.mp procs
    rw [removeUndo, findUndo]
    by_cases here : suptr.un_proc = p
    · rw [if_pos here]
      by_cases same : q = p
      · rw [if_pos same, same, ← here]
        exact findUndo_none.mpr notIn
      · rw [if_neg same, if_neg fun isQ => same (isQ.symm.trans here)]
    · rw [if_neg here, findUndo, ih restProcs]
      by_cases same : q = p
      · rw [if_pos same, if_pos same, if_neg fun isQ => here (isQ.trans same)]
      · rw [if_neg same, if_neg same]

theorem removeUndo_sublist (p : Nat) (semu_list : List Undo) :
    (removeUndo p semu_list).Sublist semu_list := by
  induction semu_list with
  | nil => exact .slnil
  | cons suptr tl ih =>
    rw [removeUndo]
    split
    · exact sublist_cons_self suptr tl
    · exact ih.cons_cons suptr

theorem Undos.removeUndo (undos : Undos semmnu semu_list)
    (p : Nat) : Undos semmnu (removeUndo p semu_list) where
  procs := undos.procs.sublist ((removeUndo_sublist p semu_list).map _)
  vectors := fun suptr isIn => undos.vectors suptr ((removeUndo_sublist p semu_list).subset isIn)
  room := Nat.le_trans (removeUndo_sublist p semu_list).length_le undos.room

theorem Undos.owed_removeUndo (undos : Undos semmnu semu_list) (p q i n : Nat) :
    owed (SysvSem.removeUndo p semu_list) q i n = if q = p then 0 else owed semu_list q i n := by
  unfold owed
  rw [findUndo_removeUndo undos.procs]
  split
  · rfl
  · rfl

theorem Undos.reverse {newsemmnu : Nat} (undos : Undos semmnu semu_list)
    (room : semu_list.length ≤ newsemmnu) :
    Undos newsemmnu semu_list.reverse where
  procs := by
    rw [map_reverse]
    exact (reverse_perm _).nodup_iff.mpr undos.procs
  vectors := fun suptr isIn => undos.vectors suptr (mem_reverse.mp isIn)
  room := by
    rw [length_reverse]
    exact room

theorem findUndo_reverse (procs : (semu_list.map un_proc).Nodup)
    (q : Nat) : findUndo q semu_list.reverse = findUndo q semu_list := by
  have procsReverse : (semu_list.reverse.map un_proc).Nodup := by
    rw [map_reverse]
    exact (reverse_perm _).nodup_iff.mpr procs
  cases found : findUndo q semu_list with
  | none =>
    refine findUndo_none.mpr fun isIn => findUndo_none.mp found ?_
    rw [map_reverse] at isIn
    exact mem_reverse.mp isIn
  | some ents =>
    exact findUndo_of_mem procsReverse (mem_reverse.mpr (findUndo_mem found))

end Removed

end NetBSD.Kern.SysvSem
