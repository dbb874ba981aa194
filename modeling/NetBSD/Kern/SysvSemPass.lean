import NetBSD.Kern.SysvSemUndo

/-!
Owns the undo updates of one `sys_semop`: all of them are recorded, or those that were
are taken back in reverse order, which never fails.
-/

namespace NetBSD.Kern.SysvSem

open List Option Sembuf

def sumOn (amount : Sembuf → Int) (num : Nat) : List Sembuf → Int
  | [] => 0
  | sop :: rest => (if sop.sem_num = num then amount sop else 0) + sumOn amount num rest

/-- The negated amount of an operation with `SEM_UNDO`. -/
def undoOf (sop : Sembuf) : Int := if sop.undo then -sop.sem_op else 0

variable {sops : List Sembuf}

section Sums

variable (amount : Sembuf → Int) (num : Nat)

theorem sumOn_append (pre back : List Sembuf) :
    sumOn amount num (pre ++ back) = sumOn amount num pre + sumOn amount num back := by
  induction pre with
  | nil => simp [sumOn]
  | cons sop tl ih =>
    rw [cons_append, sumOn, sumOn, ih, Int.add_assoc]

theorem sumOn_reverse (sops : List Sembuf) :
    sumOn amount num sops.reverse = sumOn amount num sops := by
  induction sops with
  | nil => rfl
  | cons sop tl ih =>
    rw [reverse_cons, sumOn_append, ih, sumOn, sumOn, sumOn, Int.add_zero, Int.add_comm]

theorem sumOn_neg (sops : List Sembuf) :
    sumOn (fun sop => -amount sop) num sops = -sumOn amount num sops := by
  induction sops with
  | nil => rfl
  | cons sop tl ih =>
    rw [sumOn, sumOn]
    split <;> omega

theorem sumOn_absent (miss : ∀ sop ∈ sops, sop.sem_num ≠ num) : sumOn amount num sops = 0 := by
  induction sops with
  | nil => rfl
  | cons sop tl ih =>
    obtain ⟨notFirst, notRest⟩ := forall_mem_cons.mp miss
    rw [sumOn, if_neg notFirst, ih notRest, Int.zero_add]

end Sums

section Record

variable {semmnu p semid : Nat} {sop : Sembuf} {beg semu_list s' : List Undo}

theorem undoOf_eq_zero (skip : sop.undo = false ∨ sop.sem_op = 0) : undoOf sop = 0 := by
  unfold undoOf
  rcases skip with noUndo | zero
  · simp [noUndo]
  · simp [zero]

theorem undoOf_eq (recorded : ¬ (sop.undo = false ∨ sop.sem_op = 0)) :
    undoOf sop = -sop.sem_op := by
  unfold undoOf
  rw [not_or, Bool.not_eq_false] at recorded
  rw [if_pos recorded.1]

theorem short_undo (recorded : ¬ (sop.undo = false ∨ sop.sem_op = 0)) :
    short (-sop.sem_op) ≠ 0 := by
  have bnds := sop.isShort
  unfold short
  omega

theorem recordUndo_owed (undos : Undos semmnu semu_list)
    (ok : recordUndo semmnu p semid sop semu_list = .ok s') :
    Undos semmnu s' ∧ ∀ q i n, owed s' q i n =
      if q = p ∧ i = semid ∧ n = sop.sem_num then short (owed semu_list q i n + undoOf sop)
      else owed semu_list q i n := by
  unfold recordUndo at ok
  split at ok
  · rename_i skip
    obtain rfl := Except.ok.inj ok
    refine ⟨undos, fun q i n => ?_⟩
    have bnds := undos.owed_bounds q i n
    rw [undoOf_eq_zero skip, Int.add_zero, short_eq bnds.1 bnds.2, ite_self]
  · rename_i recorded
    refine ⟨(semundoAdjust_ok undos (short_undo recorded) ok).1, fun q i n => ?_⟩
    rw [undoOf_eq recorded]
    exact semundoAdjust_owed undos (short_undo recorded) ok q i n

/-- Operations that were recorded one after the other, the last one first. -/
inductive Trail (semmnu p semid : Nat) (start : List Undo) : List Sembuf → List Undo → Prop where
  | nil : Trail semmnu p semid start [] start
  | cons {done : List Sembuf} {semu_list after : List Undo} (sop : Sembuf)
      (trail : Trail semmnu p semid start done semu_list)
      (ok : recordUndo semmnu p semid sop semu_list = .ok after) :
      Trail semmnu p semid start (sop :: done) after

variable {done : List Sembuf}

theorem Trail.owed (trail : Trail semmnu p semid beg done semu_list) (undos : Undos semmnu beg) :
    Undos semmnu semu_list ∧ ∀ q i n, owed semu_list q i n =
      if q = p ∧ i = semid then short (owed beg q i n + sumOn undoOf n done)
      else owed beg q i n := by
  induction trail with
  | nil =>
    refine ⟨undos, fun q i n => ?_⟩
    have bnds := undos.owed_bounds q i n
    rw [sumOn, Int.add_zero, short_eq bnds.1 bnds.2, ite_self]
  | cons sop trail ok ih =>
    obtain ⟨undosBefore, isOwed⟩ := ih
    obtain ⟨undosAfter, aft⟩ := recordUndo_owed undosBefore ok
    refine ⟨undosAfter, fun q i n => ?_⟩
    rw [aft, isOwed, sumOn]
    by_cases same : q = p ∧ i = semid
    · rw [if_pos same]
      by_cases isNum : n = sop.sem_num
      · rw [if_pos ⟨same.1, same.2, isNum⟩, if_pos same, short_add]
        congr 1
        omega
      · rw [if_neg fun all => isNum all.2.2, if_pos same, if_neg fun eq => isNum eq.symm,
          Int.zero_add]
    · rw [if_neg same, if_neg fun all => same ⟨all.1, all.2.1⟩, if_neg same]

/-- Backing out takes back one recorded adjustment. -/
theorem Trail.unrecord (trail : Trail semmnu p semid beg done semu_list)
    (undos : Undos semmnu beg) {late : List Undo} (undosLate : Undos semmnu late)
    (same : ∀ q i n, SysvSem.owed late q i n = SysvSem.owed semu_list q i n)
    (here : findUndo p semu_list ≠ none → findUndo p late ≠ none) :
    ∃ early, unrecordLoop semmnu p semid done late = some early ∧ Undos semmnu early ∧
      ∀ q i n, SysvSem.owed early q i n = SysvSem.owed beg q i n := by
  induction trail generalizing late with
  | nil => exact ⟨late, rfl, undosLate, same⟩
  | @cons done prev s' sop trail ok ih =>
    obtain ⟨undosBefore, _⟩ := trail.owed undos
    rw [unrecordLoop]
    by_cases skip : sop.undo = false ∨ sop.sem_op = 0
    · rw [recordUndo, if_pos skip] at ok
      obtain rfl := Except.ok.inj ok
      rw [if_pos skip]
      exact ih undosLate same here
    have nz := short_undo skip
    rw [recordUndo, if_neg skip] at ok
    obtain ⟨undosAfter, isPresent, adjusts, _⟩ := semundoAdjust_ok undosBefore nz ok
    have owed := semundoAdjust_owed undosBefore nz ok
    -- the entries are those recorded, in some order
    have perm := (undosLate.vector p).perm_of_adjOf (undosAfter.vector p) (same p)
    obtain ⟨ents, isEntries, _⟩ := adjusts.back (undosBefore.vector p) nz perm
    rw [Int.neg_neg] at isEntries
    obtain ⟨fnd, hit⟩ := ne_none_iff_exists'.mp (here isPresent)
    have isBack : semundoAdjust semmnu p semid sop.sem_num sop.sem_op late =
        .ok (setUndo p ents late) := by
      rw [hit] at isEntries
      rw [semundoAdjust, hit]
      simp only [getD_some] at isEntries
      simp only [isEntries]
    have notZeroBack : short sop.sem_op ≠ 0 := by
      have := short_neg nz
      rwa [Int.neg_neg] at this
    obtain ⟨undosBack, presentBack, _⟩ := semundoAdjust_ok undosLate notZeroBack isBack
    rw [if_neg skip, isBack]
    refine ih undosBack (fun q i n => ?_) fun _ => presentBack
    have bnds := undosBefore.owed_bounds q i n
    rw [semundoAdjust_owed undosLate notZeroBack isBack, same, owed]
    split
    · rw [short_add, Int.neg_add_cancel_right, short_eq bnds.1 bnds.2]
    · rfl

theorem recordLoop_spec (sops : List Sembuf) (undos : Undos semmnu beg)
    (trail : Trail semmnu p semid beg done semu_list) :
    ∃ s' error, recordLoop semmnu p semid sops done semu_list = some (s', error) ∧
      (error = none → Trail semmnu p semid beg (sops.reverse ++ done) s') ∧
      (error ≠ none → Undos semmnu s' ∧ ∀ q i n, owed s' q i n = owed beg q i n) := by
  induction sops generalizing done semu_list with
  | nil => exact ⟨semu_list, none, rfl, fun _ => trail, fun some_ => absurd rfl some_⟩
  | cons sop tl ih =>
    rw [recordLoop]
    cases isRecorded : recordUndo semmnu p semid sop semu_list with
    | ok next =>
      obtain ⟨s', error, aft, recorded, bad⟩ :=
        ih (trail.cons sop isRecorded)
      refine ⟨s', error, aft, fun hn => ?_, bad⟩
      rw [reverse_cons, append_assoc]
      exact recorded hn
    | error error =>
      obtain ⟨undosList, _⟩ := trail.owed undos
      obtain ⟨early, isEarly, undosEarly, same⟩ :=
        trail.unrecord undos undosList (fun _ _ _ => rfl) id
      refine ⟨early, some error, ?_, fun hn => absurd hn (some_ne_none _),
        fun _ => ⟨undosEarly, same⟩⟩
      simp only [isEarly, map_some]

end Record

/-!
### Values

The values in one try of `sys_semop`: the operations that were done move each
semaphore by their sum in the arithmetic of 16 bits, and taking them back restores it.
As a decrement is checked, a value never wraps below zero, so a sum that fits tells
that no value wrapped on the way.
-/

def Within (most : Int) (sem : Nat → Sem) : Prop := ∀ j, 0 ≤ (sem j).semval ∧ (sem j).semval ≤ most

/-- Every value is an `unsigned short`. -/
def InRange (sem : Nat → Sem) : Prop := Within 65535 sem

/-- Each semaphore of a set is moved by a sum. -/
def shift (amount : Sembuf → Int) (base : Nat) (sops : List Sembuf) (sem : Nat → Sem) :
    Nat → Sem := fun j =>
  if base ≤ j then
    { sem j with semval := ushort ((sem j).semval + sumOn amount (j - base) sops) }
  else sem j

/-- The operations can be done in order on the values. -/
def Goes : (Nat → Int) → List Sembuf → Prop
  | _, [] => True
  | val, sop :: rest =>
    (sop.sem_op < 0 → 0 ≤ val sop.sem_num + sop.sem_op) ∧ (sop.sem_op = 0 → val sop.sem_num = 0) ∧
      Goes (fun n => if n = sop.sem_num then val n + sop.sem_op else val n) rest

def valOf (sem : Nat → Sem) (base : Nat) (n : Nat) : Int := (sem (base + n)).semval

def Waits (sem : Nat → Sem) (base : Nat) (sop : Sembuf) : Prop :=
  (sop.sem_op < 0 ∧ valOf sem base sop.sem_num + sop.sem_op < 0) ∨
    (sop.sem_op = 0 ∧ 0 < valOf sem base sop.sem_num)

section Values

variable {base : Nat} {sem : Nat → Sem}

theorem ushort_eq {x : Int} (low : 0 ≤ x) (high : x ≤ 65535) : ushort x = x := by
  unfold ushort
  omega

theorem ushort_bounds (x : Int) : 0 ≤ ushort x ∧ ushort x ≤ 65535 := by
  unfold ushort
  omega

theorem ushort_add (x y : Int) : ushort (ushort x + y) = ushort (x + y) := by
  unfold ushort
  omega

theorem InRange.ushort_eq (rng : InRange sem) (j : Nat) :
    ushort (sem j).semval = (sem j).semval :=
  SysvSem.ushort_eq (rng j).1 (rng j).2

theorem Within.setVal {most : Int} (bnd : Within most sem) {x : Int} (low : 0 ≤ x)
    (high : x ≤ most) (i : Nat) : Within most (setVal sem i x) := by
  intro j
  unfold SysvSem.setVal
  split
  · exact ⟨low, high⟩
  · exact bnd j

theorem InRange.addVal (rng : InRange sem) (i : Nat) (x : Int) : InRange (addVal sem i x) :=
  Within.setVal rng (ushort_bounds _).1 (ushort_bounds _).2 i

theorem valOf_addVal (x : Int) (num n : Nat) : valOf (addVal sem (base + num) x) base n =
      if n = num then ushort (valOf sem base n + x) else valOf sem base n := by
  unfold valOf addVal setVal
  by_cases same : n = num
  · rw [if_pos same, if_pos (by omega), same]
  · rw [if_neg same, if_neg (by omega)]

variable (amount : Sembuf → Int)

theorem shift_nil (rng : InRange sem) : shift amount base [] sem = sem := by
  funext j
  unfold shift
  rw [sumOn, Int.add_zero, rng.ushort_eq, ite_self]

theorem shift_cons (sop : Sembuf) (tl : List Sembuf) : shift amount base (sop :: tl) sem =
      shift amount base tl (addVal sem (base + sop.sem_num) (amount sop)) := by
  funext j
  unfold shift addVal setVal
  by_cases lt : base ≤ j
  · rw [if_pos lt, if_pos lt, sumOn]
    by_cases here : j = base + sop.sem_num
    · rw [if_pos here, if_pos (by omega), here]
      simp only [ushort_add, Int.add_assoc]
    · rw [if_neg here, if_neg (by omega), Int.zero_add]
  · rw [if_neg lt, if_neg lt, if_neg (by omega)]

theorem shift_inRange (rng : InRange sem) (sops : List Sembuf) :
    InRange (shift amount base sops sem) := by
  intro j
  unfold shift
  split
  · exact ushort_bounds _
  · exact rng j

theorem rollback_eq (sops : List Sembuf) (rng : InRange sem) :
    rollback base sops sem = shift (fun sop => -sop.sem_op) base sops sem := by
  induction sops generalizing sem with
  | nil => exact (shift_nil _ rng).symm
  | cons sop tl ih =>
    rw [rollback, ih (rng.addVal _ _), shift_cons]

theorem rollback_shift (rng : InRange sem) {back : List Sembuf}
    (same : ∀ n, sumOn sem_op n back = sumOn sem_op n sops) :
    rollback base back (shift sem_op base sops sem) = sem := by
  rw [rollback_eq back (shift_inRange _ rng sops)]
  funext j
  unfold shift
  by_cases lt : base ≤ j
  · simp only [if_pos lt]
    rw [ushort_add, sumOn_neg, same, Int.add_neg_cancel_right, rng.ushort_eq]
  · rw [if_neg lt, if_neg lt]

theorem counts_setPids (sem : Nat → Sem) (base pid : Nat) (sops : List Sembuf) (j : Nat) :
    (setPids base pid sops sem j).semncnt = (sem j).semncnt ∧
      (setPids base pid sops sem j).semzcnt = (sem j).semzcnt := by
  induction sops generalizing sem with
  | nil => exact ⟨rfl, rfl⟩
  | cons sop tl ih =>
    obtain ⟨sameNcnt, sameZcnt⟩ := ih
      fun j => if j = base + sop.sem_num then { sem j with sempid := pid } else sem j
    rw [setPids, sameNcnt, sameZcnt]
    split <;> exact ⟨rfl, rfl⟩

theorem counts_shift (base : Nat) (sops : List Sembuf) (j : Nat) :
    (shift amount base sops sem j).semncnt = (sem j).semncnt ∧
      (shift amount base sops sem j).semzcnt = (sem j).semzcnt := by
  unfold shift
  split <;> exact ⟨rfl, rfl⟩

theorem valOf_shift (sops : List Sembuf) (n : Nat) : valOf (shift amount base sops sem) base n =
      ushort (valOf sem base n + sumOn amount n sops) := by
  unfold valOf shift
  rw [if_pos (Nat.le_add_right base n), Nat.add_sub_cancel_left]

end Values

section Loop

variable {base : Nat} {sop : Sembuf} {pass s' : Pass}

/-- An operation that goes through and what it adds. -/
theorem applyOp_some (rng : InRange pass.sem) (hsome : applyOp base sop pass = some s') :
    s'.sem = addVal pass.sem (base + sop.sem_num) sop.sem_op ∧
      (sop.sem_op < 0 → 0 ≤ valOf pass.sem base sop.sem_num + sop.sem_op) ∧
      (sop.sem_op = 0 → valOf pass.sem base sop.sem_num = 0) ∧
      (s'.do_undos = false → pass.do_undos = false ∧ undoOf sop = 0) := by
  unfold valOf
  unfold applyOp at hsome
  dsimp only at hsome
  split at hsome
  · rename_i neg
    split at hsome
    · cases hsome
    · rename_i fits
      obtain rfl := some.inj hsome
      refine ⟨rfl, fun _ => by omega, fun zero => by omega, fun noUndo => ?_⟩
      obtain ⟨noBefore, noOwn⟩ := Bool.or_eq_false_iff.mp noUndo
      exact ⟨noBefore, undoOf_eq_zero (.inl noOwn)⟩
  split at hsome
  · rename_i zero
    split at hsome
    · cases hsome
    obtain rfl := some.inj hsome
    have bnds := rng (base + sop.sem_num)
    refine ⟨?_, fun neg => by omega, fun _ => by omega,
      fun noUndo => ⟨noUndo, undoOf_eq_zero (.inr zero)⟩⟩
    funext j
    unfold addVal setVal
    rw [zero, Int.add_zero, rng.ushort_eq]
    split
    · rename_i here
      rw [here]
    · rfl
  · rename_i nn nz
    obtain rfl := some.inj hsome
    refine ⟨rfl, fun neg => absurd neg nn, fun zero => absurd zero nz,
      fun noUndo => ?_⟩
    obtain ⟨noBefore, noOwn⟩ := Bool.or_eq_false_iff.mp noUndo
    exact ⟨noBefore, undoOf_eq_zero (.inl noOwn)⟩

theorem applyOp_none (hn : applyOp base sop pass = none) : Waits pass.sem base sop := by
  unfold applyOp at hn
  dsimp only at hn
  split at hn
  · rename_i neg
    split at hn
    · rename_i less
      exact .inl ⟨neg, less⟩
    · cases hn
  split at hn
  · rename_i zero
    split at hn
    · rename_i pos
      exact .inr ⟨zero, pos⟩
    · cases hn
  · cases hn

variable (base) in
theorem applyLoop_spec (sops : List Sembuf) (rng : InRange pass.sem) :
    (applyLoop base sops pass).1 ≤ sops.length ∧ (applyLoop base sops pass).2.sem =
        shift sem_op base (sops.take (applyLoop base sops pass).1) pass.sem ∧
      ∀ sop tl, sops.drop (applyLoop base sops pass).1 = sop :: tl →
        Waits (applyLoop base sops pass).2.sem base sop := by
  induction sops generalizing pass with
  | nil => exact ⟨Nat.le_refl _, (shift_nil _ rng).symm, fun sop tl eq => by cases eq⟩
  | cons fst oths ih =>
    rw [applyLoop]
    cases isDone : applyOp base fst pass with
    | none =>
      refine ⟨Nat.zero_le _, (shift_nil _ rng).symm, fun sop tl eq => ?_⟩
      obtain ⟨rfl, _⟩ := cons.inj eq
      exact applyOp_none isDone
    | some next =>
      obtain ⟨next', _⟩ := applyOp_some rng isDone
      have inRangeNext : InRange next.sem := by
        rw [next']
        exact rng.addVal _ _
      obtain ⟨few, isSum, waits⟩ := ih inRangeNext
      refine ⟨Nat.succ_le_succ few, ?_, waits⟩
      rw [isSum, next']
      exact (shift_cons _ fst _).symm

def Full (base : Nat) (sops : List Sembuf) (pass : Pass) : Prop :=
  (applyLoop base sops pass).1 = sops.length

variable (base) in
theorem full_take (sops : List Sembuf) (pass : Pass) :
    Full base (sops.take (applyLoop base sops pass).1) pass := by
  induction sops generalizing pass with
  | nil => rfl
  | cons fst tl ih =>
    unfold Full at ih ⊢
    rw [applyLoop]
    cases isDone : applyOp base fst pass with
    | none => rfl
    | some next =>
      rw [take_succ_cons, applyLoop, isDone]
      dsimp only
      rw [ih, length_cons]

instance (sops : List Sembuf) : Decidable (Full base sops pass) :=
  inferInstanceAs (Decidable (_ = _))

theorem Full.cons {tl : List Sembuf} (full : Full base (sop :: tl) pass) :
    ∃ next, applyOp base sop pass = some next ∧ Full base tl next ∧
      (applyLoop base (sop :: tl) pass).2 = (applyLoop base tl next).2 := by
  unfold Full at full ⊢
  rw [applyLoop] at full ⊢
  cases isDone : applyOp base sop pass with
  | none =>
    rw [isDone] at full
    cases full
  | some next =>
    rw [isDone] at full
    exact ⟨next, rfl, Nat.succ.inj full, rfl⟩

theorem Full.undos (full : Full base sops pass) (rng : InRange pass.sem)
    (noUndo : (applyLoop base sops pass).2.do_undos = false) :
    pass.do_undos = false ∧ ∀ sop ∈ sops, undoOf sop = 0 := by
  induction sops generalizing pass with
  | nil => exact ⟨noUndo, fun sop isIn => by cases isIn⟩
  | cons fst tl ih =>
    obtain ⟨next, don, fullRest, same⟩ := full.cons
    obtain ⟨next', _, _, noUndos⟩ := applyOp_some rng don
    rw [same] at noUndo
    have inRangeNext : InRange next.sem := by
      rw [next']
      exact rng.addVal _ _
    obtain ⟨noNext, noRest⟩ := ih fullRest inRangeNext noUndo
    obtain ⟨noBefore, noOwn⟩ := noUndos noNext
    exact ⟨noBefore, forall_mem_cons.mpr ⟨noOwn, noRest⟩⟩

theorem Full.lost (full : Full base sops pass) (rng : InRange pass.sem) (n : Nat) :
    ∃ wraps : Nat, valOf (applyLoop base sops pass).2.sem base n =
      valOf pass.sem base n + sumOn sem_op n sops - 65536 * wraps := by
  induction sops generalizing pass with
  | nil =>
    refine ⟨0, ?_⟩
    rw [sumOn]
    show valOf pass.sem base n = _
    omega
  | cons fst tl ih =>
    obtain ⟨next, don, fullRest, same⟩ := full.cons
    obtain ⟨next', nn, _⟩ := applyOp_some rng don
    have inRangeNext : InRange next.sem := by
      rw [next']
      exact rng.addVal _ _
    obtain ⟨wraps, isLost⟩ := ih fullRest inRangeNext
    have bnds := rng (base + n)
    have sml := fst.isShort
    rw [same, isLost, next', valOf_addVal, sumOn]
    by_cases here : n = fst.sem_num
    · rw [if_pos here.symm]
      subst here
      unfold valOf at nn ⊢
      by_cases wrapped : (pass.sem (base + fst.sem_num)).semval + fst.sem_op ≤ 65535
      · refine ⟨wraps, ?_⟩
        rw [ushort_eq (by omega) wrapped]
        omega
      · refine ⟨wraps + 1, ?_⟩
        unfold ushort
        omega
    · refine ⟨wraps, ?_⟩
      omega

variable (base) in
theorem inRange_applyLoop (sops : List Sembuf) (rng : InRange pass.sem) :
    InRange (applyLoop base sops pass).2.sem := by
  obtain ⟨_, isSum, _⟩ := applyLoop_spec base sops rng
  rw [isSum]
  exact shift_inRange _ rng _

def SumsFit (base : Nat) (sops : List Sembuf) (sem : Nat → Sem) : Prop :=
  ∀ n, valOf sem base n + sumOn Sembuf.sem_op n sops ≤ 65535

/-- When the sums fit, the first operation does not wrap, and the sums behind it fit. -/
theorem SumsFit.cons {tl : List Sembuf} (fits : SumsFit base (sop :: tl) pass.sem)
    (rng : InRange pass.sem) (don : applyOp base sop pass = some s')
    (full : Full base tl s') : (valOf s'.sem base = fun n => if n = sop.sem_num
      then valOf pass.sem base n + sop.sem_op else valOf pass.sem base n) ∧
      SumsFit base tl s'.sem := by
  obtain ⟨next', nn, _⟩ := applyOp_some rng don
  have inRangeNext : InRange s'.sem := by
    rw [next']
    exact rng.addVal _ _
  -- a wrap here would take the sum beyond the range
  have isVal : valOf s'.sem base = fun n => if n = sop.sem_num
      then valOf pass.sem base n + sop.sem_op else valOf pass.sem base n := by
    funext n
    have fitsHere := fits n
    obtain ⟨wraps, isLost⟩ := full.lost inRangeNext n
    have final := (inRange_applyLoop base tl inRangeNext (base + n)).1
    have bnds := rng (base + n)
    rw [next', valOf_addVal] at isLost ⊢
    rw [sumOn] at fitsHere
    by_cases here : n = sop.sem_num
    · rw [if_pos here.symm] at fitsHere
      subst here
      unfold valOf at *
      unfold ushort at *
      omega
    · rw [if_neg here, if_neg here]
  refine ⟨isVal, fun n => ?_⟩
  have fitsHere := fits n
  rw [sumOn] at fitsHere
  simp only [isVal]
  by_cases here : n = sop.sem_num
  · rw [if_pos here.symm] at fitsHere
    omega
  · rw [if_neg fun eq => here eq.symm] at fitsHere
    omega

theorem Full.goes (full : Full base sops pass) (rng : InRange pass.sem)
    (fits : SumsFit base sops pass.sem) :
    Goes (valOf pass.sem base) sops ∧ ∀ n, valOf (applyLoop base sops pass).2.sem base n =
      valOf pass.sem base n + sumOn sem_op n sops := by
  refine ⟨?_, fun n => ?_⟩
  · induction sops generalizing pass with
    | nil => trivial
    | cons fst tl ih =>
      obtain ⟨next, don, fullRest, _⟩ := full.cons
      obtain ⟨next', nn, zero, _⟩ := applyOp_some rng don
      obtain ⟨isVal, fitsRest⟩ := fits.cons rng don fullRest
      have inRangeNext : InRange next.sem := by
        rw [next']
        exact rng.addVal _ _
      refine ⟨nn, zero, ?_⟩
      rw [← isVal]
      exact ih fullRest inRangeNext fitsRest
  · obtain ⟨wraps, isLost⟩ := full.lost rng n
    have final := (inRange_applyLoop base sops rng (base + n)).1
    have fitsHere := fits n
    unfold valOf at *
    omega

end Loop

/-!
### One try

One try of `sys_semop` as a whole: it does all of its operations, or leaves the
values and the debts as they were.
-/

/-- The invariant of the values and the undo structures. -/
structure Right (state : State) : Prop where
  values : InRange state.sem
  undos : Undos state.semmnu state.semu_list

def State.pass (state : State) (do_undos : Bool) : Pass := ⟨state.sem, false, do_undos⟩

def State.base (state : State) (semid : Nat) : Nat := (state.sema semid)._sem_base

/-- Every operation can be done in turn, and there is room for the undos. -/
def Through (before : State) (p semid : Nat) (sops : List Sembuf) (do_undos : Bool) : Prop :=
  Full (before.base semid) sops (before.pass do_undos) ∧
    ∃ after, recordLoop before.semmnu p semid sops [] before.semu_list = some (after, none)

/-- What a try does. -/
inductive Tried (state : State) (p semid : Nat) (sops : List Sembuf) (do_undos : Bool) :
    Outcome → Prop where
  | done {semu_list : List Undo}
      (through : Through state p semid sops do_undos)
      (undos : Undos state.semmnu semu_list)
      (isOwed : ∀ q i n, owed semu_list q i n =
        if q = p ∧ i = semid then short (owed state.semu_list q i n + sumOn undoOf n sops)
        else owed state.semu_list q i n) :
      Tried state p semid sops do_undos (.done { state with
        sem := setPids (state.base semid) p sops
          (applyLoop (state.base semid) sops (state.pass do_undos)).2.sem
        semu_list := semu_list }
        (applyLoop (state.base semid) sops (state.pass do_undos)).2.do_wakeup)
  | failed (error : Errno) {semu_list : List Undo} (undos : Undos state.semmnu semu_list)
      (same : ∀ q i n, owed semu_list q i n = owed state.semu_list q i n)
      (stopped : ¬ Through state p semid sops do_undos) :
      Tried state p semid sops do_undos (.failed error { state with semu_list := semu_list })
  | sleeps (front : List Sembuf) (sop : Sembuf) (back : List Sembuf) (undoing : Bool)
      (split : sops = front ++ sop :: back)
      (done : Full (state.base semid) front (state.pass do_undos))
      (maySleep : sop.nowait = false)
      (waits : Waits (shift Sembuf.sem_op (state.base semid) front state.sem)
        (state.base semid) sop)
      (stopped : ¬ Through state p semid sops do_undos) :
      Tried state p semid sops do_undos (.sleeps { state with
        sem := countWaiter state.sem (state.base semid + sop.sem_num) sop 1 } sop undoing)

section Try

variable {st : State} {p semid : Nat} {sops : List Sembuf} {do_undos : Bool}

theorem Full.sem_eq (full : Full (st.base semid) sops (st.pass do_undos))
    (rng : InRange st.sem) :
    (applyLoop (st.base semid) sops (st.pass do_undos)).2.sem =
      shift sem_op (st.base semid) sops st.sem := by
  obtain ⟨_, isSum, _⟩ := applyLoop_spec (st.base semid) sops
    (show InRange (st.pass do_undos).sem from rng)
  rw [isSum, show (applyLoop (st.base semid) sops (st.pass do_undos)).1 = sops.length
    from full, take_length]
  rfl

theorem recordLoop_skip (semmnu : Nat) (done : List Sembuf) (semu_list : List Undo)
    (noUndo : ∀ sop ∈ sops, undoOf sop = 0) :
    recordLoop semmnu p semid sops done semu_list = some (semu_list, none) := by
  induction sops generalizing done with
  | nil => rfl
  | cons sop tl ih =>
    obtain ⟨noFirst, noRest⟩ := forall_mem_cons.mp noUndo
    have skip : sop.undo = false ∨ sop.sem_op = 0 := by
      by_contra recorded
      rw [undoOf_eq recorded] at noFirst
      omega
    rw [recordLoop, recordUndo, if_pos skip]
    exact ih (sop :: done) noRest

theorem sumOn_undo_eq_zero (noUndo : ∀ sop ∈ sops, undoOf sop = 0) (n : Nat) :
    sumOn undoOf n sops = 0 := by
  induction sops with
  | nil => rfl
  | cons sop tl ih =>
    obtain ⟨noFirst, noRest⟩ := forall_mem_cons.mp noUndo
    rw [sumOn, noFirst, ih noRest, ite_self, Int.add_zero]

/-- One try ends applied, blocked or refused with nothing changed. -/
theorem semopTry_spec (right : Right st) (p semid : Nat) (sops : List Sembuf) (do_undos : Bool) :
    ∃ out, semopTry st p semid sops do_undos = some out ∧
      Tried st p semid sops do_undos out := by
  have rng : InRange (st.pass do_undos).sem := right.values
  have spec := applyLoop_spec (st.base semid) sops rng
  have noUndos := fun full : Full (st.base semid) sops (st.pass do_undos) => full.undos rng
  have don := @Tried.done st p semid sops do_undos
  have isAsleep := @Tried.sleeps st p semid sops do_undos
  have fail := @Tried.failed st p semid sops do_undos
  unfold Through Full at don isAsleep fail
  unfold Full at noUndos
  cases isLoop : applyLoop (st.base semid) sops (st.pass do_undos) with
  | mk i pass =>
    rw [isLoop] at spec noUndos don isAsleep fail
    obtain ⟨few, isSum, waits⟩ := spec
    have isLoop' : applyLoop (st.sema semid)._sem_base sops ⟨st.sem, false, do_undos⟩ =
      (i, pass) := isLoop
    unfold semopTry
    simp only [isLoop']
    cases isRest : sops.drop i with
    | cons sop back =>
      have split : sops = sops.take i ++ sop :: back := by
        rw [← isRest, take_append_drop]
      have taken := full_take (st.base semid) sops (st.pass do_undos)
      rw [isLoop] at taken
      have notFull : i ≠ sops.length := by
        rintro rfl
        rw [drop_length] at isRest
        cases isRest
      have restored : rollback (st.sema semid)._sem_base (sops.take i).reverse pass.sem =
          st.sem := by
        rw [isSum]
        exact rollback_shift right.values fun n => sumOn_reverse _ n _
      simp only [restored]
      by_cases nowait : sop.nowait = true
      · rw [if_pos nowait]
        exact ⟨_, rfl, fail .eagain right.undos (fun _ _ _ => rfl) fun both =>
          notFull both.1⟩
      · rw [if_neg nowait]
        have isWaiting := waits sop back isRest
        rw [isSum] at isWaiting
        refine ⟨_, rfl, isAsleep _ sop back pass.do_undos split taken
          (Bool.of_not_eq_true nowait) isWaiting fun both => notFull both.1⟩
    | nil =>
      have full : i = sops.length := by
        have := drop_eq_nil_iff.mp isRest
        omega
      have taken : sops.take i = sops := take_of_length_le (by omega)
      rw [taken] at isSum
      by_cases undoing : pass.do_undos = true
      · obtain ⟨s', error, aft, recorded, bad⟩ :=
          recordLoop_spec sops right.undos (@Trail.nil st.semmnu p semid st.semu_list)
        rw [if_pos undoing, aft]
        cases error with
        | none =>
          obtain ⟨undos, owed⟩ := (recorded rfl).owed right.undos
          refine ⟨_, rfl, don ⟨full, s', aft⟩ undos fun q i n => ?_⟩
          rw [owed, append_nil, sumOn_reverse]
        | some error =>
          obtain ⟨undos, same⟩ := bad (some_ne_none _)
          have restored : rollback (st.sema semid)._sem_base sops pass.sem = st.sem := by
            rw [isSum]
            exact rollback_shift right.values fun n => rfl
          rw [restored]
          refine ⟨_, rfl, fail error undos same fun both => ?_⟩
          obtain ⟨other, oth⟩ := both.2
          rw [aft] at oth
          cases oth
      · rw [if_neg undoing]
        obtain ⟨_, noUndo⟩ := noUndos full (Bool.of_not_eq_true undoing)
        refine ⟨_, rfl, don ⟨full, _, recordLoop_skip st.semmnu [] st.semu_list noUndo⟩
          right.undos fun q i n => ?_⟩
        have bnds := right.undos.owed_bounds q i n
        rw [sumOn_undo_eq_zero noUndo, Int.add_zero, short_eq bnds.1 bnds.2, ite_self]

end Try

end NetBSD.Kern.SysvSem
