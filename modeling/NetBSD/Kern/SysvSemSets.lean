import NetBSD.Kern.SysvSemLayout

/-!
Owns the sets over whole runs: in every state they are packed and every undo entry is of
a semaphore that exists, no section fails an assertion, and a section on one set leaves
the semaphores of the others.
-/

namespace NetBSD.Kern.SysvSem

open NetBSD.Machine List Option

/-- The ranges of the sets are apart and cover the array, and the undo entries are of semaphores
that exist. -/
structure Laid (state : State) : Prop where
  apart : ∀ i j, (state.sema i).alloc = true → (state.sema j).alloc = true → i ≠ j →
    ∀ k, ¬ (((state.sema i)._sem_base ≤ k ∧ k < (state.sema i)._sem_base + (state.sema i).sem_nsems) ∧
      (state.sema j)._sem_base ≤ k ∧ k < (state.sema j)._sem_base + (state.sema j).sem_nsems)
  cover : ∀ k, k < state.semtot ↔ ∃ i, (state.sema i).alloc = true ∧
    (state.sema i)._sem_base ≤ k ∧ k < (state.sema i)._sem_base + (state.sema i).sem_nsems
  entries : ∀ suptr ∈ state.semu_list, ∀ ent ∈ suptr.un_ent,
    (state.sema ent.un_id).alloc = true ∧ ent.un_num < (state.sema ent.un_id).sem_nsems

/-- The sets that a section works on. -/
def Targets (state : State) : Event → Nat → Prop
  | .get _, _ => False
  | .rmid semid _, i => i = ipcidToIx semid
  | .setval semid _ _ _, i => i = ipcidToIx semid
  | .setall semid _ _, i => i = ipcidToIx semid
  | .realloc .., _ => False
  | .exit p, i => ∃ n, owed state.semu_list p i n ≠ 0
  | .semop part, i => i = part.semid

/-- A process that slept and finds the sequence number of its set finds the set that its vector was
checked against, and not one that was made `2 ^ 15` sets later in the slot. -/
def Fresh (state : State) : Event → Prop
  | .semop (.resume sleep _) => (state.sema sleep.semid).alloc = true →
      (state.sema sleep.semid).seq = sleep.seq →
      ∀ sop ∈ sleep.sop :: sleep.sops, sop.sem_num < (state.sema sleep.semid).sem_nsems
  | _ => True

/-- The invariant. -/
structure Layout (state : State) : Prop where
  right : Right state
  packed : Packed state.sema state.semmni state.semtot
  total : sizes state.sema state.semmni = state.semtot
  debts : ∀ q i n, owed state.semu_list q i n ≠ 0 →
    (state.sema i).alloc = true ∧ n < (state.sema i).sem_nsems

variable {ents : List UndoEntry} {semid i : Nat}

section Outside

variable {base : Nat} {sem : Nat → Sem} {j : Nat}

theorem setVal_outside (oth : j ≠ i) (x : Int) : setVal sem i x j = sem j :=
  if_neg oth

theorem setallLoop_outside {array : List (Option Nat)}
    (out : ∀ n, n < i + array.length → j ≠ base + n) :
    (setallLoop base i array sem).1 j = sem j := by
  induction array generalizing i sem with
  | nil => rfl
  | cons fst tl ih =>
    cases fst with
    | none => rfl
    | some semval =>
      rw [setallLoop]
      split
      · rfl
      · rw [length_cons] at out
        rw [ih fun n less => out n (by omega)]
        exact setVal_outside (out i (by omega)) _

theorem exitLoop_outside {sema : Nat → Semid} {s' : Nat → Sem}
    (out : ∀ ent ∈ ents, j ≠ (sema ent.un_id)._sem_base + ent.un_num)
    (exits : exitLoop sema ents sem = some s') : s' j = sem j := by
  induction ents generalizing sem with
  | nil =>
    obtain rfl := some.inj exits
    rfl
  | cons ent tl ih =>
    obtain ⟨notHere, notRest⟩ := forall_mem_cons.mp out
    rw [exitLoop] at exits
    split at exits
    · cases exits
    · rw [ih notRest exits]
      split
      · exact setVal_outside notHere _
      · exact setVal_outside notHere _

variable {sops : List Sembuf}

theorem setPids_outside {pid : Nat} (out : ∀ sop ∈ sops, j ≠ base + sop.sem_num) :
    setPids base pid sops sem j = sem j := by
  induction sops generalizing sem with
  | nil => rfl
  | cons sop tl ih =>
    obtain ⟨notHere, notRest⟩ := forall_mem_cons.mp out
    rw [setPids, ih notRest]
    exact if_neg notHere

theorem shift_outside (rng : InRange sem) (amount : Sembuf → Int)
    (out : ∀ sop ∈ sops, j ≠ base + sop.sem_num) : shift amount base sops sem j = sem j := by
  unfold shift
  split
  · rename_i lt
    rw [sumOn_absent amount _ fun sop isIn eq => out sop isIn (by omega), Int.add_zero,
      rng.ushort_eq]
  · rfl

theorem countWaiter_outside {sop : Sembuf} (out : j ≠ base + sop.sem_num) (chg : Int) :
    countWaiter sem (base + sop.sem_num) sop chg j = sem j :=
  if_neg out

theorem Tried.outside {st : State} (right : Right st) {p : Nat} {do_undos : Bool}
    {outcome : Outcome} (tried : Tried st p semid sops do_undos outcome)
    (out : ∀ sop ∈ sops, j ≠ st.base semid + sop.sem_num) :
    outcome.after.sema = st.sema ∧ outcome.after.semmni = st.semmni ∧
      outcome.after.semtot = st.semtot ∧ outcome.after.sem j = st.sem j := by
  cases tried with
  | done thru undos owed =>
    refine ⟨rfl, rfl, rfl, ?_⟩
    show setPids _ _ _ _ j = _
    rw [setPids_outside out, thru.1.sem_eq right.values]
    exact shift_outside right.values _ out
  | failed error undos same stop => exact ⟨rfl, rfl, rfl, rfl⟩
  | sleeps pre sop back undoing split done maySleep waits stop =>
    have isIn : sop ∈ sops := by
      rw [split]
      exact mem_append_right pre mem_cons_self
    exact ⟨rfl, rfl, rfl, countWaiter_outside (out sop isIn) 1⟩

theorem Tried.owed {st : State} {p : Nat} {do_undos : Bool} {out : Outcome}
    (tried : Tried st p semid sops do_undos out) {q n : Nat}
    (owed : SysvSem.owed out.after.semu_list q i n ≠ 0) :
    SysvSem.owed st.semu_list q i n ≠ 0 ∨ (i = semid ∧ ∃ sop ∈ sops, sop.sem_num = n) := by
  cases tried with
  | done thru undos s' =>
    have v := s' q i n
    by_cases wasOwed : SysvSem.owed st.semu_list q i n = 0
    · by_cases same : q = p ∧ i = semid
      · rw [if_pos same, wasOwed] at v
        refine .inr ⟨same.2, ?_⟩
        by_contra miss
        rw [sumOn_absent undoOf n fun sop isIn eq => miss ⟨sop, isIn, eq⟩] at v
        exact owed v
      · rw [if_neg same] at v
        exact absurd (v.trans wasOwed) owed
    · exact .inl wasOwed
  | failed error undos same stop =>
    exact .inl fun zero => owed ((same q i n).trans zero)
  | sleeps pre sop back undoing split done maySleep waits stop => exact .inl owed

end Outside

section Keep

variable {st : State}

theorem Layout.laid (lay : Layout st) : Laid st where
  apart := by
    intro i j usedI usedJ oth k both
    have apart := lay.packed.apart i j usedI usedJ oth
    omega
  cover := by
    intro k
    constructor
    · exact lay.packed.cover k
    · intro fnd
      obtain ⟨i, used, low, high⟩ := fnd
      have lt := lay.packed.inside i used
      omega
  entries := by
    intro suptr isIn ent isEnt
    refine lay.debts suptr.un_proc ent.un_id ent.un_num ?_
    have vec := lay.right.undos.vectors suptr isIn
    unfold owed
    rw [findUndo_of_mem lay.right.undos.procs isIn, getD_some, vec.adjOf_of_mem isEnt]
    exact (vec.values ent isEnt).1

theorem Layout.keeps (lay : Layout st) {sema : Nat → Semid} {sem : Nat → Sem}
    (same : sema = st.sema) (tgt : Nat → Prop)
    (isAt : ∀ t, tgt t → (st.sema t).alloc = true)
    (out : ∀ j, (∀ t n, tgt t → n < (st.sema t).sem_nsems → j ≠ st.base t + n) →
      sem j = st.sem j) (used : (st.sema i).alloc = true) (oth : ¬ tgt i) :
    Keeps st.sema st.sem sema sem i := by
  subst same
  refine ⟨used, rfl, rfl, rfl, fun n less => out _ fun t m isTarget inside => ?_⟩
  have notSame : i ≠ t := fun eq => oth (eq ▸ isTarget)
  have apart := lay.packed.apart i t used (isAt t isTarget) notSame
  unfold State.base
  omega

theorem semctlCheck_none {semid : Int} (chk : semctlCheck st semid = none) :
    (st.sema (ipcidToIx semid)).alloc = true := by
  unfold semctlCheck at chk
  dsimp only at chk
  split at chk
  · cases chk
  · split at chk
    · cases chk
    · rename_i isAt
      rw [not_or, Bool.not_eq_false] at isAt
      exact isAt.1

theorem semopCheck_none {rq : Request} (chk : semopCheck st rq = none) :
    (st.sema (ipcidToIx rq.semid)).alloc = true ∧
      (st.sema (ipcidToIx rq.semid)).seq = ipcidToSeq rq.semid ∧
      ∀ sop ∈ rq.sops, sop.sem_num < (st.sema (ipcidToIx rq.semid)).sem_nsems := by
  unfold semopCheck at chk
  dsimp only at chk
  split at chk
  · cases chk
  split at chk
  · rename_i bad
    exact absurd chk bad
  split at chk
  · cases chk
  split at chk
  · cases chk
  rename_i isAt
  split at chk
  · rename_i bad
    exact absurd chk bad
  split at chk
  · cases chk
  · rename_i lt
    rw [not_or, Bool.not_eq_false, not_ne_iff] at isAt
    refine ⟨isAt.1, isAt.2, fun sop isIn => ?_⟩
    by_contra far
    exact lt (any_eq_true.mpr ⟨sop, isIn, decide_eq_true (by omega)⟩)

theorem Section.Enters.inside {part : Section} (enters : part.Enters st)
    (fresh : Fresh st (.semop part)) : (st.sema part.semid).alloc = true ∧
      ∀ sop ∈ part.sops, sop.sem_num < (st.sema part.semid).sem_nsems := by
  cases part with
  | start rq =>
    obtain ⟨isAt, _, lt⟩ := semopCheck_none enters
    exact ⟨isAt, lt⟩
  | resume sleep intr =>
    exact ⟨enters.1.1, fun sop isIn =>
      fresh enters.1.1 enters.1.2 sop (mem_cons_of_mem _ isIn)⟩

variable (st) in
theorem Section.before_same (part : Section) : (part.before st).sema = st.sema ∧
    (part.before st).semmni = st.semmni ∧ (part.before st).semtot = st.semtot ∧
    (part.before st).semu_list = st.semu_list := by
  cases part with
  | start | resume => exact ⟨rfl, rfl, rfl, rfl⟩

theorem Layout.of_same (lay : Layout st) {s' : State} (right : Right s')
    (sameSema : s'.sema = st.sema) (sameMax : s'.semmni = st.semmni)
    (sameTotal : s'.semtot = st.semtot)
    (debts : ∀ q i n, owed s'.semu_list q i n ≠ 0 → owed st.semu_list q i n ≠ 0 ∨
      ((st.sema i).alloc = true ∧ n < (st.sema i).sem_nsems)) : Layout s' where
  right := right
  packed := by
    rw [sameSema, sameMax, sameTotal]
    exact lay.packed
  total := by
    rw [sameSema, sameMax, sameTotal]
    exact lay.total
  debts := by
    intro q i n isOwed
    rw [sameSema]
    rcases debts q i n isOwed with prev | isAt
    · exact lay.debts q i n prev
    · exact isAt

theorem owed_clear_of {semnum : Option Nat} (right : Right st) {q n : Nat}
    (isOwed : owed (semundoClear semid semnum st.semu_list) q i n ≠ 0) :
    owed st.semu_list q i n ≠ 0 ∧ ¬ (i = semid ∧ ∀ num, semnum = some num → n = num) := by
  rw [right.undos.owed_clear] at isOwed
  by_cases isCleared : i = semid ∧ ∀ num, semnum = some num → n = num
  · rw [if_pos isCleared] at isOwed
    exact absurd rfl isOwed
  · rw [if_neg isCleared] at isOwed
    exact ⟨isOwed, isCleared⟩

theorem Layout.addSet (lay : Layout st) (key : Int) {nsems : Nat}
    (less : semid < st.semmni) (free : (st.sema semid).alloc = false)
    (pos : 0 < nsems) : Layout (addSet st semid key nsems) where
  right := ⟨addSet_within lay.right.values (by decide) _ _ _, lay.right.undos⟩
  packed := lay.packed.addSet less free pos
  total := by
    have grown := @sizes_change _ (SysvSem.addSet st semid key nsems).sema _ _ less free
      (congrArg Semid.alloc (if_pos rfl)) fun i oth => by
        have isOld : (SysvSem.addSet st semid key nsems).sema i = st.sema i := if_neg oth
        rw [isOld]
        exact ⟨rfl, fun _ => rfl⟩
    rw [lay.total] at grown
    exact grown.trans (congrArg (st.semtot + ·) (congrArg Semid.sem_nsems (if_pos rfl)))
  debts := by
    intro q i n owed
    obtain ⟨used, less⟩ := lay.debts q i n owed
    have oth : i ≠ semid := by
      rintro rfl
      rw [free] at used
      cases used
    have isOld : (SysvSem.addSet st semid key nsems).sema i = st.sema i := if_neg oth
    rw [isOld]
    exact ⟨used, less⟩

theorem Layout.removeSet (lay : Layout st) {ix : Nat}
    (wasThere : (st.sema ix).alloc = true) : Layout (removeSet st ix) where
  right := ⟨compact_within lay.right.values _ _ _, lay.right.undos.clear _ _⟩
  packed := lay.packed.removeSet wasThere
  total := by
    have isGone : ((SysvSem.removeSet st ix).sema ix).alloc = false := by
      unfold SysvSem.removeSet
      dsimp only
      rw [if_pos rfl]
    have shrunk := sizes_change (lay.packed.slots ix wasThere) isGone wasThere fun i oth => by
      constructor
      · cases used : (st.sema i).alloc with
        | true => exact (alloc_removeSet oth used).symm
        | false =>
          refine (Bool.eq_false_iff.mpr fun aft => ?_).symm
          rw [(sema_removeSet lay.packed aft).2.1] at used
          cases used
      · intro aft
        rw [(sema_removeSet lay.packed aft).2.2]
    rw [lay.total] at shrunk
    show sizes (SysvSem.removeSet st ix).sema st.semmni =
      st.semtot - (st.sema ix).sem_nsems
    omega
  debts := by
    intro q i n owed
    obtain ⟨wasOwed, oth⟩ := owed_clear_of lay.right owed
    obtain ⟨wasUsed, less⟩ := lay.debts q i n wasOwed
    have notGone : i ≠ ix := fun same => oth ⟨same, fun num isNum => by cases isNum⟩
    have used := alloc_removeSet notGone wasUsed
    rw [(sema_removeSet lay.packed used).2.2]
    exact ⟨wasUsed, less⟩

theorem Layout.copied (lay : Layout st) :
    ∃ sema sem, copySets st (lastSet st.sema st.semmni + 1) 0
      (fun _ => ⟨false, 0, 0, 0, 0⟩) (fun _ => ⟨0, 0, 0, 0⟩) 0 = (sema, sem, st.semtot) ∧
      Packed sema (lastSet st.sema st.semmni + 1) st.semtot ∧
      sizes sema (lastSet st.sema st.semmni + 1) = st.semtot ∧
      (∀ k, (sema k).alloc = true → (st.sema k).alloc = true) ∧
      ∀ k, (st.sema k).alloc = true → Keeps st.sema st.sem sema sem k := by
  have copy := (@copied_zero st).copySets lay.packed.positive
    (lastSet st.sema st.semmni + 1)
  rw [Nat.zero_add] at copy
  generalize copySets st (lastSet st.sema st.semmni + 1) 0
    (fun _ => ⟨false, 0, 0, 0, 0⟩) (fun _ => ⟨0, 0, 0, 0⟩) 0 = result at copy ⊢
  obtain ⟨sema, sem, j⟩ := result
  have free : ∀ i, lastSet st.sema st.semmni + 1 ≤ i → (st.sema i).alloc = false := by
    intro i tail
    refine Bool.eq_false_iff.mpr fun used => ?_
    have := le_lastSet (lay.packed.slots i used) used
    omega
  have total : sizes st.sema (lastSet st.sema st.semmni + 1) = st.semtot := by
    rw [← lay.total]
    by_cases none_ : st.semmni = 0
    · rw [none_]
      show 0 + (if (st.sema 0).alloc then _ else 0) = 0
      rw [Bool.eq_false_iff.mpr fun used => absurd (lay.packed.slots 0 used) (by omega)]
      rfl
    · exact (sizes_free (lastSet_lt (Nat.pos_of_ne_zero none_)) fun i low _ => free i low).symm
  obtain rfl : j = st.semtot := copy.total.trans total
  have keeps : ∀ k, (st.sema k).alloc = true → Keeps st.sema st.sem sema sem k := by
    intro k used
    have := le_lastSet (lay.packed.slots k used) used
    exact copy.keeps k (by omega) used
  refine ⟨sema, sem, rfl, copy.packed, ?_, copy.used, keeps⟩
  refine (sizes_congr fun k _ => ⟨?_, fun used => (keeps k used).nsems⟩).trans total
  exact Bool.eq_iff_iff.mpr ⟨copy.used k, fun used => (keeps k used).alloc⟩

theorem Layout.realloc (lay : Layout st) {newsemmni newsemmns newsemmnu : Nat}
    (last : lastSet st.sema st.semmni < newsemmni)
    (rm : st.semu_list.length ≤ newsemmnu) {sema : Nat → Semid} {sem : Nat → Sem}
    (isCopy : copySets st (lastSet st.sema st.semmni + 1) 0
      (fun _ => ⟨false, 0, 0, 0, 0⟩) (fun _ => ⟨0, 0, 0, 0⟩) 0 = (sema, sem, st.semtot)) :
    Layout ⟨newsemmni, newsemmns, newsemmnu, sema, sem, st.semtot,
      st.semu_list.reverse, false⟩ := by
  obtain ⟨_, _, isSame, packed, total, used, keeps⟩ := lay.copied
  obtain ⟨rfl, same⟩ := Prod.mk.inj (isSame.symm.trans isCopy)
  have bnd := copySets_within st lay.right.values (lastSet st.sema st.semmni + 1) 0
    (fun _ => ⟨false, 0, 0, 0, 0⟩) (within_zero (by decide)) 0
  rw [isCopy] at bnd
  refine ⟨⟨bnd, lay.right.undos.reverse rm⟩, ?_, ?_, fun q i n isOwed => ?_⟩
  · exact packed.of_le last
  · refine (sizes_free last fun i low _ => ?_).trans total
    refine Bool.eq_false_iff.mpr fun hu => ?_
    have := packed.slots i hu
    omega
  · have wasOwed : owed st.semu_list q i n ≠ 0 := by
      unfold owed at isOwed ⊢
      rw [findUndo_reverse lay.right.undos.procs] at isOwed
      exact isOwed
    obtain ⟨hu, less⟩ := lay.debts q i n wasOwed
    exact ⟨(keeps i hu).alloc, by rw [(keeps i hu).nsems]; exact less⟩

end Keep

section Step

variable {st s' : State}

theorem exitLoop_some {sema : Nat → Semid} {ents : List UndoEntry} {sem : Nat → Sem}
    (isAt : ∀ ent ∈ ents, (sema ent.un_id).alloc = true) :
    ∃ s', exitLoop sema ents sem = some s' := by
  induction ents generalizing sem with
  | nil => exact ⟨sem, rfl⟩
  | cons ent tl ih =>
    obtain ⟨isHere, rst⟩ := forall_mem_cons.mp isAt
    rw [exitLoop]
    rw [if_neg fun both => by rw [isHere] at both; cases both.1]
    exact ih rst

theorem owed_of_entry (right : Right st) {p : Nat}
    (fnd : findUndo p st.semu_list = some ents) {ent : UndoEntry} (isIn : ent ∈ ents) :
    owed st.semu_list p ent.un_id ent.un_num ≠ 0 := by
  have vec : Vector ents := right.undos.vectors _ (findUndo_mem fnd)
  unfold owed
  rw [fnd, getD_some, vec.adjOf_of_mem isIn]
  exact (vec.values ent isIn).1

theorem entry_of_owed {semu_list : List Undo} {p n : Nat}
    (fnd : findUndo p semu_list = some ents) (isOwed : owed semu_list p i n ≠ 0) :
    ∃ ent ∈ ents, ent.un_id = i := by
  by_contra miss
  refine isOwed ?_
  unfold owed
  rw [fnd]
  exact adjOf_eq_zero fun ent isIn is => miss ⟨ent, isIn, is.1⟩

/-- No event gets stuck on a well-laid-out table. -/
theorem Layout.step_some (lay : Layout st) (event : Event) :
    ∃ s', step st event = some s' := by
  cases event with
  | get | rmid | setval | setall => exact ⟨_, rfl⟩
  | realloc newsemmni newsemmns newsemmnu alloc =>
    obtain ⟨sema, sem, isCopy, _⟩ := lay.copied
    have hsome : ∃ res, semrealloc st newsemmni newsemmns newsemmnu alloc =
        some res := by
      unfold semrealloc
      split
      · exact ⟨_, rfl⟩
      split
      · exact ⟨_, rfl⟩
      split
      · exact ⟨_, rfl⟩
      · dsimp only
        split
        · exact ⟨_, rfl⟩
        · simp only [isCopy, ne_eq]
          exact ⟨_, rfl⟩
    obtain ⟨res, isRes⟩ := hsome
    exact ⟨_, congrArg (Option.map Prod.fst) isRes⟩
  | exit p =>
    cases found : findUndo p st.semu_list with
    | none =>
      refine ⟨st, ?_⟩
      show (semexit st p).map Prod.fst = _
      unfold semexit
      rw [found]
      rfl
    | some ents =>
      obtain ⟨sem, exits⟩ := @exitLoop_some st.sema ents st.sem fun ent isIn =>
        (lay.debts _ _ _ (owed_of_entry lay.right found isIn)).1
      refine ⟨{ st with sem := sem, semu_list := removeUndo p st.semu_list }, ?_⟩
      show (semexit st p).map Prod.fst = _
      unfold semexit
      simp only [found, exits, bind_eq_bind, bind_some, map_some]
  | semop part =>
    rcases part.run_spec lay.right with ⟨_, outcome, out, _⟩ | ⟨_, error, fail, _⟩ |
      ⟨sleep, _, _, fail⟩
    · exact ⟨_, congrArg (Option.map Outcome.after) out⟩
    · exact ⟨_, congrArg (Option.map Outcome.after) fail⟩
    · exact ⟨_, congrArg (Option.map Outcome.after) fail⟩

/-- Every event keeps the layout. -/
theorem Layout.moves (lay : Layout st) {event : Event} (fresh : Fresh st event)
    (moves : Moves st event s') : Layout s' := by
  have right := moves.right lay.right
  cases moves with
  | getStays | rmidFails | setvalFails | setallFails | reallocStays | exitStays | semopStays =>
    exact lay
  | @getMakes get semid pos few rm hfr =>
    obtain ⟨less, free⟩ := findSet_free hfr
    exact lay.addSet get.key less free (by omega)
  | rmid ok chk => exact lay.removeSet (semctlCheck_none chk)
  | setval ok chk lt low high aft =>
    subst aft
    exact lay.of_same right rfl rfl rfl fun q i n owed =>
      .inl (owed_clear_of lay.right owed).1
  | setall ok chk aft =>
    subst aft
    exact lay.of_same right rfl rfl rfl fun q i n owed =>
      .inl (owed_clear_of lay.right owed).1
  | reallocMarks => exact lay.of_same right rfl rfl rfl fun q i n owed => .inl owed
  | realloc last total rm copy => exact lay.realloc (by omega) (by omega) copy
  | @exit p ents sem fnd exits =>
    refine lay.of_same right rfl rfl rfl fun q i n owed => .inl ?_
    rw [lay.right.undos.owed_removeUndo] at owed
    split at owed
    · exact absurd rfl owed
    · exact owed
  | semopEnds isAt out =>
    exact lay.of_same right rfl rfl rfl fun q i n owed => .inl owed
  | @semop part outcome enters out tried =>
    obtain ⟨isAt, lt⟩ := enters.inside fresh
    obtain ⟨sameSema, sameMax, sameTotal, sameList⟩ := part.before_same st
    -- the state is the same but for `sem` and `semu_list`
    have kept : outcome.after.sema = (part.before st).sema ∧
        outcome.after.semmni = (part.before st).semmni ∧
        outcome.after.semtot = (part.before st).semtot := by
      cases tried <;> exact ⟨rfl, rfl, rfl⟩
    refine lay.of_same right (kept.1.trans sameSema) (kept.2.1.trans sameMax)
      (kept.2.2.trans sameTotal) fun q i n owed => ?_
    rcases tried.owed owed with wasOwed | ⟨rfl, sop, isIn, rfl⟩
    · rw [sameList] at wasOwed
      exact .inl wasOwed
    · exact .inr ⟨isAt, lt sop isIn⟩

/-- A set no event aims at keeps its values. -/
theorem Moves.keeps (lay : Layout st) {event : Event} (fresh : Fresh st event)
    (moves : Moves st event s') (used : (st.sema i).alloc = true)
    (oth : ¬ Targets st event i) : Keeps st.sema st.sem s'.sema s'.sem i := by
  have stays : Keeps st.sema st.sem st.sema st.sem i :=
    ⟨used, rfl, rfl, rfl, fun _ _ => rfl⟩
  cases moves with
  | getStays | rmidFails | setvalFails | setallFails | reallocStays | reallocMarks | exitStays
  | semopStays => exact stays
  | getMakes pos few rm free =>
    exact lay.packed.keeps_addSet (findSet_free free).2 used
  | rmid ok chk => exact lay.packed.keeps_removeSet (semctlCheck_none chk) used oth
  | setval ok chk lt low high aft =>
    subst aft
    refine lay.keeps rfl (fun t => t = ipcidToIx _) (fun t tgt => ?_)
      (fun j out => setVal_outside ?_ _) used oth
    · rw [tgt]
      exact semctlCheck_none chk
    · exact out _ _ rfl lt
  | setall ok chk aft =>
    subst aft
    refine lay.keeps rfl (fun t => t = ipcidToIx _) (fun t tgt => ?_)
      (fun j out => setallLoop_outside fun n less => ?_) used oth
    · rw [tgt]
      exact semctlCheck_none chk
    · rw [length_map, length_range, Nat.zero_add] at less
      exact out _ n rfl less
  | realloc last total rm copy =>
    obtain ⟨_, _, isSame, _, _, _, keeps⟩ := lay.copied
    obtain ⟨rfl, same⟩ := Prod.mk.inj (isSame.symm.trans copy)
    obtain rfl := (Prod.mk.inj same).1
    exact keeps i used
  | @exit p ents sem fnd exits =>
    refine lay.keeps rfl (Targets st (.exit p)) (fun t tgt => ?_)
      (fun j out => exitLoop_outside (fun ent isIn => ?_) exits) used oth
    · obtain ⟨n, owed⟩ := tgt
      exact (lay.debts p t n owed).1
    · have owed := owed_of_entry lay.right fnd isIn
      exact out ent.un_id ent.un_num ⟨_, owed⟩ (lay.debts _ _ _ owed).2
  | @semopEnds sleep isAt isOutcome =>
    refine lay.keeps rfl (fun t => t = sleep.semid) (fun t tgt => ?_)
      (fun j out => countWaiter_outside ?_ _) used oth
    · rw [tgt]
      exact isAt.1
    · exact out _ _ rfl (fresh isAt.1 isAt.2 sleep.sop mem_cons_self)
  | @semop part outcome enters isOutcome tried =>
    obtain ⟨isAt, lt⟩ := enters.inside fresh
    have sameBase : (part.before st).base part.semid = st.base part.semid := by
      cases part <;> rfl
    refine lay.keeps ?_ (fun t => t = part.semid) (fun t tgt => ?_)
      (fun j out => ?_) used oth
    · have sameSema := (part.before_same st).1
      cases tried <;> exact sameSema
    · rw [tgt]
      exact isAt
    · have sameSem := (tried.outside (lay.right.before part) (j := j) fun sop isIn => by
        rw [sameBase]
        exact out _ _ rfl (lt sop isIn)).2.2.2
      rw [sameSem]
      cases part with
      | start rq => rfl
      | resume sleep intr =>
        refine countWaiter_outside (out _ _ rfl ?_) _
        exact fresh enters.1.1 enters.1.2 sleep.sop mem_cons_self

end Step

theorem layout_seminit : Layout seminit where
  right := right_seminit
  packed := (@copied_zero seminit).packed.of_le (Nat.zero_le _)
  total := rfl
  debts := fun _ _ _ owed => absurd rfl owed

/-- Along every run the sets are packed and the undo entries are of semaphores that exist, no
section panics, and a section leaves the sets that it does not work on. -/
theorem sem_layout (events : List Event) (fresh : AllFine step Fresh events seminit) :
    ∃ reached, consume step events seminit = some reached ∧ Laid reached ∧
      ∀ event s', Fresh reached event → step reached event = some s' →
        ∀ i, (reached.sema i).alloc = true → ¬ Targets reached event i →
          Keeps reached.sema reached.sem s'.sema s'.sem i := by
  obtain ⟨reached, eaten, lay⟩ := consume_invariant step Layout Fresh
    (fun st event lay fine => by
      obtain ⟨s', moved⟩ := lay.step_some event
      exact ⟨s', moved, lay.moves fine (moves_of_step lay.right moved)⟩)
    events layout_seminit (fun _ _ pre _ eaten => fresh.along pre eaten)
  refine ⟨reached, eaten, lay.laid, fun event s' fine moved i used oth => ?_⟩
  exact (moves_of_step lay.right moved).keeps lay fine used oth

/-- Two sets are made, the first is removed, and the other one is copied. -/
theorem sem_layout_two : ∃ reached,
    consume step [.get ⟨0, 2, true, false, none⟩, .get ⟨0, 3, true, false, none⟩,
      .rmid 65536 none, .realloc 4 10 5 true] seminit = some reached ∧ reached.semtot = 3 ∧
      Laid reached := by
  obtain ⟨reached, eaten, laid, _⟩ := sem_layout [.get ⟨0, 2, true, false, none⟩,
    .get ⟨0, 3, true, false, none⟩, .rmid 65536 none, .realloc 4 10 5 true]
    ⟨trivial, fun _ _ => ⟨trivial, fun _ _ => ⟨trivial, fun _ _ => ⟨trivial, fun _ _ => trivial⟩⟩⟩⟩
  refine ⟨reached, eaten, ?_, laid⟩
  obtain rfl := some.inj eaten
  rfl

end NetBSD.Kern.SysvSem
