import NetBSD.Kern.SysvSemRun

/-!
Owns the atomicity of `sys_semop`. Each of its sections, from the call or the end of a
sleep to its end or the next sleep, does the whole vector and records its undos, or
leaves the semaphores and the debts alone, when the sums that a vector that goes through
comes to fit the 16 bits of `semval` and `un_adjval`.
-/

namespace NetBSD.Kern.SysvSem

open NetBSD.Machine Option

/-- Every operation is done in order, and the undos are recorded exactly. -/
structure Applied (before after : State) (p semid : Nat) (sops : List Sembuf) : Prop where
  goes : Goes (valOf before.sem (before.base semid)) sops
  values : ∀ j, (after.sem j).semval = (before.sem j).semval +
    if before.base semid ≤ j then sumOn Sembuf.sem_op (j - before.base semid) sops else 0
  counts : ∀ j, (after.sem j).semncnt = (before.sem j).semncnt ∧
    (after.sem j).semzcnt = (before.sem j).semzcnt
  debts : ∀ q i n, owed after.semu_list q i n = owed before.semu_list q i n +
    if q = p ∧ i = semid then sumOn undoOf n sops else 0

/-- The semaphores and the debts are as before. -/
structure Untouched (before after : State) : Prop where
  values : ∀ j, (after.sem j).semval = (before.sem j).semval
  counts : ∀ j, (after.sem j).semncnt = (before.sem j).semncnt ∧
    (after.sem j).semzcnt = (before.sem j).semzcnt
  debts : ∀ q i n, owed after.semu_list q i n = owed before.semu_list q i n

/-- What an outcome has to be like. A sleep counts itself, and nothing else. -/
def Atomic (before : State) (p semid : Nat) (sops : List Sembuf) : Outcome → Prop
  | .done after _ => Applied before after p semid sops
  | .failed error after => error = .eidrm ∨ Untouched before after
  | .sleeps after sop _ => sop ∈ sops ∧ after = { before with
      sem := countWaiter before.sem (before.base semid + sop.sem_num) sop 1 }

/-- The sums fit an `unsigned short` and a `short`. -/
def Fits (before : State) (p semid : Nat) (sops : List Sembuf) : Prop :=
  ∀ n, valOf before.sem (before.base semid) n + sumOn Sembuf.sem_op n sops ≤ 65535 ∧
    -32768 ≤ owed before.semu_list p semid n + sumOn undoOf n sops ∧
    owed before.semu_list p semid n + sumOn undoOf n sops ≤ 32767

section Try

variable {bef : State} {p semid : Nat} {sops : List Sembuf} {do_undos : Bool}

theorem valOf_done (j : Nat) (lt : bef.base semid ≤ j) : (setPids (bef.base semid) p sops
      (applyLoop (bef.base semid) sops (bef.pass do_undos)).2.sem j).semval =
      valOf (applyLoop (bef.base semid) sops (bef.pass do_undos)).2.sem
        (bef.base semid) (j - bef.base semid) := by
  rw [semval_setPids]
  unfold valOf
  rw [Nat.add_sub_cancel' lt]

/-- A try is all or nothing exactly when the values fit. -/
theorem Tried.atomic_iff (right : Right bef) {out : Outcome}
    (tried : Tried bef p semid sops do_undos out) :
    Atomic bef p semid sops out ↔
      (Through bef p semid sops do_undos → Fits bef p semid sops) := by
  cases tried with
  | @done semu_list thru undos owed =>
    have full := thru.1
    have isSem := full.sem_eq right.values
    constructor
    · intro applied _ n
      have v := applied.values (bef.base semid + n)
      have debt := applied.debts p semid n
      have low := (undos.owed_bounds p semid n).1
      have high := (undos.owed_bounds p semid n).2
      have bnds := @shift_inRange (bef.base semid) _ Sembuf.sem_op right.values sops
        (bef.base semid + n)
      dsimp only at v debt
      rw [semval_setPids, isSem, Nat.add_sub_cancel_left] at v
      unfold valOf
      omega
    intro fine
    have fits := fine thru
    obtain ⟨goes, isVal⟩ := full.goes right.values fun n => (fits n).1
    refine ⟨goes, fun j => ?_, fun j => ?_, fun q i n => ?_⟩
    · by_cases lt : bef.base semid ≤ j
      · rw [if_pos lt]
        rw [valOf_done j lt, isVal]
        show valOf bef.sem _ _ + _ = _
        unfold valOf
        rw [Nat.add_sub_cancel' lt]
      · rw [if_neg lt, Int.add_zero]
        rw [semval_setPids, isSem]
        unfold shift
        rw [if_neg lt]
    · dsimp only
      obtain ⟨sameNcnt, sameZcnt⟩ := counts_setPids
        (applyLoop (bef.base semid) sops (bef.pass do_undos)).2.sem
        (bef.base semid) p sops j
      rw [sameNcnt, sameZcnt, isSem]
      exact counts_shift Sembuf.sem_op (bef.base semid) sops j
    · dsimp only
      rw [owed]
      split
      · rename_i same
        obtain ⟨rfl, rfl⟩ := same
        exact short_eq (fits n).2.1 (fits n).2.2
      · rw [Int.add_zero]
  | failed error undos same stop =>
    refine iff_of_true (.inr ⟨fun _ => rfl, fun _ => ⟨rfl, rfl⟩, same⟩) fun thru => ?_
    exact absurd thru stop
  | sleeps pre sop back undoing split done maySleep waits stop =>
    refine iff_of_true ⟨?_, rfl⟩ fun thru => absurd thru stop
    rw [split]
    exact List.mem_append_right pre List.mem_cons_self

end Try

/-- Every section of every run is atomic exactly when it fits, and none panics. -/
theorem semop_atomic (events : List Event) {state : State}
    (reached : consume step events seminit = some state) (part : Section) :
    ∃ outcome, part.run state = some outcome ∧
      (Atomic (part.before state) part.proc part.semid part.sops outcome ↔ (part.Enters state →
          Through (part.before state) part.proc part.semid part.sops part.do_undos →
          Fits (part.before state) part.proc part.semid part.sops)) := by
  have right := right_consume events right_seminit reached
  have untouched : ∀ bef : State, Untouched bef bef := fun bef =>
    ⟨fun _ => rfl, fun _ => ⟨rfl, rfl⟩, fun _ _ _ => rfl⟩
  rcases part.run_spec right with ⟨enters, outcome, isOutcome, tried⟩ | ⟨out, error, fail, kept⟩ |
    ⟨sleep, rfl, _, fail⟩
  · refine ⟨outcome, isOutcome, (tried.atomic_iff (right.before part)).trans ?_⟩
    exact ⟨fun fine _ => fine, fun fine => fine enters⟩
  · refine ⟨_, fail, iff_of_true ?_ fun enters => absurd enters out⟩
    rcases kept with isRemoved | prev
    · exact .inl isRemoved
    · rw [prev]
      exact .inr (untouched state)
  · exact ⟨_, fail, iff_of_true (.inr (untouched _)) fun enters => absurd enters.2 (by decide)⟩

/-- A set of two semaphores, the first of the value 3. -/
def setOfTwo : List Event := [.get ⟨0, 2, true, false, none⟩, .setval 65536 0 3 none]

/-- A decrement by 2 of the first, which the exit takes back, and an increment by 4 of the other. -/
def twoSops : List Sembuf := [sembuf 0 (-2) true, sembuf 1 4 false]

/-- Two operations go through at once, and the first one is recorded. -/
theorem semop_atomic_undo : ∃ state after, consume step setOfTwo seminit = some state ∧
    sysSemop state ⟨1, 65536, twoSops, none, none⟩ = some (.done after false) ∧
      Atomic state 1 0 twoSops (.done after false) ∧
      (after.sem 0).semval = 1 ∧ (after.sem 1).semval = 4 ∧ owed after.semu_list 1 0 0 = 2 := by
  obtain ⟨state, after, reached, done, values, fits⟩ : ∃ state after,
      consume step setOfTwo seminit = some state ∧
      sysSemop state ⟨1, 65536, twoSops, none, none⟩ = some (.done after false) ∧
      ((after.sem 0).semval = 1 ∧ (after.sem 1).semval = 4 ∧ owed after.semu_list 1 0 0 = 2) ∧
      Fits state 1 0 twoSops := by
    refine ⟨_, _, rfl, rfl, by decide, fun n => ?_⟩
    match n with
    | 0 | 1 => decide
    | n + 2 => exact ⟨(by decide : (0 : Int) ≤ 65535), (by decide : (-32768 : Int) ≤ 0),
        (by decide : (0 : Int) ≤ 32767)⟩
  obtain ⟨outcome, out, atomic⟩ := semop_atomic setOfTwo reached
    (.start ⟨1, 65536, twoSops, none, none⟩)
  obtain rfl := some.inj (out.symm.trans done)
  exact ⟨state, after, reached, done, atomic.mpr fun _ _ => fits, values⟩

/-- A process takes 32767 with `SEM_UNDO`, another one gives 1, and the first takes it: the undo
of 32768 is recorded as -32768. -/
theorem semop_undo_wraps : ∃ state after,
    consume step [.get ⟨0, 1, true, false, none⟩, .setval 65536 0 32767 none,
      .semop (.start ⟨1, 65536, [sembuf 0 (-32767) true], none, none⟩),
      .semop (.start ⟨2, 65536, [sembuf 0 1 false], none, none⟩)] seminit = some state ∧
      sysSemop state ⟨1, 65536, [sembuf 0 (-1) true], none, none⟩ = some (.done after false) ∧
      owed state.semu_list 1 0 0 = 32767 ∧ owed after.semu_list 1 0 0 = -32768 ∧
      ¬ Atomic state 1 0 [sembuf 0 (-1) true] (.done after false) := by
  refine ⟨_, _, rfl, rfl, by decide, by decide, fun applied => ?_⟩
  exact absurd (applied.debts 1 0 0) (by decide)

/-!
### Ranges over a run

The range of `semval` and of `un_adjval` over whole runs. `sys_semop` and `semexit`
check neither `semvmx` nor the 16 bits of an adjustment; in a run in which no sum of
theirs goes beyond them the values stay in range and an adjustment is the sum of the
negated operations since it was cleared.
-/

/-- For each process and each semaphore of each set, the sum of the negated operations with
`SEM_UNDO` since the last clear. -/
abbrev Totals := Nat → Nat → Nat → Int

/-- The sums of a set, or of one semaphore of it, are cleared. -/
def clearTotals (totals : Totals) (semid : Nat) (semnum : Option Nat) : Totals := fun q i n =>
  if i = semid ∧ ∀ num, semnum = some num → n = num then 0 else totals q i n

def addTotals (totals : Totals) (part : Section) : Option Outcome → Totals
  | some (.done _ _) => fun q i n =>
    if q = part.proc ∧ i = part.semid then totals q i n + sumOn undoOf n part.sops
    else totals q i n
  | _ => totals

def tally (state : State) (totals : Totals) : Event → Totals
  | .get _ => totals
  | .rmid semid ipcperm =>
    (semctlRmid state semid ipcperm).toOption.elim totals
      fun _ => clearTotals totals (ipcidToIx semid) none
  | .setval semid semnum val ipcperm =>
    (semctlSetval state semid semnum val ipcperm).toOption.elim totals
      fun _ => clearTotals totals (ipcidToIx semid) (some semnum.toNat)
  | .setall semid array ipcperm =>
    (semctlSetall state semid array ipcperm).toOption.elim totals
      fun _ => clearTotals totals (ipcidToIx semid) none
  | .realloc .. => totals
  | .exit p => fun q i n => if q = p then 0 else totals q i n
  | .semop part => addTotals totals part (part.run state)

/-- The state with the sums. -/
structure Tallied where
  state : State
  totals : Totals

def track (tallied : Tallied) (event : Event) : Option Tallied :=
  (step tallied.state event).map fun after => ⟨after, tally tallied.state tallied.totals event⟩

/-- The values are in range, and a stored adjustment is the sum. -/
structure InBounds (tallied : Tallied) : Prop where
  values : ∀ j, 0 ≤ (tallied.state.sem j).semval ∧ (tallied.state.sem j).semval ≤ semvmx
  stored : ∀ suptr ∈ tallied.state.semu_list, ∀ ent ∈ suptr.un_ent,
    ent.un_adjval = tallied.totals suptr.un_proc ent.un_id ent.un_num

/-- No adjustment of `semexit` takes a value above `semvmx`. -/
def ExitFits (sema : Nat → Semid) : List UndoEntry → (Nat → Sem) → Prop
  | [], _ => True
  | ent :: rest, sem =>
    let i := (sema ent.un_id)._sem_base + ent.un_num
    (sem i).semval + ent.un_adjval ≤ semvmx ∧ ExitFits sema rest
        (if ent.un_adjval < 0 ∧ (sem i).semval < -ent.un_adjval then setVal sem i 0
        else addVal sem i ent.un_adjval)

/-- The sums of a section stay in range. -/
def Bounded (state : State) : Event → Prop
  | .exit p => ∀ ents, findUndo p state.semu_list = some ents → ExitFits state.sema ents state.sem
  | .semop part => part.Enters state → let before := part.before state
      Through before part.proc part.semid part.sops part.do_undos →
      ∀ n, valOf before.sem (before.base part.semid) n + sumOn Sembuf.sem_op n part.sops ≤ semvmx ∧
        -32768 ≤ owed before.semu_list part.proc part.semid n + sumOn undoOf n part.sops ∧
        owed before.semu_list part.proc part.semid n + sumOn undoOf n part.sops ≤ 32767
  | _ => True

/-- The invariant: what is owed is the sum, also where nothing is stored. -/
structure Counted (tallied : Tallied) : Prop where
  values : Within semvmx tallied.state.sem
  undos : Undos tallied.state.semmnu tallied.state.semu_list
  debts : ∀ q i n, owed tallied.state.semu_list q i n = tallied.totals q i n

section Keep

variable {tallied : Tallied}

theorem Counted.right (cnt : Counted tallied) : Right tallied.state where
  values := fun j => by
    have bnds := cnt.values j
    unfold semvmx at bnds
    omega
  undos := cnt.undos

theorem exitLoop_within {sem : Nat → Sem} (bnd : Within semvmx sem) {sema : Nat → Semid}
    {ents : List UndoEntry} (fits : ExitFits sema ents sem) {s' : Nat → Sem}
    (exits : exitLoop sema ents sem = some s') : Within semvmx s' := by
  induction ents generalizing sem with
  | nil =>
    obtain rfl := some.inj exits
    exact bnd
  | cons ent tl ih =>
    obtain ⟨fitsHere, fitsRest⟩ := fits
    rw [exitLoop] at exits
    split at exits
    · cases exits
    refine ih ?_ fitsRest exits
    have bnds := bnd ((sema ent.un_id)._sem_base + ent.un_num)
    split
    · exact bnd.setVal (Int.le_refl _) (by decide) _
    unfold semvmx at fitsHere bnds
    have nn : 0 ≤ (sem ((sema ent.un_id)._sem_base + ent.un_num)).semval +
        ent.un_adjval := by omega
    refine bnd.setVal (ushort_bounds _).1 ?_ _
    rw [ushort_eq nn (by omega)]
    exact fitsHere

theorem Through.within {bef : State} {p semid : Nat} {sops : List Sembuf} {do_undos : Bool}
    (thru : Through bef p semid sops do_undos) (bnd : Within semvmx bef.sem)
    (rng : InRange bef.sem)
    (fits : ∀ n, valOf bef.sem (bef.base semid) n + sumOn Sembuf.sem_op n sops ≤ semvmx) :
    Within semvmx (applyLoop (bef.base semid) sops (bef.pass do_undos)).2.sem := by
  have sml : ∀ n, valOf (bef.pass do_undos).sem (bef.base semid) n +
      sumOn Sembuf.sem_op n sops ≤ 65535 := fun n => by
    have := fits n
    exact Int.le_trans this (by decide)
  obtain ⟨_, isVal⟩ := thru.1.goes rng sml
  have isSem := thru.1.sem_eq rng
  intro j
  by_cases lt : bef.base semid ≤ j
  · have v := isVal (j - bef.base semid)
    have fitsHere := fits (j - bef.base semid)
    have low := (inRange_applyLoop (bef.base semid) sops
      (show InRange (bef.pass do_undos).sem from rng) j).1
    unfold valOf at v fitsHere
    rw [Nat.add_sub_cancel' lt] at v fitsHere
    refine ⟨low, ?_⟩
    rw [v]
    exact fitsHere
  · rw [isSem]
    unfold shift
    rw [if_neg lt]
    exact bnd j

theorem Counted.before (cnt : Counted tallied) (part : Section) :
    Counted ⟨part.before tallied.state, tallied.totals⟩ := by
  cases part with
  | start rq => exact cnt
  | resume sleep intr =>
    exact ⟨cnt.values.of_semval (semval_countWaiter _ _ _), cnt.undos, cnt.debts⟩

theorem Counted.clear (cnt : Counted tallied) {sem : Nat → Sem} (bnd : Within semvmx sem)
    (semid : Nat) (semnum : Option Nat) {s' : State} (isSem : s'.sem = sem)
    (isMax : s'.semmnu = tallied.state.semmnu)
    (lst : s'.semu_list = semundoClear semid semnum tallied.state.semu_list) :
    Counted ⟨s', clearTotals tallied.totals semid semnum⟩ where
  values := by
    rw [isSem]
    exact bnd
  undos := by
    rw [isMax, lst]
    exact cnt.undos.clear semid semnum
  debts := by
    intro q i n
    rw [lst, cnt.undos.owed_clear, cnt.debts]
    rfl

/-- Every step adds to a value what the ledger adds to its total. -/
theorem Counted.moves {old s' : State} {totals : Totals} (cnt : Counted ⟨old, totals⟩)
    {event : Event} (bnd : Bounded old event) (moves : Moves old event s') :
    Counted ⟨s', tally old totals event⟩ := by
  cases moves with
  | getStays | reallocStays => exact cnt
  | getMakes pos few rm free =>
    exact ⟨addSet_within cnt.values (by decide) _ _ _, cnt.undos, cnt.debts⟩
  | rmidFails fails =>
    simp only [tally, fails, Except.toOption]
    exact cnt
  | rmid ok chk =>
    simp only [tally, ok]
    exact cnt.clear (compact_within cnt.values _ _ _) _ none rfl rfl rfl
  | setvalFails fails =>
    simp only [tally, fails]
    exact cnt
  | setval ok chk lt low high aft =>
    simp only [tally, ok]
    exact cnt.clear (cnt.values.setVal low high _) _ (some _) (by rw [aft])
      (by rw [aft]) (by rw [aft])
  | setallFails fails =>
    simp only [tally, fails]
    exact cnt
  | setall ok chk aft =>
    simp only [tally, ok]
    exact cnt.clear (setallLoop_within cnt.values (Int.le_refl _) _ _ _) _ none
      (by rw [aft]) (by rw [aft]) (by rw [aft])
  | reallocMarks => exact ⟨cnt.values, cnt.undos, cnt.debts⟩
  | @realloc _ _ newsemmnu _ _ _ last total rm copy =>
    have within := copySets_within old cnt.values (lastSet old.sema old.semmni + 1) 0
      (fun _ => ⟨false, 0, 0, 0, 0⟩) (within_zero (by decide)) 0
    rw [copy] at within
    have fits : old.semu_list.length ≤ newsemmnu.toNat := by omega
    refine ⟨within, cnt.undos.reverse fits, fun q i n => ?_⟩
    unfold owed
    rw [findUndo_reverse cnt.undos.procs]
    exact cnt.debts q i n
  | exitStays miss =>
    refine ⟨cnt.values, cnt.undos, fun q i n => ?_⟩
    have isOwed := cnt.debts q i n
    show owed old.semu_list q i n = if q = _ then 0 else totals q i n
    split
    · rename_i same
      unfold owed
      rw [same, miss]
      rfl
    · exact isOwed
  | exit fnd exits =>
    refine ⟨exitLoop_within cnt.values (bnd _ fnd) exits, cnt.undos.removeUndo _,
      fun q i n => ?_⟩
    show owed (removeUndo _ old.semu_list) q i n = if q = _ then 0 else totals q i n
    rw [cnt.undos.owed_removeUndo, cnt.debts]
  | semopStays out isOutcome =>
    simp only [tally, isOutcome, addTotals]
    exact cnt
  | @semopEnds sleep isAt isOutcome =>
    simp only [tally, Section.run, isOutcome]
    exact cnt.before (.resume sleep true)
  | @semop part outcome enters isOutcome tried =>
    have started := cnt.before part
    have fits := bnd enters
    simp only [tally, isOutcome]
    cases tried with
    | done thru undos isOwed =>
      have sml := fits thru
      refine ⟨?_, undos, fun q i n => ?_⟩
      · exact (thru.within started.values started.right.values fun n =>
          (sml n).1).of_semval (semval_setPids _ _ _)
      show owed _ q i n = if q = part.proc ∧ i = part.semid
        then totals q i n + sumOn undoOf n part.sops else totals q i n
      refine (isOwed q i n).trans ?_
      rw [started.debts]
      split
      · rename_i same
        have sums := (sml n).2
        rw [started.debts] at sums
        obtain ⟨rfl, rfl⟩ := same
        exact short_eq sums.1 sums.2
      · rfl
    | failed error undos same stop =>
      exact ⟨started.values, undos, fun q i n => (same q i n).trans (started.debts q i n)⟩
    | sleeps pre sop back undoing split done maySleep waits stop =>
      exact ⟨started.values.of_semval (semval_countWaiter _ _ _), started.undos, started.debts⟩

theorem Counted.inBounds (cnt : Counted tallied) : InBounds tallied where
  values := cnt.values
  stored := by
    intro suptr isIn ent isEnt
    rw [← cnt.debts]
    unfold owed
    rw [findUndo_of_mem cnt.undos.procs isIn, getD_some,
      (cnt.undos.vectors suptr isIn).adjOf_of_mem isEnt]

end Keep

/-- The state after `seminit`, with no sums. -/
def noTotals : Tallied := ⟨seminit, fun _ _ _ => 0⟩

/-- In a run whose sums stay in range every state is in range, with exact adjustments. -/
theorem semval_bounded (events : List Event)
    (bounded : AllFine track (fun tallied => Bounded tallied.state) events noTotals) :
    ∀ front, front <+: events → ∀ reached, consume track front noTotals = some reached →
      InBounds reached := by
  intro front pre reached eaten
  have beg : Counted noTotals :=
    { values := within_zero (by decide)
      undos := right_seminit.undos
      debts := fun q i n => rfl }
  have cnt : Counted reached := by
    refine consume_safe track Counted (fun tallied => Bounded tallied.state) ?_ front beg
      (fun early input isEarly mid isBetween => ?_) eaten
    · intro tallied event s' cnt fine moved
      obtain ⟨st, move, rfl⟩ := map_eq_some_iff.mp moved
      exact cnt.moves fine (moves_of_step cnt.right move)
    · exact bounded.along (isEarly.trans pre) isBetween
  exact cnt.inBounds

/-- The greatest value that `SETVAL` takes, and one more by `sys_semop`. -/
theorem semval_above : ∃ reached,
    consume track [.get ⟨0, 1, true, false, none⟩, .setval 65536 0 32767 none,
      .semop (.start ⟨1, 65536, [sembuf 0 1 false], none, none⟩)] noTotals = some reached ∧
      (reached.state.sem 0).semval = 32768 ∧ ¬ InBounds reached := by
  refine ⟨_, rfl, by decide, fun inBounds => ?_⟩
  exact absurd (inBounds.values 0).2 (by decide)

/-- A call with an undo goes through, and the exit of the process takes it back. -/
def exitRun : List Event := setOfTwo ++ [.semop (.start ⟨1, 65536, twoSops, none, none⟩), .exit 1]

/-- The exit of the process takes its recorded adjustment back. -/
theorem semval_bounded_exit : ∃ reached, consume track exitRun noTotals = some reached ∧
    InBounds reached ∧ (reached.state.sem 0).semval = 3 ∧ (reached.state.sem 1).semval = 4 := by
  have bounded : AllFine track (fun tallied => Bounded tallied.state) exitRun noTotals := by
    refine .cons trivial rfl (.cons trivial rfl
      (.cons (fun _ _ n => ?_) rfl (.cons (fun ents isEnts => ?_) rfl trivial)))
    · match n with
      | 0 | 1 => decide
      | n + 2 => exact ⟨(by decide : (0 : Int) ≤ 32767), (by decide : (-32768 : Int) ≤ 0),
          (by decide : (0 : Int) ≤ 32767)⟩
    · obtain rfl := some.inj isEnts
      exact ⟨by decide, trivial⟩
  exact ⟨_, rfl, semval_bounded exitRun bounded _ (List.prefix_refl _) _ rfl, by decide, by decide⟩

end NetBSD.Kern.SysvSem
