import NetBSD.Kern.SysvSemPass
import NetBSD.Machine.Trace

/-!
Owns the runs of the semaphore calls, section by section, and the invariant of the
values and undo structures that every section keeps.
-/

namespace NetBSD.Kern.SysvSem

open NetBSD.Machine

/-- A section of `sys_semop`, from the call or the end of a sleep to its end or the next sleep. -/
inductive Section where
  | start (request : Request)
  | resume (sleep : Sleep) (interrupted : Bool)

/-- A section under `semlock`, with what comes from outside. -/
inductive Event where
  | get (get : Get)
  | rmid (semid : Int) (ipcperm : Option Errno)
  | setval (semid semnum val : Int) (ipcperm : Option Errno)
  | setall (semid : Int) (array : Nat → Option Nat) (ipcperm : Option Errno)
  | realloc (newsemmni newsemmns newsemmnu : Int) (allocated : Bool)
  | exit (p : Nat)
  | semop (part : Section)

def Outcome.after : Outcome → State
  | .done after _ => after
  | .failed _ after => after
  | .sleeps after _ _ => after

def resumed (state : State) (sleep : Sleep) : State :=
  { state with
    sem := countWaiter state.sem (state.base sleep.semid + sleep.sop.sem_num) sleep.sop (-1) }

namespace Section

def proc : Section → Nat
  | start request => request.proc
  | resume sleep _ => sleep.proc

def semid : Section → Nat
  | start request => ipcidToIx request.semid
  | resume sleep _ => sleep.semid

def sops : Section → List Sembuf
  | start request => request.sops
  | resume sleep _ => sleep.sops

def do_undos : Section → Bool
  | start _ => false
  | resume sleep _ => sleep.do_undos

def run (state : State) : Section → Option Outcome
  | start request => sysSemop state request
  | resume sleep interrupted => semopWake state sleep interrupted

def before (state : State) : Section → State
  | start _ => state
  | resume sleep _ => resumed state sleep

/-- The section comes to the loop over the operations. -/
def Enters (state : State) : Section → Prop
  | start request => semopCheck state request = none
  | resume sleep interrupted =>
    ((state.sema sleep.semid).alloc = true ∧ (state.sema sleep.semid).seq = sleep.seq) ∧
      interrupted = false

end Section

/-- The state after a section; a call that fails at once leaves it. -/
def step (state : State) : Event → Option State
  | .get get => some ((sysSemget state get).toOption.elim state Prod.fst)
  | .rmid semid ipcperm => some ((semctlRmid state semid ipcperm).toOption.getD state)
  | .setval semid semnum val ipcperm =>
    some ((semctlSetval state semid semnum val ipcperm).toOption.getD state)
  | .setall semid array ipcperm =>
    some ((semctlSetall state semid array ipcperm).toOption.elim state Prod.fst)
  | .realloc newsemmni newsemmns newsemmnu allocated =>
    (semrealloc state newsemmni newsemmns newsemmnu allocated).map Prod.fst
  | .exit p => (semexit state p).map Prod.fst
  | .semop part => (part.run state).map Outcome.after

section Values

variable {sem : Nat → Sem}

theorem semval_setPids (base pid : Nat) (sops : List Sembuf) (j : Nat) :
    (setPids base pid sops sem j).semval = (sem j).semval := by
  induction sops generalizing sem with
  | nil => rfl
  | cons sop tl ih =>
    rw [setPids, ih]
    split <;> rfl

theorem semval_countWaiter (i : Nat) (sop : Sembuf) (chg : Int) (j : Nat) :
    (countWaiter sem i sop chg j).semval = (sem j).semval := by
  unfold countWaiter
  split
  · split <;> rfl
  · rfl

theorem Within.of_semval {most : Int} (bnd : Within most sem) {s' : Nat → Sem}
    (same : ∀ j, (s' j).semval = (sem j).semval) : Within most s' := by
  intro j
  rw [same]
  exact bnd j

theorem within_zero {most : Int} (low : 0 ≤ most) : Within most fun _ => ⟨0, 0, 0, 0⟩ :=
  fun _ => ⟨Int.le_refl _, low⟩

variable {most : Int}

theorem setallLoop_within (bnd : Within most sem) (suff : semvmx ≤ most) (base i : Nat)
    (array : List (Option Nat)) : Within most (setallLoop base i array sem).1 := by
  induction array generalizing i sem with
  | nil => exact bnd
  | cons fst tl ih =>
    cases fst with
    | none => exact bnd
    | some semval =>
      rw [setallLoop]
      split
      · exact bnd
      · rename_i sml
        exact ih (bnd.setVal (Int.natCast_nonneg _) (by omega) _) _

theorem exitLoop_inRange (rng : InRange sem) (sema : Nat → Semid) (ents : List UndoEntry)
    {s' : Nat → Sem} (exits : exitLoop sema ents sem = some s') : InRange s' := by
  induction ents generalizing sem with
  | nil =>
    obtain rfl := Option.some.inj exits
    exact rng
  | cons ent tl ih =>
    rw [exitLoop] at exits
    split at exits
    · cases exits
    · refine ih ?_ exits
      split
      · exact Within.setVal rng (Int.le_refl _) (by decide) _
      · exact rng.addVal _ _

theorem addSet_within {st : State} (bnd : Within most st.sem) (low : 0 ≤ most)
    (semid : Nat) (key : Int) (nsems : Nat) : Within most (addSet st semid key nsems).sem := by
  intro j
  unfold addSet
  dsimp only
  split
  · exact ⟨Int.le_refl _, low⟩
  · exact bnd j

theorem compact_within (bnd : Within most sem) (base nsems semtot : Nat) :
    Within most (compact sem base nsems semtot) := by
  intro j
  unfold compact
  split
  · exact bnd _
  · exact bnd j

theorem copySets_within (old : State) (bnd : Within most old.sem) (fuel i : Nat)
    (sema : Nat → Semid) (withinNew : Within most sem) (j : Nat) :
    Within most (copySets old fuel i sema sem j).2.1 := by
  induction fuel generalizing i sema sem j with
  | zero => exact withinNew
  | succ fuel ih =>
    rw [copySets]
    split
    · exact ih _ _ withinNew _
    · refine ih _ _ (fun k => ?_) _
      split
      · exact bnd _
      · exact withinNew k

end Values

variable {s' : State}

section Keep

variable {st : State}

theorem Tried.right (right : Right st) {p semid : Nat} {sops : List Sembuf} {do_undos : Bool}
    {out : Outcome} (tried : Tried st p semid sops do_undos out) :
    Right out.after := by
  cases tried with
  | done thru undos owed =>
    exact ⟨(inRange_applyLoop _ sops right.values).of_semval (semval_setPids _ _ _), undos⟩
  | failed error undos same stop => exact ⟨right.values, undos⟩
  | sleeps pre sop back undoing split done maySleep waits stop =>
    exact ⟨right.values.of_semval (semval_countWaiter _ _ _), right.undos⟩

variable {ipcperm : Option Errno}

theorem semctlRmid_ok {semid : Int} (ok : semctlRmid st semid ipcperm = .ok s') :
    semctlCheck st semid = none ∧ s' = removeSet st (ipcidToIx semid) := by
  unfold semctlRmid at ok
  split at ok
  · cases ok
  · rename_i chk
    split at ok
    · cases ok
    · exact ⟨chk, (Except.ok.inj ok).symm⟩

theorem semctlSetval_ok {semid semnum val : Int}
    (ok : semctlSetval st semid semnum val ipcperm = .ok s') :
    semctlCheck st semid = none ∧ 0 ≤ semnum ∧
      semnum < (st.sema (ipcidToIx semid)).sem_nsems ∧ 0 ≤ ushort val ∧ ushort val ≤ semvmx ∧
      s' = { st with
        sem := setVal st.sem (st.base (ipcidToIx semid) + semnum.toNat) (ushort val)
        semu_list := semundoClear (ipcidToIx semid) (some semnum.toNat) st.semu_list } := by
  unfold semctlSetval at ok
  dsimp only at ok
  split at ok
  · cases ok
  rename_i chk
  split at ok
  · cases ok
  split at ok
  · cases ok
  split at ok
  · cases ok
  · rename_i sml
    unfold semvmx ushort at *
    exact ⟨chk, by omega, by omega, by omega, by omega, (Except.ok.inj ok).symm⟩

theorem semctlSetall_ok {semid : Int} {array : Nat → Option Nat} {error : Option Errno}
    (ok : semctlSetall st semid array ipcperm = .ok (s', error)) :
    semctlCheck st semid = none ∧ s' = { st with
        sem := (setallLoop (st.base (ipcidToIx semid)) 0
          ((List.range (st.sema (ipcidToIx semid)).sem_nsems).map array) st.sem).1
        semu_list := semundoClear (ipcidToIx semid) none st.semu_list } := by
  unfold semctlSetall at ok
  split at ok
  · cases ok
  · rename_i chk
    split at ok
    · cases ok
    · exact ⟨chk, (Prod.mk.inj (Except.ok.inj ok)).1.symm⟩

theorem sysSemget_ok {get : Get} {id : Int} (ok : sysSemget st get = .ok (s', id)) :
    s' = st ∨ ∃ semid, 0 < get.nsems ∧ get.nsems ≤ semmsl ∧
      get.nsems ≤ st.semmns - st.semtot ∧
      findSet (fun semid => !(st.sema semid).alloc) st.semmni 0 = some semid ∧
      s' = addSet st semid get.key get.nsems.toNat := by
  unfold sysSemget at ok
  generalize (if get.key = 0 then none else findSet (fun semid => (st.sema semid).alloc &&
    decide ((st.sema semid).key = get.key)) st.semmni 0) = found at ok
  cases found with
  | some semid =>
    refine .inl ?_
    dsimp only at ok
    split at ok
    · cases ok
    · split at ok
      · cases ok
      · split at ok
        · cases ok
        · exact (Prod.mk.inj (Except.ok.inj ok)).1.symm
  | none =>
    refine .inr ?_
    dsimp only at ok
    split at ok
    · unfold semgetAlloc at ok
      split at ok
      · cases ok
      split at ok
      · cases ok
      split at ok
      · cases ok
      · rename_i semid free
        exact ⟨semid, by omega, by omega, by omega, free, (Prod.mk.inj (Except.ok.inj ok)).1.symm⟩
    · cases ok

theorem semrealloc_some {newsemmni newsemmns newsemmnu : Int} {alloc : Bool}
    {error : Option Errno}
    (moved : semrealloc st newsemmni newsemmns newsemmnu alloc = some (s', error)) :
    (s' = st ∨ s' = { st with sem_realloc_state := true }) ∨
      ((lastSet st.sema st.semmni : Int) < newsemmni ∧ (st.semtot : Int) ≤ newsemmns ∧
        (st.semu_list.length : Int) ≤ newsemmnu ∧
        ∃ sema sem, copySets st (lastSet st.sema st.semmni + 1) 0
            (fun _ => ⟨false, 0, 0, 0, 0⟩) (fun _ => ⟨0, 0, 0, 0⟩) 0 = (sema, sem, st.semtot) ∧
          s' = ⟨newsemmni.toNat, newsemmns.toNat, newsemmnu.toNat, sema, sem, st.semtot,
            st.semu_list.reverse, false⟩) := by
  unfold semrealloc at moved
  split at moved
  · exact .inl (.inl (Prod.mk.inj (Option.some.inj moved)).1.symm)
  split at moved
  · exact .inl (.inl (Prod.mk.inj (Option.some.inj moved)).1.symm)
  split at moved
  · exact .inl (.inl (Prod.mk.inj (Option.some.inj moved)).1.symm)
  dsimp only at moved
  split at moved
  · exact .inl (.inr (Prod.mk.inj (Option.some.inj moved)).1.symm)
  split at moved
  · cases moved
  · rename_i total
    refine .inr ⟨by omega, by omega, by omega, _, _, ?_,
      (Prod.mk.inj (Option.some.inj moved)).1.symm⟩
    rw [← not_ne_iff.mp total]

theorem semexit_some {p : Nat} {broadcasts : List Nat}
    (exits : semexit st p = some (s', broadcasts)) :
    (findUndo p st.semu_list = none ∧ s' = st ∧ broadcasts = []) ∨
      ∃ ents sem, findUndo p st.semu_list = some ents ∧
        exitLoop st.sema ents st.sem = some sem ∧ broadcasts = ents.map UndoEntry.un_id ∧
        s' = { st with sem := sem, semu_list := removeUndo p st.semu_list } := by
  unfold semexit at exits
  split at exits
  · rename_i miss
    obtain ⟨rfl, rfl⟩ := Prod.mk.inj (Option.some.inj exits)
    exact .inl ⟨miss, rfl, rfl⟩
  · rename_i ents fnd
    obtain ⟨sem, isSem, exits⟩ := Option.bind_eq_some_iff.mp exits
    obtain ⟨rfl, rfl⟩ := Prod.mk.inj (Option.some.inj exits)
    exact .inr ⟨ents, sem, fnd, isSem, rfl, rfl⟩

end Keep

/-- What a section does. -/
inductive Moves (state : State) : Event → State → Prop where
  | getStays (get : Get) : Moves state (.get get) state
  | getMakes {get : Get} {semid : Nat} (positive : 0 < get.nsems) (few : get.nsems ≤ semmsl)
      (room : get.nsems ≤ state.semmns - state.semtot)
      (isFree : findSet (fun semid => !(state.sema semid).alloc) state.semmni 0 = some semid) :
      Moves state (.get get) (addSet state semid get.key get.nsems.toNat)
  | rmidFails {semid : Int} {ipcperm : Option Errno} {error : Errno}
      (fails : semctlRmid state semid ipcperm = .error error) :
      Moves state (.rmid semid ipcperm) state
  | rmid {semid : Int} {ipcperm : Option Errno}
      (ok : semctlRmid state semid ipcperm = .ok (removeSet state (ipcidToIx semid)))
      (checked : semctlCheck state semid = none) :
      Moves state (.rmid semid ipcperm) (removeSet state (ipcidToIx semid))
  | setvalFails {semid semnum val : Int} {ipcperm : Option Errno} {error : Errno}
      (fails : semctlSetval state semid semnum val ipcperm = .error error) :
      Moves state (.setval semid semnum val ipcperm) state
  | setval {semid semnum val : Int} {ipcperm : Option Errno} {after : State}
      (ok : semctlSetval state semid semnum val ipcperm = .ok after)
      (checked : semctlCheck state semid = none)
      (inside : semnum.toNat < (state.sema (ipcidToIx semid)).sem_nsems)
      (low : 0 ≤ ushort val) (high : ushort val ≤ semvmx)
      (isAfter : after = { state with
        sem := setVal state.sem (state.base (ipcidToIx semid) + semnum.toNat) (ushort val)
        semu_list := semundoClear (ipcidToIx semid) (some semnum.toNat) state.semu_list }) :
      Moves state (.setval semid semnum val ipcperm) after
  | setallFails {semid : Int} {array : Nat → Option Nat} {ipcperm : Option Errno} {error : Errno}
      (fails : semctlSetall state semid array ipcperm = .error error) :
      Moves state (.setall semid array ipcperm) state
  | setall {semid : Int} {array : Nat → Option Nat} {ipcperm error : Option Errno} {after : State}
      (ok : semctlSetall state semid array ipcperm = .ok (after, error))
      (checked : semctlCheck state semid = none)
      (isAfter : after = { state with
        sem := (setallLoop (state.base (ipcidToIx semid)) 0
          ((List.range (state.sema (ipcidToIx semid)).sem_nsems).map array) state.sem).1
        semu_list := semundoClear (ipcidToIx semid) none state.semu_list }) :
      Moves state (.setall semid array ipcperm) after
  | reallocStays {newsemmni newsemmns newsemmnu : Int} {allocated : Bool} :
      Moves state (.realloc newsemmni newsemmns newsemmnu allocated) state
  | reallocMarks {newsemmni newsemmns newsemmnu : Int} {allocated : Bool} :
      Moves state (.realloc newsemmni newsemmns newsemmnu allocated)
        { state with sem_realloc_state := true }
  | realloc {newsemmni newsemmns newsemmnu : Int} {allocated : Bool} {sema : Nat → Semid}
      {sem : Nat → Sem} (last : (lastSet state.sema state.semmni : Int) < newsemmni)
      (total : (state.semtot : Int) ≤ newsemmns)
      (room : (state.semu_list.length : Int) ≤ newsemmnu)
      (copied : copySets state (lastSet state.sema state.semmni + 1) 0
        (fun _ => ⟨false, 0, 0, 0, 0⟩) (fun _ => ⟨0, 0, 0, 0⟩) 0 = (sema, sem, state.semtot)) :
      Moves state (.realloc newsemmni newsemmns newsemmnu allocated)
        ⟨newsemmni.toNat, newsemmns.toNat, newsemmnu.toNat, sema, sem, state.semtot,
          state.semu_list.reverse, false⟩
  | exitStays {p : Nat} (absent : findUndo p state.semu_list = none) :
      Moves state (.exit p) state
  | exit {p : Nat} {ents : List UndoEntry} {sem : Nat → Sem}
      (found : findUndo p state.semu_list = some ents)
      (exits : exitLoop state.sema ents state.sem = some sem) :
      Moves state (.exit p) { state with sem := sem, semu_list := removeUndo p state.semu_list }
  | semopStays {part : Section} {error : Errno} (out : ¬ part.Enters state)
      (isOutcome : part.run state = some (.failed error state)) : Moves state (.semop part) state
  | semopEnds {sleep : Sleep} (isThere : (state.sema sleep.semid).alloc = true ∧
        (state.sema sleep.semid).seq = sleep.seq)
      (isOutcome : semopWake state sleep true = some (.failed .eintr (resumed state sleep))) :
      Moves state (.semop (.resume sleep true)) (resumed state sleep)
  | semop {part : Section} {outcome : Outcome} (enters : part.Enters state)
      (isOutcome : part.run state = some outcome)
      (tried : Tried (part.before state) part.proc part.semid part.sops part.do_undos outcome) :
      Moves state (.semop part) outcome.after

section Moves

variable {st : State}

theorem Right.resumed (right : Right st) (sleep : Sleep) : Right (resumed st sleep) :=
  ⟨Within.of_semval right.values (semval_countWaiter _ _ _), right.undos⟩

theorem Right.before (right : Right st) (part : Section) : Right (part.before st) := by
  cases part with
  | start rq => exact right
  | resume sleep intr => exact right.resumed sleep

/-- A section tries, is refused, or was interrupted in its sleep. -/
theorem Section.run_spec (right : Right st) (part : Section) :
    (part.Enters st ∧ ∃ outcome, part.run st = some outcome ∧
      Tried (part.before st) part.proc part.semid part.sops part.do_undos outcome) ∨
    (¬ part.Enters st ∧ ∃ error, part.run st = some (.failed error st) ∧
      (error = .eidrm ∨ part.before st = st)) ∨
    (∃ sleep, part = .resume sleep true ∧ ((st.sema sleep.semid).alloc = true ∧
      (st.sema sleep.semid).seq = sleep.seq) ∧
      part.run st = some (.failed .eintr (SysvSem.resumed st sleep))) := by
  cases part with
  | start rq =>
    cases isChecked : semopCheck st rq with
    | some error =>
      refine .inr (.inl ⟨fun enters => ?_, error, ?_, Or.inr rfl⟩)
      · exact absurd (isChecked.symm.trans enters) (Option.some_ne_none _)
      · show sysSemop st rq = _
        unfold sysSemop
        rw [isChecked]
    | none =>
      obtain ⟨outcome, out, tried⟩ :=
        semopTry_spec right rq.proc (ipcidToIx rq.semid) rq.sops false
      refine .inl ⟨isChecked, outcome, ?_, tried⟩
      show sysSemop st rq = _
      unfold sysSemop
      rw [isChecked]
      exact out
  | resume sleep intr =>
    by_cases gone : (st.sema sleep.semid).alloc = false ∨
        (st.sema sleep.semid).seq ≠ sleep.seq
    · refine .inr (.inl ⟨fun enters => ?_, .eidrm, ?_, Or.inl rfl⟩)
      · rcases gone with freed | reused
        · rw [enters.1.1] at freed
          cases freed
        · exact reused enters.1.2
      · show semopWake st sleep intr = _
        unfold semopWake
        rw [if_pos gone]
    have isWake : semopWake st sleep intr =
        if intr then some (.failed .eintr (SysvSem.resumed st sleep))
        else semopTry (SysvSem.resumed st sleep) sleep.proc sleep.semid sleep.sops
          sleep.do_undos := by
      unfold semopWake
      rw [if_neg gone]
      rfl
    rw [not_or, Bool.not_eq_false, not_ne_iff] at gone
    cases intr with
    | true => exact .inr (.inr ⟨sleep, rfl, gone, isWake⟩)
    | false =>
      obtain ⟨outcome, out, tried⟩ := semopTry_spec (right.resumed sleep) sleep.proc
        sleep.semid sleep.sops sleep.do_undos
      exact .inl ⟨⟨gone, rfl⟩, outcome, isWake.trans out, tried⟩

/-- What one event can do to the sets. -/
theorem moves_of_step (right : Right st) {event : Event} (moved : step st event = some s') :
    Moves st event s' := by
  cases event with
  | get get =>
    obtain rfl := Option.some.inj moved
    cases ok : sysSemget st get with
    | error error => exact .getStays get
    | ok res =>
      show Moves st _ res.1
      rcases sysSemget_ok ok with same | ⟨semid, pos, few, rm, free, aft⟩
      · rw [same]
        exact .getStays get
      · rw [aft]
        exact .getMakes pos few rm free
  | rmid semid ipcperm =>
    obtain rfl := Option.some.inj moved
    cases ok : semctlRmid st semid ipcperm with
    | error error => exact .rmidFails ok
    | ok gone =>
      obtain ⟨chk, rfl⟩ := semctlRmid_ok ok
      exact .rmid ok chk
  | setval semid semnum val ipcperm =>
    obtain rfl := Option.some.inj moved
    cases ok : semctlSetval st semid semnum val ipcperm with
    | error error => exact .setvalFails ok
    | ok set =>
      obtain ⟨chk, nn, lt, low, high, aft⟩ := semctlSetval_ok ok
      exact .setval ok chk (by omega) low high aft
  | setall semid array ipcperm =>
    obtain rfl := Option.some.inj moved
    cases ok : semctlSetall st semid array ipcperm with
    | error error => exact .setallFails ok
    | ok res =>
      obtain ⟨chk, aft⟩ := semctlSetall_ok ok
      exact .setall ok chk aft
  | realloc newsemmni newsemmns newsemmnu alloc =>
    obtain ⟨res, ok, rfl⟩ := Option.map_eq_some_iff.mp moved
    rcases semrealloc_some ok with (same | marked) | ⟨last, total, rm, sema, sem, copy, new⟩
    · rw [same]
      exact .reallocStays
    · rw [marked]
      exact .reallocMarks
    · rw [new]
      exact .realloc last total rm copy
  | exit p =>
    obtain ⟨res, exits, rfl⟩ := Option.map_eq_some_iff.mp moved
    rcases semexit_some exits with ⟨miss, same, _⟩ | ⟨ents, sem, fnd, exits, _, aft⟩
    · rw [same]
      exact .exitStays miss
    · rw [aft]
      exact .exit fnd exits
  | semop part =>
    obtain ⟨outcome, isOutcome, rfl⟩ := Option.map_eq_some_iff.mp moved
    rcases part.run_spec right with ⟨enters, tried, isTried, spec⟩ | ⟨out, error, fail, _⟩ |
      ⟨sleep, rfl, isThere, fail⟩
    · rw [isOutcome] at isTried
      obtain rfl := Option.some.inj isTried
      exact .semop enters isOutcome spec
    · rw [isOutcome] at fail
      obtain rfl := Option.some.inj fail
      exact .semopStays out isOutcome
    · rw [isOutcome] at fail
      obtain rfl := Option.some.inj fail
      exact .semopEnds isThere isOutcome

theorem Moves.right (right : Right st) {event : Event} (moves : Moves st event s') :
    Right s' := by
  cases moves with
  | getStays | rmidFails | setvalFails | setallFails | reallocStays | exitStays | semopStays =>
    exact right
  | getMakes pos few rm free => exact ⟨addSet_within right.values (by decide) _ _ _, right.undos⟩
  | rmid ok chk => exact ⟨compact_within right.values _ _ _, right.undos.clear _ _⟩
  | setval ok chk lt low high aft =>
    rw [aft]
    exact ⟨Within.setVal right.values low (ushort_bounds _).2 _, right.undos.clear _ _⟩
  | setall ok chk aft =>
    rw [aft]
    exact ⟨setallLoop_within right.values (by decide) _ _ _, right.undos.clear _ _⟩
  | reallocMarks => exact ⟨right.values, right.undos⟩
  | realloc last total rm copy =>
    have bnd := copySets_within st right.values (lastSet st.sema st.semmni + 1) 0
      (fun _ => ⟨false, 0, 0, 0, 0⟩) (within_zero (by decide)) 0
    rw [copy] at bnd
    exact ⟨bnd, right.undos.reverse (by dsimp only; omega)⟩
  | exit fnd exits => exact ⟨exitLoop_inRange right.values _ _ exits, right.undos.removeUndo _⟩
  | semopEnds isAt out => exact right.resumed _
  | semop enters out tried => exact tried.right (right.before _)

theorem right_consume (events : List Event) (right : Right st) {got : State}
    (eaten : consume step events st = some got) : Right got := by
  induction events generalizing st with
  | nil =>
    obtain rfl := Option.some.inj eaten
    exact right
  | cons event tl ih =>
    obtain ⟨s', moved, eaten⟩ := Option.bind_eq_some_iff.mp eaten
    exact ih ((moves_of_step right moved).right right) eaten

theorem right_seminit : Right seminit where
  values := within_zero (by decide)
  undos :=
    { procs := List.nodup_nil
      vectors := fun suptr isIn => by cases isIn
      room := Nat.zero_le _ }

end Moves

end NetBSD.Kern.SysvSem
