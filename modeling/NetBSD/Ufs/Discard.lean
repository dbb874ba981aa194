import NetBSD.Machine.Tally
import NetBSD.Machine.Trace

/-!
Owns the batches of freed ranges that `ffs_blkfree` collects for a discard, in
`ufs/ffs/ffs_alloc.c`. A thread goes through two critical sections, and a record that no other
thread can reach is in its hands between them. A queued record goes to `ffs_discardcb`.
-/

namespace NetBSD.Ufs

open NetBSD.Machine List

section Model

/-- `struct discardopdata`: the first fragment and the bytes. -/
structure DiscardOpData where
  bno : Nat
  size : Nat
deriving DecidableEq, Repr

/-- `maxsize` of `struct discarddata` and the bytes of a fragment. -/
structure DiscardLimits where
  maxsize : Nat
  fs_fsize : Nat
  fs_fsize_pos : 0 < fs_fsize

def DiscardLimits.numfrags (limits : DiscardLimits) (size : Nat) : Nat := size / limits.fs_fsize

/-- Where a thread is in `ffs_blkfree`, with its `bno`, `size` and `td`. -/
inductive FreeThread where
  | outside
  | entering (bno size : Nat)
  | enqueueOld (td : DiscardOpData) (bno size : Nat)
  | allocating (bno size : Nat)
  | placing (td : DiscardOpData)
  | enqueueNew (td : DiscardOpData)
deriving DecidableEq, Repr

structure DiscardState where
  entry : Option DiscardOpData
  queue : List DiscardOpData
  handed : List DiscardOpData
  threads : List FreeThread
  passed : List DiscardOpData
deriving DecidableEq, Repr

/-- A thread calls `ffs_blkfree` and passes its checks, goes on, or a record is taken off the
queue. -/
inductive DiscardEvent where
  | call (thread bno size : Nat)
  | resume (thread : Nat)
  | work
deriving DecidableEq, Repr

def DiscardState.goto (state : DiscardState) (thread : Nat) (place : FreeThread) : DiscardState :=
  { state with threads := state.threads.set thread place }

/-- `if (!size) return`, and else the allocation. -/
def unlessDone (bno size : Nat) : FreeThread := if size = 0 then .outside else .allocating bno size

/-- The first critical section of `ffs_blkfree`. -/
def blkfreeEnter (limits : DiscardLimits) (state : DiscardState) (thread bno size : Nat) :
    DiscardState :=
  match state.entry with
  | none => state.goto thread (unlessDone bno size)
  | some td =>
    if td.bno = bno + limits.numfrags size ∧ td.size + size ≤ limits.maxsize then
      let td := ⟨bno, td.size + size⟩
      if td.size < limits.maxsize then { state with entry := some td }.goto thread .outside
      else { state with entry := none }.goto thread (.enqueueOld td bno 0)
    else { state with entry := none }.goto thread (.enqueueOld td bno size)

def blkfreePlace (state : DiscardState) (thread : Nat) (td : DiscardOpData) : DiscardState :=
  match state.entry with
  | none => { state with entry := some td }.goto thread .outside
  | some _ => state.goto thread (.enqueueNew td)

def blkfreeResume (limits : DiscardLimits) (state : DiscardState) (thread : Nat) :
    FreeThread → Option DiscardState
  | .outside => none
  | .entering bno size => some (blkfreeEnter limits state thread bno size)
  | .enqueueOld td bno size =>
    some ({ state with queue := state.queue ++ [td] }.goto thread (unlessDone bno size))
  | .allocating bno size =>
    let td := ⟨bno, size⟩
    some (state.goto thread (if td.size < limits.maxsize then .placing td else .enqueueNew td))
  | .placing td => some (blkfreePlace state thread td)
  | .enqueueNew td => some ({ state with queue := state.queue ++ [td] }.goto thread .outside)

def discardStep (limits : DiscardLimits) (state : DiscardState) : DiscardEvent → Option DiscardState
  | .call thread bno size =>
    if state.threads[thread]? = some .outside ∧ size % limits.fs_fsize = 0 then
      some ({ state with passed := ⟨bno, size⟩ :: state.passed }.goto thread (.entering bno size))
    else none
  | .resume thread => state.threads[thread]?.bind (blkfreeResume limits state thread)
  | .work =>
    match state.queue with
    | [] => none
    | td :: queue => some { state with queue, handed := td :: state.handed }

/-- Threads outside, and nothing freed yet. -/
def discardStart (count : Nat) : DiscardState := ⟨none, [], [], List.replicate count .outside, []⟩

end Model

section Places

variable (limits : DiscardLimits)

/-- A fragment is in the range of a record. -/
def Covers (td : DiscardOpData) (frag : Nat) : Prop :=
  td.bno ≤ frag ∧ frag < td.bno + limits.numfrags td.size

def coverage (frag : Nat) (td : DiscardOpData) : Nat :=
  if td.bno ≤ frag ∧ frag < td.bno + limits.numfrags td.size then 1 else 0

/-- The record in the hands of a thread, and its range when that is not in a record yet. -/
def FreeThread.held : FreeThread → List DiscardOpData
  | .outside => []
  | .entering bno size => [⟨bno, size⟩]
  | .enqueueOld td bno size => [td, ⟨bno, size⟩]
  | .allocating bno size => [⟨bno, size⟩]
  | .placing td => [td]
  | .enqueueNew td => [td]

/-- The records with a fragment in the entry, in the queue, in the hands of the free routine and in
the hands of threads. -/
def DiscardState.inEntry (state : DiscardState) (frag : Nat) : Nat :=
  tally (coverage limits frag) state.entry.toList
def DiscardState.inQueue (state : DiscardState) (frag : Nat) : Nat :=
  tally (coverage limits frag) state.queue
def DiscardState.inRoutine (state : DiscardState) (frag : Nat) : Nat :=
  tally (coverage limits frag) state.handed
def DiscardState.inHands (state : DiscardState) (frag : Nat) : Nat :=
  tally (fun thread => tally (coverage limits frag) thread.held) state.threads

def Apart (first second : DiscardOpData) : Prop :=
  ∀ frag, ¬ (Covers limits first frag ∧ Covers limits second frag)

end Places

section Invariant

variable {limits : DiscardLimits}

/-- A record in the hands of a thread is of a size that may be queued from there. -/
def FreeThread.Fits (limits : DiscardLimits) (passed : List DiscardOpData) : FreeThread → Prop
  | .outside => True
  | .entering bno size => ⟨bno, size⟩ ∈ passed
  | .enqueueOld td bno size => td.size ≤ limits.maxsize ∧ (size = 0 ∨ ⟨bno, size⟩ ∈ passed)
  | .allocating bno size => ⟨bno, size⟩ ∈ passed
  | .placing td => td.size < limits.maxsize
  | .enqueueNew td => td.size ≤ limits.maxsize ∨ td ∈ passed

/-- Each fragment that was passed is in as many places as it was passed, and sizes are whole. -/
structure Batched (limits : DiscardLimits) (state : DiscardState) : Prop where
  places : ∀ frag, state.inEntry limits frag + state.inQueue limits frag +
    state.inRoutine limits frag + state.inHands limits frag =
      tally (coverage limits frag) state.passed
  entrySmall : ∀ td, state.entry = some td → td.size < limits.maxsize
  queueSmall : ∀ td ∈ state.queue, td.size ≤ limits.maxsize ∨ td ∈ state.passed
  threadsFit : ∀ thread ∈ state.threads, thread.Fits limits state.passed
  entryWhole : ∀ td, state.entry = some td → td.size % limits.fs_fsize = 0
  threadsWhole : ∀ thread ∈ state.threads, ∀ td ∈ thread.held, td.size % limits.fs_fsize = 0

theorem coverage_empty (frag bno : Nat) : coverage limits frag ⟨bno, 0⟩ = 0 := by
  unfold coverage DiscardLimits.numfrags
  rw [Nat.zero_div]
  exact if_neg fun bnd => absurd bnd.2 (by omega)

theorem coverage_prepend {td : DiscardOpData} {bno size : Nat} (frag : Nat)
    (isFront : td.bno = bno + limits.numfrags size) (whole : size % limits.fs_fsize = 0) :
    coverage limits frag ⟨bno, td.size + size⟩ =
      coverage limits frag td + coverage limits frag ⟨bno, size⟩ := by
  have split : limits.numfrags (td.size + size) = limits.numfrags td.size + limits.numfrags size := by
    obtain ⟨cnt, rfl⟩ := Nat.dvd_of_mod_eq_zero whole
    unfold DiscardLimits.numfrags
    rw [Nat.add_mul_div_left _ _ limits.fs_fsize_pos, Nat.mul_div_cancel_left _ limits.fs_fsize_pos]
  unfold coverage
  dsimp only
  split <;> split <;> split <;> omega

variable {state after : DiscardState}

theorem inHands_goto {thread : Nat} {plc : FreeThread} (isAt : state.threads[thread]? = some plc)
    (next : FreeThread) (frag : Nat) :
    (state.goto thread next).inHands limits frag + tally (coverage limits frag) plc.held =
      state.inHands limits frag + tally (coverage limits frag) next.held := tally_set isAt next

/-- A step is right when the coverage it takes and gives balances. -/
theorem Batched.move {thread : Nat} {plc next : FreeThread} {entry : Option DiscardOpData}
    {queue : List DiscardOpData} (batched : Batched limits state)
    (isAt : state.threads[thread]? = some plc)
    (balance : ∀ frag, tally (coverage limits frag) entry.toList + tally (coverage limits frag) queue +
      tally (coverage limits frag) next.held = state.inEntry limits frag + state.inQueue limits frag +
        tally (coverage limits frag) plc.held)
    (entryFine : ∀ td, entry = some td → td.size < limits.maxsize ∧ td.size % limits.fs_fsize = 0)
    (queueSmall : ∀ td ∈ queue, td.size ≤ limits.maxsize ∨ td ∈ state.passed)
    (fits : next.Fits limits state.passed)
    (whole : ∀ td ∈ next.held, td.size % limits.fs_fsize = 0) :
    Batched limits ({ state with entry, queue }.goto thread next) := by
  constructor
  · intro frag
    have prev := batched.places frag
    have hands := @inHands_goto limits { state with entry, queue } thread plc isAt next frag
    have bal := balance frag
    have isHands : ({ state with entry, queue } : DiscardState).inHands limits frag =
        state.inHands limits frag := rfl
    have ent : ({ state with entry, queue }.goto thread next).inEntry limits frag =
        tally (coverage limits frag) entry.toList := rfl
    have isQueue : ({ state with entry, queue }.goto thread next).inQueue limits frag =
        tally (coverage limits frag) queue := rfl
    have isRoutine : ({ state with entry, queue }.goto thread next).inRoutine limits frag =
        state.inRoutine limits frag := rfl
    show _ = tally (coverage limits frag) state.passed
    rw [isRoutine]
    omega
  · exact fun td ent => (entryFine td ent).1
  · exact queueSmall
  · intro other isIn
    rcases mem_or_eq_of_mem_set isIn with isOld | rfl
    · exact batched.threadsFit other isOld
    · exact fits
  · exact fun td ent => (entryFine td ent).2
  · intro other isIn
    rcases mem_or_eq_of_mem_set isIn with isOld | rfl
    · exact batched.threadsWhole other isOld
    · exact whole

theorem Batched.goto {thread : Nat} {plc next : FreeThread} (batched : Batched limits state)
    (isAt : state.threads[thread]? = some plc)
    (balance : ∀ frag, tally (coverage limits frag) next.held =
      tally (coverage limits frag) plc.held)
    (fits : next.Fits limits state.passed)
    (whole : ∀ td ∈ next.held, td.size % limits.fs_fsize = 0) :
    Batched limits (state.goto thread next) :=
  batched.move isAt (fun frag => congrArg _ (balance frag))
    (fun td ent => ⟨batched.entrySmall td ent, batched.entryWhole td ent⟩)
    batched.queueSmall fits whole

theorem held_unlessDone (bno size frag : Nat) :
    tally (coverage limits frag) (unlessDone bno size).held = coverage limits frag ⟨bno, size⟩ := by
  unfold unlessDone
  by_cases done : size = 0
  · rw [done, coverage_empty]
    rfl
  · rw [if_neg done]
    rfl

theorem fits_unlessDone {past : List DiscardOpData} {bno size : Nat}
    (isPassed : size = 0 ∨ ⟨bno, size⟩ ∈ past) : (unlessDone bno size).Fits limits past := by
  unfold unlessDone
  by_cases done : size = 0
  · rw [if_pos done]
    trivial
  · rw [if_neg done]
    exact isPassed.resolve_left done

theorem whole_unlessDone {bno size : Nat} (whole : size % limits.fs_fsize = 0) :
    ∀ td ∈ (unlessDone bno size).held, td.size % limits.fs_fsize = 0 := by
  unfold unlessDone
  by_cases done : size = 0
  · rw [if_pos done]
    exact fun td isIn => absurd isIn not_mem_nil
  · rw [if_neg done]
    intro td isIn
    rw [mem_singleton.mp isIn]
    exact whole

section

variable (batched : Batched limits state)

include batched

/-- The step in which a free of blocks enters. -/
theorem Batched.enter {thread bno size : Nat}
    (isAt : state.threads[thread]? = some (.entering bno size)) :
    Batched limits (blkfreeEnter limits state thread bno size) := by
  have isThread := mem_of_getElem? isAt
  have isPassed := batched.threadsFit _ isThread
  have whole : size % limits.fs_fsize = 0 :=
    batched.threadsWhole _ isThread ⟨bno, size⟩ (mem_singleton_self _)
  unfold blkfreeEnter
  cases isEntry : state.entry with
  | none =>
    exact batched.goto isAt (fun frag => held_unlessDone bno size frag)
      (fits_unlessDone (.inr isPassed)) (whole_unlessDone whole)
  | some td =>
    have isInEntry (frag : Nat) : state.inEntry limits frag = coverage limits frag td := by
      unfold DiscardState.inEntry
      rw [isEntry]
      rfl
    have sml := batched.entrySmall td isEntry
    have wholeEntry := batched.entryWhole td isEntry
    dsimp only
    by_cases isFront : td.bno = bno + limits.numfrags size ∧ td.size + size ≤ limits.maxsize
    · rw [if_pos isFront]
      have prepend (frag : Nat) := coverage_prepend frag isFront.1 whole
      have wholeBoth : (td.size + size) % limits.fs_fsize = 0 := by
        rw [Nat.add_mod, wholeEntry, whole, Nat.zero_mod]
      by_cases isSmall : td.size + size < limits.maxsize
      · rw [if_pos isSmall]
        apply batched.move isAt
        · intro frag
          rw [isInEntry]
          have added := prepend frag
          show coverage limits frag ⟨bno, td.size + size⟩ + state.inQueue limits frag + 0 =
            _ + coverage limits frag ⟨bno, size⟩
          omega
        · intro other oth
          cases oth
          exact ⟨isSmall, wholeBoth⟩
        · exact batched.queueSmall
        · trivial
        · exact fun td isIn => absurd isIn not_mem_nil
      rw [if_neg isSmall]
      apply batched.move isAt
      · intro frag
        rw [isInEntry]
        have added := prepend frag
        have nothing : coverage limits frag ⟨bno, 0⟩ = 0 := coverage_empty frag bno
        show 0 + state.inQueue limits frag + (coverage limits frag ⟨bno, td.size + size⟩ +
          (coverage limits frag ⟨bno, 0⟩ + 0)) = _ + coverage limits frag ⟨bno, size⟩
        omega
      · intro other oth
        cases oth
      · exact batched.queueSmall
      · exact ⟨isFront.2, .inl rfl⟩
      · intro other isIn
        rcases mem_pair.mp isIn with rfl | rfl
        · exact wholeBoth
        · exact Nat.zero_mod _
    · rw [if_neg isFront]
      apply batched.move isAt
      · intro frag
        rw [isInEntry]
        show 0 + state.inQueue limits frag + (coverage limits frag td +
          (coverage limits frag ⟨bno, size⟩ + 0)) = _ + coverage limits frag ⟨bno, size⟩
        omega
      · intro other oth
        cases oth
      · exact batched.queueSmall
      · exact ⟨sml.le, .inr isPassed⟩
      · intro other isIn
        rcases mem_pair.mp isIn with rfl | rfl
        · exact wholeEntry
        · exact whole

theorem Batched.place {thread : Nat} {td : DiscardOpData}
    (isAt : state.threads[thread]? = some (.placing td)) :
    Batched limits (blkfreePlace state thread td) := by
  have isThread := mem_of_getElem? isAt
  have sml := batched.threadsFit _ isThread
  have whole := batched.threadsWhole _ isThread td (mem_singleton_self td)
  unfold blkfreePlace
  cases isEntry : state.entry with
  | none =>
    apply batched.move isAt
    · intro frag
      have isInEntry : state.inEntry limits frag = 0 := by
        unfold DiscardState.inEntry
        rw [isEntry]
        rfl
      rw [isInEntry]
      show coverage limits frag td + state.inQueue limits frag + 0 =
        0 + state.inQueue limits frag + coverage limits frag td
      omega
    · intro other oth
      cases oth
      exact ⟨sml, whole⟩
    · exact batched.queueSmall
    · trivial
    · exact fun td isIn => absurd isIn not_mem_nil
  | some other =>
    apply batched.goto isAt
    · exact fun frag => rfl
    · exact .inl (le_of_lt sml)
    · intro other isIn
      rw [mem_singleton.mp isIn]
      exact whole

theorem Batched.enqueue {thread : Nat} {plc next : FreeThread} {td : DiscardOpData}
    (isAt : state.threads[thread]? = some plc)
    (isHeld : ∀ frag, tally (coverage limits frag) plc.held =
      coverage limits frag td + tally (coverage limits frag) next.held)
    (sml : td.size ≤ limits.maxsize ∨ td ∈ state.passed) (fits : next.Fits limits state.passed)
    (whole : ∀ td ∈ next.held, td.size % limits.fs_fsize = 0) :
    Batched limits ({ state with queue := state.queue ++ [td] }.goto thread next) := by
  apply batched.move isAt
  · intro frag
    rw [isHeld, tally_append, tally_cons, tally_nil]
    show state.inEntry limits frag + (state.inQueue limits frag + _) + _ = _
    omega
  · exact fun td ent => ⟨batched.entrySmall td ent, batched.entryWhole td ent⟩
  · intro other isIn
    rcases mem_append.mp isIn with isOld | isNew
    · exact batched.queueSmall other isOld
    · rw [mem_singleton.mp isNew]
      exact sml
  · exact fits
  · exact whole

/-- Any thread may go on next. -/
theorem Batched.resume {thread : Nat} {plc : FreeThread}
    (isAt : state.threads[thread]? = some plc)
    (res : blkfreeResume limits state thread plc = some after) : Batched limits after := by
  have isThread := mem_of_getElem? isAt
  have fits := batched.threadsFit _ isThread
  have whole := batched.threadsWhole _ isThread
  cases plc with
  | outside => cases res
  | entering bno size =>
    cases res
    exact batched.enter isAt
  | enqueueOld td bno size =>
    cases res
    apply batched.enqueue isAt
    · intro frag
      rw [held_unlessDone]
      rfl
    · exact .inl fits.1
    · exact fits_unlessDone fits.2
    · exact whole_unlessDone (whole ⟨bno, size⟩ (mem_cons_of_mem _ (mem_singleton_self _)))
  | allocating bno size =>
    cases res
    by_cases isSmall : size < limits.maxsize
    · rw [if_pos isSmall]
      exact batched.goto isAt (fun frag => rfl) isSmall whole
    · rw [if_neg isSmall]
      exact batched.goto isAt (fun frag => rfl) (.inr fits) whole
  | placing td =>
    cases res
    exact batched.place isAt
  | enqueueNew td =>
    cases res
    apply batched.enqueue isAt
    · exact fun frag => rfl
    · exact fits
    · trivial
    · exact fun td isIn => absurd isIn not_mem_nil

end

theorem FreeThread.Fits.mono {past : List DiscardOpData} {thread : FreeThread}
    (fits : thread.Fits limits past) (fresh : DiscardOpData) :
    thread.Fits limits (fresh :: past) := by
  cases thread with
  | outside => trivial
  | entering | allocating => exact mem_cons_of_mem _ fits
  | enqueueOld td bno size => exact ⟨fits.1, fits.2.imp_right (mem_cons_of_mem _)⟩
  | placing td => exact fits
  | enqueueNew td => exact fits.imp_right (mem_cons_of_mem _)

theorem Batched.called {thread bno size : Nat} (batched : Batched limits state)
    (isAt : state.threads[thread]? = some .outside) (whole : size % limits.fs_fsize = 0) :
    Batched limits ({ state with passed := ⟨bno, size⟩ :: state.passed }.goto thread
      (.entering bno size)) := by
  constructor
  · intro frag
    have prev := batched.places frag
    have hands := @inHands_goto limits state thread .outside isAt (.entering bno size) frag
    show state.inEntry limits frag + state.inQueue limits frag + state.inRoutine limits frag +
      (state.goto thread (.entering bno size)).inHands limits frag =
        coverage limits frag ⟨bno, size⟩ + tally (coverage limits frag) state.passed
    have isNew : tally (coverage limits frag) (FreeThread.entering bno size).held =
        coverage limits frag ⟨bno, size⟩ := rfl
    have isOld : tally (coverage limits frag) FreeThread.outside.held = 0 := rfl
    omega
  · exact batched.entrySmall
  · exact fun td isIn => (batched.queueSmall td isIn).imp_right (mem_cons_of_mem _)
  · intro other isIn
    rcases mem_or_eq_of_mem_set isIn with isOld | rfl
    · exact (batched.threadsFit other isOld).mono _
    · exact mem_cons_self
  · exact batched.entryWhole
  · intro other isIn
    rcases mem_or_eq_of_mem_set isIn with isOld | rfl
    · exact batched.threadsWhole other isOld
    · intro td isHeld
      rw [mem_singleton.mp isHeld]
      exact whole

theorem Batched.worked {td : DiscardOpData} {queue : List DiscardOpData}
    (batched : Batched limits state) (isQueue : state.queue = td :: queue) :
    Batched limits { state with queue, handed := td :: state.handed } := by
  constructor
  · intro frag
    have prev := batched.places frag
    have isInQueue : state.inQueue limits frag =
        coverage limits frag td + tally (coverage limits frag) queue := by
      unfold DiscardState.inQueue
      rw [isQueue]
      rfl
    show state.inEntry limits frag + tally (coverage limits frag) queue +
      (coverage limits frag td + state.inRoutine limits frag) + state.inHands limits frag =
        tally (coverage limits frag) state.passed
    omega
  · exact batched.entrySmall
  · intro other isIn
    apply batched.queueSmall other
    rw [isQueue]
    exact mem_cons_of_mem _ isIn
  · exact batched.threadsFit
  · exact batched.entryWhole
  · exact batched.threadsWhole

theorem Batched.step {event : DiscardEvent} (batched : Batched limits state)
    (move : discardStep limits state event = some after) : Batched limits after := by
  cases event with
  | call thread bno size =>
    unfold discardStep at move
    dsimp only at move
    split at move
    · rename_i isReady
      cases move
      exact batched.called isReady.1 isReady.2
    · cases move
  | resume thread =>
    obtain ⟨plc, isAt, res⟩ := Option.bind_eq_some_iff.mp move
    exact batched.resume isAt res
  | work =>
    unfold discardStep at move
    dsimp only at move
    split at move
    · cases move
    · rename_i td queue isQueue
      cases move
      exact batched.worked isQueue

theorem tally_outside {meas : FreeThread → Nat} (cnt : Nat)
    (eq0 : meas .outside = 0) : tally meas (List.replicate cnt .outside) = 0 := by
  induction cnt with
  | zero => rfl
  | succ cnt ih =>
    rw [replicate_succ, tally_cons, eq0, ih]

theorem batched_start (cnt : Nat) : Batched limits (discardStart cnt) := by
  constructor
  · intro frag
    show 0 + (discardStart cnt).inHands limits frag = 0
    rw [zero_add]
    exact tally_outside cnt rfl
  · exact fun td ent => by cases ent
  · exact fun td isIn => absurd isIn not_mem_nil
  · intro thread isIn
    rw [eq_of_mem_replicate isIn]
    trivial
  · exact fun td ent => by cases ent
  · intro thread isIn td isHeld
    rw [eq_of_mem_replicate isIn] at isHeld
    exact absurd isHeld not_mem_nil

theorem coverage_apart {past : List DiscardOpData} (apart : past.Pairwise (Apart limits))
    (frag : Nat) : tally (coverage limits frag) past ≤ 1 ∧
      (tally (coverage limits frag) past = 1 ↔ ∃ td ∈ past, Covers limits td frag) := by
  induction past with
  | nil =>
    refine ⟨Nat.zero_le 1, fun isOne => (by cases isOne), ?_⟩
    rintro ⟨td, isIn, _⟩
    exact absurd isIn not_mem_nil
  | cons head tail ih =>
    obtain ⟨fromHead, apartTail⟩ := pairwise_cons.mp apart
    obtain ⟨le, isOne⟩ := ih apartTail
    rw [tally_cons]
    by_cases cov : Covers limits head frag
    · have hd : coverage limits frag head = 1 := if_pos cov
      have notTail : ¬ ∃ td ∈ tail, Covers limits td frag := by
        rintro ⟨td, isIn, isCovered⟩
        exact fromHead td isIn frag ⟨cov, isCovered⟩
      have zero : tally (coverage limits frag) tail = 0 := by
        have notOne : tally (coverage limits frag) tail ≠ 1 := fun one => notTail (isOne.mp one)
        omega
      rw [hd, zero]
      exact ⟨le_refl 1, fun _ => ⟨head, mem_cons_self, cov⟩, fun _ => rfl⟩
    have hd : coverage limits frag head = 0 := if_neg cov
    rw [hd, zero_add]
    refine ⟨le, isOne.trans ?_⟩
    constructor
    · rintro ⟨td, isIn, isCovered⟩
      exact ⟨td, mem_cons_of_mem _ isIn, isCovered⟩
    · rintro ⟨td, isIn, isCovered⟩
      rcases mem_cons.mp isIn with rfl | isTail
      · exact absurd isCovered cov
      · exact ⟨td, isTail, isCovered⟩

end Invariant

section Runs

/-- In every reachable state each fragment that was passed is in exactly one place: the entry, one
queued record, the free routine, or the hands of one thread that is still in `ffs_blkfree`. No place
has a fragment that was not passed, and a queued record is not above the limit unless it is a single
request. -/
theorem blkfree_places (limits : DiscardLimits) (count : Nat) (events : List DiscardEvent)
    (reached : DiscardState)
    (consumed : consume (discardStep limits) events (discardStart count) = some reached)
    (apart : reached.passed.Pairwise (Apart limits)) :
    (∀ frag, reached.inEntry limits frag + reached.inQueue limits frag +
        reached.inRoutine limits frag + reached.inHands limits frag ≤ 1 ∧
      (reached.inEntry limits frag + reached.inQueue limits frag +
        reached.inRoutine limits frag + reached.inHands limits frag = 1 ↔
          ∃ td ∈ reached.passed, Covers limits td frag)) ∧
    ∀ td ∈ reached.queue, td.size ≤ limits.maxsize ∨ td ∈ reached.passed := by
  have batched : Batched limits reached := consume_safe (discardStep limits) (Batched limits)
    (fun _ _ => True) (fun _ _ _ holds _ stepped => holds.step stepped) events (batched_start count)
    (fun _ _ _ _ _ => trivial) consumed
  refine ⟨fun frag => ?_, batched.queueSmall⟩
  rw [batched.places frag]
  exact coverage_apart apart frag

def smallLimits : DiscardLimits := ⟨102400, 1024, by decide⟩

/-- A second call takes the record of a first call out of the entry. -/
def displacing : List DiscardEvent :=
  [.call 0 8 8192, .resume 0, .resume 0, .resume 0, .call 1 64 8192, .resume 1]

def displaced : DiscardState :=
  ⟨none, [], [], [.outside, .enqueueOld ⟨8, 8192⟩ 64 8192], [⟨64, 8192⟩, ⟨8, 8192⟩]⟩

theorem displaced_apart : displaced.passed.Pairwise (Apart smallLimits) := by
  apply pairwise_pair.mpr
  rintro frag ⟨fst, snd⟩
  unfold Covers DiscardLimits.numfrags smallLimits at fst snd
  dsimp only at fst snd
  omega

/-- The record taken out of the entry is in the second thread's hands, and counted there. -/
theorem blkfree_places_displaced :
    consume (discardStep smallLimits) displacing (discardStart 2) = some displaced ∧
    (∀ frag, displaced.inEntry smallLimits frag + displaced.inQueue smallLimits frag +
        displaced.inRoutine smallLimits frag + displaced.inHands smallLimits frag ≤ 1 ∧
      (displaced.inEntry smallLimits frag + displaced.inQueue smallLimits frag +
        displaced.inRoutine smallLimits frag + displaced.inHands smallLimits frag = 1 ↔
          ∃ td ∈ displaced.passed, Covers smallLimits td frag)) ∧
    ∀ td ∈ displaced.queue, td.size ≤ smallLimits.maxsize ∨ td ∈ displaced.passed :=
  ⟨rfl, blkfree_places smallLimits 2 displacing displaced rfl displaced_apart⟩

/-- The first call has returned, and its fragment 8 is not in the entry, nor in the queue, nor in
the free routine. -/
theorem displaced_nowhere :
    consume (discardStep smallLimits) displacing (discardStart 2) = some displaced ∧
    displaced.threads[0]? = some .outside ∧ (⟨8, 8192⟩ : DiscardOpData) ∈ displaced.passed ∧
    Covers smallLimits ⟨8, 8192⟩ 8 ∧ displaced.inEntry smallLimits 8 = 0 ∧
    displaced.inQueue smallLimits 8 = 0 ∧ displaced.inRoutine smallLimits 8 = 0 :=
  ⟨rfl, rfl, by decide, ⟨by decide, by decide⟩, rfl, rfl, rfl⟩

end Runs

end NetBSD.Ufs
