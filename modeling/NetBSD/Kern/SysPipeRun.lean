import NetBSD.Kern.SysPipe
import NetBSD.Machine.Trace

/-!
Owns what holds of a pipe through calls in any order. A thread is in a section while the others
rest where they are; the long-term lock is held by at most one thread, and only that one reads or
writes the buffer and its indices.
-/

namespace NetBSD.Kern

open NetBSD.Machine List Option Nat PipeState PipeThread

section Invariant

/-- The bytes of the segments in the order of their storing. -/
def PipeState.stream (state : PipeState) : List UInt8 := state.stored.flatMap Prod.snd

def PipeState.segments (state : PipeState) (call : Nat) : List (Nat × List UInt8) :=
  state.stored.filter fun segment => decide (segment.1 = call)

def PipeState.written (state : PipeState) (call : Nat) : List UInt8 :=
  (state.segments call).flatMap Prod.snd

/-- The bytes that readers got, those in the buffer and those copied behind them are the stream with
the copied ones. -/
def PipeState.Streams (state : PipeState) (moved : List UInt8) : Prop :=
  state.delivered ++ ring state.buffer state.size state.out (state.cnt + moved.length) =
    state.stream ++ moved

/-- What holds of the buffer, whoever has the lock. -/
structure Flows (state : PipeState) : Prop where
  sizePos : 0 < state.size
  outBelow : state.out < state.size
  atMost : state.cnt ≤ state.size
  isInp : state.inp = (state.out + state.cnt) % state.size
  streams : state.Streams []
  contiguous : ∀ call thread data, state.calls[call]? = some (thread, data) → data.length ≤ pipeBuf →
    state.segments call = [] ∨ state.segments call = [(call, data)]
  known : ∀ segment ∈ state.stored, segment.1 < state.calls.length
  prefixes : ∀ call thread data, state.calls[call]? = some (thread, data) → state.written call <+: data
  whole : ∀ call thread data, (call, .none) ∈ state.returned →
    state.calls[call]? = some (thread, data) → state.written call = data
  knownEnds : ∀ ended ∈ state.returned, ended.1 < state.calls.length

/-- The thread has the long-term lock. -/
def PipeThread.holds : PipeThread → Bool
  | .readCopy .. => true
  | .readCopied .. => true
  | .writeCopy .. => true
  | .writeWrap .. => true
  | .writeCopied .. => true
  | _ => false

/-- The thread sleeps for the long-term lock, and no wakeup is pending. -/
def PipeThread.awaitsLock : PipeThread → Bool
  | .readLock _ signalled => !signalled
  | .writeLock _ signalled => !signalled
  | .writeRelock _ _ signalled => !signalled
  | _ => false

def PipeThread.awaitsData : PipeThread → Bool
  | .readSleep _ signalled => !signalled
  | _ => false

def PipeThread.writes : PipeThread → Bool
  | .writeSleep .. => true
  | .writeRelock .. => true
  | .writeCopy .. => true
  | .writeWrap .. => true
  | .writeCopied .. => true
  | _ => false

/-- The call of a writer, with its bytes that are not stored. -/
def PipeThread.unstored : PipeThread → Option (Nat × List UInt8)
  | .writeLock uio _ => some (uio.call, uio.rest)
  | .writeSleep uio _ => some (uio.call, uio.rest)
  | .writeRelock uio _ _ => some (uio.call, uio.rest)
  | .writeCopy uio _ _ => some (uio.call, uio.rest)
  | .writeWrap uio _ _ moved => some (uio.call, moved ++ uio.rest)
  | .writeCopied uio _ _ moved => some (uio.call, moved ++ uio.rest)
  | _ => none

/-- The call has not returned and has stored all but the rest; a small one that has bytes left has
stored nothing. -/
def Unstored (state : PipeState) (thread call : Nat) (rest : List UInt8) : Prop :=
  ∃ data, state.calls[call]? = some (thread, data) ∧ state.written call ++ rest = data ∧
    (∀ error, (call, error) ∉ state.returned) ∧
    (rest ≠ [] → data.length ≤ pipeBuf → state.segments call = [])

/-- What a thread with the long-term lock knows of the buffer. -/
def Holding (state : PipeState) : PipeThread → Prop
  | .readCopy _ len => len ≤ state.cnt ∧ state.out + len ≤ state.size
  | .readCopied _ len moved => len ≤ state.cnt ∧ state.out + len ≤ state.size ∧
      moved = span state.buffer state.out len
  | .writeCopy uio len segsize => 0 < len ∧ state.cnt + len ≤ state.size ∧
      segsize = min (state.size - state.inp) len ∧ len ≤ uio.rest.length ∧
      (uio.rest.length ≤ pipeBuf → len = uio.rest.length)
  | .writeWrap uio len segsize moved => state.cnt + len ≤ state.size ∧ moved.length = segsize ∧
      segsize = state.size - state.inp ∧ segsize < len ∧ len ≤ (moved ++ uio.rest).length ∧
      ((moved ++ uio.rest).length ≤ pipeBuf → len = (moved ++ uio.rest).length) ∧
      state.Streams moved
  | .writeCopied uio len segsize moved => 0 < len ∧ state.cnt + len ≤ state.size ∧ moved.length = len ∧
      segsize = min (state.size - state.inp) len ∧
      ((moved ++ uio.rest).length ≤ pipeBuf → uio.rest = []) ∧ state.Streams moved
  | _ => True

/-- A thread is in a section, with the long-term lock or without it, and may be a writer behind its
first `pipelock`. The other threads rest. -/
structure Runs (state : PipeState) (thread : Nat) (mine writes : Bool) : Prop where
  flows : Flows state
  locked : mine = true → state.lockfl = true
  inRange : writes = true → thread < state.threads.length
  alone : ∀ other place, other ≠ thread → state.threads[other]? = some place → place.holds = true →
    state.lockfl = true ∧ mine = false
  one : ∀ first second place rest, first ≠ thread → second ≠ thread →
    state.threads[first]? = some place → state.threads[second]? = some rest →
    place.holds = true → rest.holds = true → first = second
  holding : ∀ other place, other ≠ thread → state.threads[other]? = some place → Holding state place
  unstored : ∀ other place, other ≠ thread → state.threads[other]? = some place →
    ∀ call rest, place.unstored = some (call, rest) → Unstored state other call rest
  lockSleep : ∀ other place, other ≠ thread → state.threads[other]? = some place →
    place.awaitsLock = true → state.lockfl = true ∧ state.lwant = true
  dataSleep : ∀ other place, other ≠ thread → state.threads[other]? = some place →
    place.awaitsData = true → 0 < state.cnt → writes = true ∨ ∃ writer writing, writer ≠ thread ∧
      state.threads[writer]? = some writing ∧ writing.writes = true

def PipeRests (state : PipeState) : Prop := Runs state state.threads.length false false

end Invariant

variable {plc : PipeThread}

section Threads

variable {st s' : PipeState} {td : Nat} {mine writes : Bool}

theorem Holding.of_not_holds (free : plc.holds = false) : Holding st plc := by
  cases plc with
  | readCopy | readCopied | writeCopy | writeWrap | writeCopied => cases free
  | _ => trivial

/-- A wakeup changes nothing but that a sleep ends. -/
structure Wakes (wake : PipeThread → PipeThread) : Prop where
  holds : ∀ place, (wake place).holds = place.holds
  writes : ∀ place, (wake place).writes = place.writes
  unstored : ∀ place, (wake place).unstored = place.unstored
  holding : ∀ state place, Holding state (wake place) = Holding state place
  awaitsLock : ∀ place, (wake place).awaitsLock = true → place.awaitsLock = true
  awaitsData : ∀ place, (wake place).awaitsData = true → place.awaitsData = true

theorem wakes_lock : Wakes wakeLock := by
  constructor
  · intro plc
    cases plc <;> rfl
  · intro plc
    cases plc <;> rfl
  · intro plc
    cases plc <;> rfl
  · intro st plc
    cases plc <;> rfl
  · intro plc wt
    cases plc with
    | readLock | writeLock | writeRelock => cases wt
    | _ => exact wt
  · intro plc wt
    cases plc <;> exact wt

theorem wakes_reader : Wakes wakeReader := by
  constructor
  · intro plc
    cases plc <;> rfl
  · intro plc
    cases plc <;> rfl
  · intro plc
    cases plc <;> rfl
  · intro st plc
    cases plc <;> rfl
  · intro plc wt
    cases plc <;> exact wt
  · intro plc wt
    cases plc with
    | readSleep uio sigd => cases wt
    | _ => exact wt

theorem wakes_writer : Wakes wakeWriter := by
  constructor
  · intro plc
    cases plc <;> rfl
  · intro plc
    cases plc <;> rfl
  · intro plc
    cases plc <;> rfl
  · intro st plc
    cases plc <;> rfl
  · intro plc wt
    cases plc <;> exact wt
  · intro plc wt
    cases plc <;> exact wt

theorem wakeLock_awaits (plc : PipeThread) : plc.wakeLock.awaitsLock = false := by
  cases plc <;> rfl

theorem wakeReader_awaits (plc : PipeThread) : plc.wakeReader.awaitsData = false := by
  cases plc <;> rfl

theorem PipeRests.enter (rests : PipeRests st) (isAt : st.threads[td]? = some plc) :
    Runs st td plc.holds plc.writes ∧ Holding st plc ∧
      ∀ call tl, plc.unstored = some (call, tl) → Unstored st td call tl := by
  have below (oth : Nat) (rsg : PipeThread) (isThere : st.threads[oth]? = some rsg) :
      oth ≠ st.threads.length := Nat.ne_of_lt (List.getElem?_eq_some_iff.mp isThere).1
  have lt := below td plc isAt
  refine ⟨⟨rests.flows, ?_, ?_, ?_, ?_, ?_, ?_, ?_, ?_⟩, rests.holding td plc lt isAt,
    rests.unstored td plc lt isAt⟩
  · exact fun holds => (rests.alone td plc lt isAt holds).1
  · exact fun _ => (List.getElem?_eq_some_iff.mp isAt).1
  · intro oth rsg ne isThere holds
    refine ⟨(rests.alone oth rsg (below oth rsg isThere) isThere holds).1, ?_⟩
    cases mine : plc.holds with
    | false => rfl
    | true =>
      exact absurd (rests.one oth td rsg plc (below oth rsg isThere) lt isThere
        isAt holds mine) ne
  · exact fun first snd one oth _ _ fst h2 => rests.one first snd one oth
      (below first one fst) (below snd oth h2) fst h2
  · exact fun oth rsg _ isThere => rests.holding oth rsg (below oth rsg isThere) isThere
  · exact fun oth rsg _ isThere => rests.unstored oth rsg (below oth rsg isThere) isThere
  · exact fun oth rsg _ isThere => rests.lockSleep oth rsg (below oth rsg isThere) isThere
  · intro oth rsg _ isThere wt some_
    obtain ⟨writer, writing, _, isWriter, writes⟩ := (rests.dataSleep oth rsg
      (below oth rsg isThere) isThere wt some_).resolve_left Bool.false_ne_true
    by_cases same : writer = td
    · left
      subst same
      obtain rfl := some.inj (isAt.symm.trans isWriter)
      exact writes
    · exact .inr ⟨writer, writing, same, isWriter, writes⟩

/-- A thread that stops at `plc` leaves the pipe consistent. -/
theorem Runs.rest (runs : Runs st td mine writes) (holds : plc.holds = true → mine = true)
    (held : Holding st plc)
    (unst : ∀ call tl, plc.unstored = some (call, tl) → Unstored st td call tl)
    (lockSleep : plc.awaitsLock = true → st.lockfl = true ∧ st.lwant = true)
    (dataSleep : plc.awaitsData = true → st.cnt = 0)
    (more : writes = true → plc.writes = true) : PipeRests (st.goto td plc) := by
  have atPlace (oth : Nat) (rsg : PipeThread)
      (isAt : (st.threads.set td plc)[oth]? = some rsg) :
      (oth = td ∧ rsg = plc) ∨ (oth ≠ td ∧ st.threads[oth]? = some rsg) := by
    by_cases same : td = oth
    · subst same
      rw [getElem?_set_self'] at isAt
      cases isOld : st.threads[td]? with
      | none =>
        rw [isOld] at isAt
        cases isAt
      | some old =>
        rw [isOld] at isAt
        exact .inl ⟨rfl, (some.inj isAt).symm⟩
    · rw [getElem?_set_ne same] at isAt
      exact .inr ⟨Ne.symm same, isAt⟩
  constructor
  · exact { runs.flows with }
  · exact nofun
  · exact nofun
  · intro oth rsg _ isAt holdsIt
    rcases atPlace oth rsg isAt with ⟨_, rfl⟩ | ⟨ne, isOld⟩
    · exact ⟨runs.locked (holds holdsIt), rfl⟩
    · exact ⟨(runs.alone oth rsg ne isOld holdsIt).1, rfl⟩
  · intro first snd one two _ _ fst h2 firstHolds secondHolds
    rcases atPlace first one fst with ⟨isMe, rfl⟩ | ⟨ne, isOld⟩
    · rcases atPlace snd two h2 with ⟨isMe', rfl⟩ | ⟨differs', isOld'⟩
      · rw [isMe, isMe']
      · have notMine := (runs.alone snd two differs' isOld' secondHolds).2
        rw [holds firstHolds] at notMine
        cases notMine
    · rcases atPlace snd two h2 with ⟨isMe', rfl⟩ | ⟨differs', isOld'⟩
      · have notMine := (runs.alone first one ne isOld firstHolds).2
        rw [holds secondHolds] at notMine
        cases notMine
      · exact runs.one first snd one two ne differs' isOld isOld' firstHolds secondHolds
  · intro oth rsg _ isAt
    rcases atPlace oth rsg isAt with ⟨_, rfl⟩ | ⟨ne, isOld⟩
    · exact held
    · exact runs.holding oth rsg ne isOld
  · intro oth rsg _ isAt
    rcases atPlace oth rsg isAt with ⟨rfl, rfl⟩ | ⟨ne, isOld⟩
    · exact unst
    · exact runs.unstored oth rsg ne isOld
  · intro oth rsg _ isAt
    rcases atPlace oth rsg isAt with ⟨_, rfl⟩ | ⟨ne, isOld⟩
    · exact lockSleep
    · exact runs.lockSleep oth rsg ne isOld
  · intro oth rsg _ isAt wt some_
    right
    have some_ : 0 < st.cnt := some_
    have len : (st.goto td plc).threads.length = st.threads.length := length_set
    rcases atPlace oth rsg isAt with ⟨_, rfl⟩ | ⟨ne, isOld⟩
    · exact absurd (dataSleep wt) (ne_of_gt some_)
    rcases runs.dataSleep oth rsg ne isOld wt some_ with
      writes | ⟨writer, writing, notMe, isWriter, writes⟩
    · have lt := runs.inRange writes
      refine ⟨td, plc, by omega, ?_, more writes⟩
      exact getElem?_set_self lt
    · have lt := (List.getElem?_eq_some_iff.mp isWriter).1
      refine ⟨writer, writing, by omega, ?_, writes⟩
      exact (getElem?_set_ne (Ne.symm notMe)).trans isWriter

/-- The thread in a section rewrites fields; the buffer and its indices only with the lock. -/
theorem Runs.change (runs : Runs st td mine writes) (sameThreads : s'.threads = st.threads)
    (eqLock : s'.lockfl = st.lockfl) (wants : st.lwant = true → s'.lwant = true)
    (flows : Flows s')
    (held : mine = true ∨ ∀ plc, Holding st plc → Holding s' plc)
    (unst : ∀ oth call tl, oth ≠ td →
      Unstored st oth call tl → Unstored s' oth call tl)
    (cnt : 0 < s'.cnt → 0 < st.cnt ∨ writes = true) : Runs s' td mine writes := by
  constructor
  · exact flows
  · rw [eqLock]
    exact runs.locked
  · rw [sameThreads]
    exact runs.inRange
  · rw [sameThreads, eqLock]
    exact runs.alone
  · rw [sameThreads]
    exact runs.one
  · rw [sameThreads]
    intro oth plc ne isAt
    rcases held with isMine | keeps
    · apply Holding.of_not_holds
      cases holds : plc.holds with
      | false => rfl
      | true =>
        have notMine := (runs.alone oth plc ne isAt holds).2
        rw [isMine] at notMine
        cases notMine
    · exact keeps plc (runs.holding oth plc ne isAt)
  · rw [sameThreads]
    exact fun oth plc ne isAt call tl cl =>
      unst oth call tl ne (runs.unstored oth plc ne isAt call tl cl)
  · rw [sameThreads, eqLock]
    intro oth plc ne isAt wt
    have prev := runs.lockSleep oth plc ne isAt wt
    exact ⟨prev.1, wants prev.2⟩
  · rw [sameThreads]
    intro oth plc ne isAt wt some_
    rcases cnt some_ with wasSome | isWriter
    · exact runs.dataSleep oth plc ne isAt wt wasSome
    · exact .inl isWriter

theorem Runs.leave (runs : Runs st td mine writes) : Runs st.leave td mine writes := by
  unfold PipeState.leave
  dsimp only
  split
  all_goals
    exact runs.change rfl rfl id { runs.flows with }
      (.inr fun plc held => by cases plc <;> exact held) (fun _ _ _ _ => id) .inl

theorem Runs.join (runs : Runs st td mine writes) :
    Runs { st with busy := st.busy + 1 } td mine writes :=
  runs.change rfl rfl id { runs.flows with }
    (.inr fun plc held => by cases plc <;> exact held) (fun _ _ _ _ => id) .inl

theorem Runs.want (runs : Runs st td mine writes) :
    Runs { st with lwant := true } td mine writes :=
  runs.change rfl rfl (fun _ => rfl) { runs.flows with }
    (.inr fun plc held => by cases plc <;> exact held) (fun _ _ _ _ => id) .inl

theorem Runs.writing (runs : Runs st td mine false)
    (rng : td < st.threads.length) : Runs st td mine true :=
  { runs with inRange := fun _ => rng, dataSleep := fun _ _ _ _ _ _ => .inl rfl }

theorem Runs.quiet (runs : Runs st td mine writes)
    (quiet : ∀ (oth : Nat) plc, st.threads[oth]? = some plc → plc.awaitsData = true →
      ¬ 0 < st.cnt) : Runs st td mine false :=
  { runs with
    inRange := nofun
    dataSleep := fun oth plc _ isAt wt some_ =>
      absurd some_ (quiet oth plc isAt wt) }

theorem broadcast_at {wake : PipeThread → PipeThread} {oth : Nat}
    (isAt : (st.broadcast wake).threads[oth]? = some plc) :
    ∃ old, st.threads[oth]? = some old ∧ plc = wake old := by
  have isAt : (st.threads.map wake)[oth]? = some plc := isAt
  rw [getElem?_map] at isAt
  obtain ⟨old, isOld, isNew⟩ := map_eq_some_iff.mp isAt
  exact ⟨old, isOld, isNew.symm⟩

/-- Waking threads changes no byte. -/
theorem Runs.broadcast {wake : PipeThread → PipeThread} (runs : Runs st td mine writes)
    (wakes : Wakes wake) : Runs (st.broadcast wake) td mine writes := by
  constructor
  · exact { runs.flows with }
  · exact runs.locked
  · intro isWriter
    have len : (st.broadcast wake).threads.length = st.threads.length := length_map _
    rw [len]
    exact runs.inRange isWriter
  · intro oth plc ne isAt holds
    obtain ⟨old, isOld, rfl⟩ := broadcast_at isAt
    exact runs.alone oth old ne isOld ((wakes.holds old).symm.trans holds)
  · intro first snd plc tl firstDiffers secondDiffers fst h2 firstHolds secondHolds
    obtain ⟨one, isOne, rfl⟩ := broadcast_at fst
    obtain ⟨two, isTwo, rfl⟩ := broadcast_at h2
    exact runs.one first snd one two firstDiffers secondDiffers isOne isTwo
      ((wakes.holds one).symm.trans firstHolds) ((wakes.holds two).symm.trans secondHolds)
  · intro oth plc ne isAt
    obtain ⟨old, isOld, rfl⟩ := broadcast_at isAt
    rw [wakes.holding]
    have held := runs.holding oth old ne isOld
    cases old <;> exact held
  · intro oth plc ne isAt call tl cl
    obtain ⟨old, isOld, rfl⟩ := broadcast_at isAt
    exact runs.unstored oth old ne isOld call tl ((wakes.unstored old).symm.trans cl)
  · intro oth plc ne isAt wt
    obtain ⟨old, isOld, rfl⟩ := broadcast_at isAt
    exact runs.lockSleep oth old ne isOld (wakes.awaitsLock old wt)
  · intro oth plc ne isAt wt some_
    obtain ⟨old, isOld, rfl⟩ := broadcast_at isAt
    rcases runs.dataSleep oth old ne isOld (wakes.awaitsData old wt) some_ with
      isWriter | ⟨writer, writing, notMe, isWriter, isWriting⟩
    · exact .inl isWriter
    · refine .inr ⟨writer, wake writing, notMe, ?_, (wakes.writes writing).trans isWriting⟩
      show (st.threads.map wake)[writer]? = _
      rw [getElem?_map, isWriter]
      rfl

theorem Runs.pipelock (runs : Runs st td false writes) (free : st.lockfl = false) :
    Runs st.pipelock td true writes := by
  have notLocked (locked : st.lockfl = true) : False := by
    rw [free] at locked
    cases locked
  refine ⟨{ runs.flows with }, fun _ => rfl, runs.inRange, ?_, runs.one, ?_,
    runs.unstored, ?_, runs.dataSleep⟩
  · exact fun oth plc ne isAt holds =>
      (notLocked (runs.alone oth plc ne isAt holds).1).elim
  · intro oth plc ne isAt
    have held := runs.holding oth plc ne isAt
    cases plc <;> exact held
  · exact fun oth plc ne isAt wt =>
      (notLocked (runs.lockSleep oth plc ne isAt wt).1).elim

/-- Dropping the lock wakes those who want it. -/
theorem Runs.pipeunlock (runs : Runs st td true writes) :
    Runs st.pipeunlock td false writes := by
  have notHeld (oth : Nat) (plc : PipeThread) (ne : oth ≠ td)
      (isAt : st.threads[oth]? = some plc) : plc.holds ≠ true := by
    intro holds
    have notMine := (runs.alone oth plc ne isAt holds).2
    cases notMine
  have free : (∀ oth plc, oth ≠ td → st.threads[oth]? = some plc →
      plc.awaitsLock ≠ true) → Runs { st with lockfl := false } td false writes := by
    intro no
    refine ⟨{ runs.flows with }, nofun,
      runs.inRange, ?_, runs.one, ?_, runs.unstored, ?_, runs.dataSleep⟩
    · exact fun oth plc ne isAt holds => absurd holds (notHeld oth plc ne isAt)
    · intro oth plc ne isAt
      have held := runs.holding oth plc ne isAt
      cases plc <;> exact held
    · exact fun oth plc ne isAt wt => absurd wt (no oth plc ne isAt)
  unfold PipeState.pipeunlock
  dsimp only
  split
  · rename_i wanted
    -- all sleepers are signalled before the lock is seen free
    have woken := runs.broadcast wakes_lock
    refine ⟨{ woken.flows with }, nofun,
      woken.inRange, ?_, woken.one, ?_, woken.unstored, ?_, woken.dataSleep⟩
    · intro oth plc ne isAt holds
      have notMine := (woken.alone oth plc ne isAt holds).2
      cases notMine
    · intro oth plc ne isAt
      have held := woken.holding oth plc ne isAt
      cases plc <;> exact held
    · intro oth plc ne isAt wt
      obtain ⟨old, isOld, rfl⟩ := broadcast_at isAt
      rw [wakeLock_awaits] at wt
      cases wt
  · rename_i notWanted
    apply free
    intro oth plc ne isAt wt
    exact notWanted (runs.lockSleep oth plc ne isAt wt).2

theorem Runs.rest_outside (runs : Runs st td mine false) (error : PipeError) :
    PipeRests (st.goto td (.outside error)) :=
  runs.rest nofun trivial nofun nofun nofun nofun

end Threads

section Read

variable {st : PipeState} {td : Nat}

theorem pipeunlock_cnt (st : PipeState) : st.pipeunlock.cnt = st.cnt := by
  unfold PipeState.pipeunlock
  dsimp only
  split <;> rfl

theorem pipeReadExit_rests (runs : Runs st td false false) (error : PipeError) :
    PipeRests (pipeReadExit st td error) := by
  unfold pipeReadExit
  dsimp only
  split
  · exact (runs.leave.broadcast wakes_writer).rest_outside error
  · exact runs.leave.rest_outside error

/-- A reader copies what there is, sleeps or ends. -/
theorem pipeReadLoop_rests (runs : Runs st td true false) (uio : PipeReading) :
    PipeRests (pipeReadLoop st td uio) := by
  unfold pipeReadLoop
  have unlocked := runs.pipeunlock
  have outBelow := runs.flows.outBelow
  by_cases done : uio.resid = 0
  · rw [if_pos done]
    exact pipeReadExit_rests unlocked .none
  rw [if_neg done]
  by_cases some_ : st.cnt > 0
  · rw [if_pos some_]
    refine runs.rest (fun _ => rfl) ⟨?_, ?_⟩ nofun nofun nofun nofun
    · omega
    · omega
  rw [if_neg some_]
  by_cases hasRead : uio.nread > 0
  · rw [if_pos hasRead]
    exact pipeReadExit_rests unlocked .none
  rw [if_neg hasRead]
  by_cases isEof : st.eof = true
  · rw [if_pos isEof]
    exact pipeReadExit_rests unlocked .none
  rw [if_neg isEof]
  by_cases nonblock : uio.nonblock = true
  · rw [if_pos nonblock]
    exact pipeReadExit_rests unlocked .again
  rw [if_neg nonblock]
  have woken := unlocked.broadcast wakes_writer
  by_cases restarts : uio.restart = true
  · dsimp only
    rw [if_pos restarts]
    exact pipeReadExit_rests woken .restart
  rw [if_neg restarts]
  refine woken.rest nofun trivial nofun nofun (fun _ => ?_) nofun
  show st.pipeunlock.cnt = 0
  rw [pipeunlock_cnt]
  omega

theorem pipeReadAgain_rests (runs : Runs st td false false) (uio : PipeReading) :
    PipeRests (pipeReadAgain st td uio) := by
  unfold pipeReadAgain
  by_cases locked : st.lockfl = true
  · rw [if_pos locked]
    exact runs.want.rest nofun trivial nofun (fun _ => ⟨locked, rfl⟩) nofun nofun
  · rw [if_neg locked]
    exact pipeReadLoop_rests (runs.pipelock (Bool.not_eq_true _ ▸ locked)) uio

theorem Flows.take {size : Nat} (flows : Flows st) (le : size ≤ st.cnt)
    (bnd : st.out + size ≤ st.size) : Flows { st with
      out := if st.out + size ≥ st.size then 0 else st.out + size
      cnt := st.cnt - size
      delivered := st.delivered ++ span st.buffer st.out size } := by
  have sizePos := flows.sizePos
  have isOut : (if st.out + size ≥ st.size then 0 else st.out + size) =
      (st.out + size) % st.size := by
    by_cases isEnd : st.out + size = st.size
    · rw [if_pos (by omega), isEnd, mod_self]
    · rw [if_neg (by omega), mod_eq_of_lt (by omega)]
  rw [isOut]
  refine ⟨sizePos, mod_lt _ sizePos, le_trans (sub_le _ _) flows.atMost, ?_, ?_,
    flows.contiguous, flows.known, flows.prefixes, flows.whole, flows.knownEnds⟩
  · show st.inp = ((st.out + size) % st.size + (st.cnt - size)) % st.size
    rw [mod_add_mod, flows.isInp, Nat.add_assoc, Nat.add_sub_cancel' le]
  have strs := flows.streams
  have split := @ring_append _ st.buffer st.size st.out size (st.cnt - size)
  rw [Nat.add_sub_cancel' le, ring_eq_span bnd] at split
  unfold Streams at strs ⊢
  rw [length_nil, Nat.add_zero, split] at strs
  rw [append_assoc]
  exact strs

theorem Flows.reset (flows : Flows st) (empty : st.cnt = 0) :
    Flows { st with inp := 0, out := 0 } := by
  refine ⟨flows.sizePos, flows.sizePos, flows.atMost, ?_, ?_, flows.contiguous, flows.known,
    flows.prefixes, flows.whole, flows.knownEnds⟩
  · show 0 = (0 + st.cnt) % st.size
    rw [empty, zero_mod]
  have strs := flows.streams
  unfold Streams at strs ⊢
  rw [empty] at strs
  rw [empty]
  exact strs

theorem pipeReadStore_rests {uio : PipeReading} {size : Nat} {moved : List UInt8}
    (runs : Runs st td true false) (held : Holding st (.readCopied uio size moved)) :
    PipeRests (pipeReadStore st td uio size moved) := by
  obtain ⟨le, bnd, rfl⟩ := held
  unfold pipeReadStore
  have taken := runs.flows.take le bnd
  dsimp only
  split
  · rename_i empty
    apply pipeReadLoop_rests
    refine runs.change rfl rfl id (taken.reset empty) (.inl rfl) (fun _ _ _ _ => id) (fun some_ => .inl ?_)
    have some_ : 0 < st.cnt - size := some_
    omega
  · apply pipeReadLoop_rests
    refine runs.change rfl rfl id taken (.inl rfl) (fun _ _ _ _ => id) (fun some_ => .inl ?_)
    omega

end Read

section Write

variable {st : PipeState} {td : Nat} {uio : PipeWriting}

theorem Unstored.congr {s' : PipeState} {call : Nat} {tl : List UInt8}
    (unst : Unstored st td call tl) (calls : s'.calls = st.calls)
    (kept : s'.stored = st.stored) (returned : s'.returned = st.returned) :
    Unstored s' td call tl := by
  unfold Unstored written segments at unst ⊢
  rw [calls, kept, returned]
  exact unst

theorem pipeunlock_stored (st : PipeState) :
    st.pipeunlock.calls = st.calls ∧ st.pipeunlock.stored = st.stored ∧
      st.pipeunlock.returned = st.returned := by
  unfold PipeState.pipeunlock
  dsimp only
  split <;> exact ⟨rfl, rfl, rfl⟩

theorem leave_stored (st : PipeState) : st.leave.calls = st.calls ∧
    st.leave.stored = st.stored ∧ st.leave.returned = st.returned := by
  unfold PipeState.leave
  dsimp only
  split <;> exact ⟨rfl, rfl, rfl⟩

/-- A call that returns 0 has stored all of its bytes. -/
theorem Runs.finish (runs : Runs st td false false) {call : Nat} {tl : List UInt8}
    (unst : Unstored st td call tl) {error : PipeError} (done : error = .none → tl = []) :
    PipeRests (st.finish td call error) := by
  obtain ⟨data, isCall, isData, fresh, -⟩ := unst
  have flows := runs.flows
  have ended : Runs { st with returned := st.returned ++ [(call, error)] } td false false := by
    refine runs.change rfl rfl id { flows with whole := ?_, knownEnds := ?_ }
      (.inr fun plc held => by cases plc <;> exact held) ?_ .inl
    · intro oth owner bytes isIn cl
      rcases mem_append.mp isIn with old | new
      · exact flows.whole oth owner bytes old cl
      · obtain ⟨rfl, hn⟩ := Prod.mk.inj (mem_singleton.mp new)
        obtain ⟨-, rfl⟩ := Prod.mk.inj (some.inj (isCall.symm.trans cl))
        rw [done hn.symm, append_nil] at isData
        exact isData
    · intro last isIn
      rcases mem_append.mp isIn with old | new
      · exact flows.knownEnds last old
      · obtain rfl := mem_singleton.mp new
        exact (List.getElem?_eq_some_iff.mp isCall).1
    · rintro oth other_call tl ne ⟨bytes, cl, isBytes, notOver, sml⟩
      refine ⟨bytes, cl, isBytes, fun last isIn => ?_, sml⟩
      rcases mem_append.mp isIn with old | new
      · exact notOver last old
      · obtain ⟨rfl, -⟩ := Prod.mk.inj (mem_singleton.mp new)
        exact ne (Prod.mk.inj (some.inj (cl.symm.trans isCall))).1
  exact ended.rest_outside error

theorem pipeWriteExit_rests (runs : Runs st td true true) {error : PipeError}
    (unst : Unstored st td uio.call uio.rest) (done : error = .none → uio.rest = []) :
    PipeRests (pipeWriteExit st td uio error) := by
  have left := leave_stored st
  have done' {cnt : Nat} : (if error = .pipe ∧ cnt = 0 ∧ uio.rest = [] then .none else error) =
      PipeError.none → uio.rest = [] := by
    split
    · rename_i isPipe
      exact fun _ => isPipe.2.2
    · exact done
  unfold pipeWriteExit
  dsimp only
  split
  · have woken := (runs.leave.broadcast wakes_reader).quiet (by
      intro oth plc isAt wt
      obtain ⟨old, _, rfl⟩ := broadcast_at isAt
      rw [wakeReader_awaits] at wt
      cases wt)
    have same := pipeunlock_stored (st.leave.broadcast wakeReader)
    exact woken.pipeunlock.finish (unst.congr (same.1.trans left.1) (same.2.1.trans left.2.1)
      (same.2.2.trans left.2.2)) done'
  · rename_i empty
    have quiet := runs.leave.quiet (fun _ _ _ _ => empty)
    have same := pipeunlock_stored st.leave
    exact quiet.pipeunlock.finish (unst.congr (same.1.trans left.1) (same.2.1.trans left.2.1)
      (same.2.2.trans left.2.2)) done'

/-- A writer stores what fits, sleeps or ends. -/
theorem pipeWriteLoop_rests (runs : Runs st td true true)
    (unst : Unstored st td uio.call uio.rest) :
    PipeRests (pipeWriteLoop st td uio) := by
  unfold pipeWriteLoop
  by_cases done : uio.rest = []
  · rw [if_pos done]
    exact pipeWriteExit_rests runs unst fun _ => done
  rw [if_neg done]
  have pos := length_pos_iff.mpr done
  have le := runs.flows.atMost
  by_cases hasSpace : st.space uio.rest.length > 0
  · rw [if_pos hasSpace]
    unfold space at hasSpace ⊢
    dsimp only at hasSpace ⊢
    refine runs.rest (fun _ => rfl) ⟨lt_min pos hasSpace, ?_, rfl, min_le_left _ _, ?_⟩ ?_ nofun nofun
      (fun _ => rfl)
    · split <;> omega
    · intro sml
      by_cases short : st.size - st.cnt < uio.rest.length
      · rw [if_pos ⟨short, sml⟩] at hasSpace
        exact absurd hasSpace (lt_irrefl 0)
      · rw [if_neg fun both => short both.1]
        omega
    · intro call tl cl
      cases cl
      exact unst
  · rw [if_neg hasSpace]
    have woken := runs.broadcast wakes_reader
    split
    · exact pipeWriteExit_rests woken (unst.congr rfl rfl rfl) nofun
    split
    · exact pipeWriteExit_rests woken (unst.congr rfl rfl rfl) nofun
    · refine woken.pipeunlock.rest nofun trivial ?_ nofun nofun (fun _ => rfl)
      intro call tl cl
      cases cl
      have same := pipeunlock_stored (st.broadcast wakeReader)
      exact unst.congr same.1 same.2.1 same.2.2

theorem Runs.enlarge (runs : Runs st td true true) (empty : st.cnt = 0) :
    Runs st.enlarge td true true := by
  have bigPos : 0 < bigPipeSize := by decide
  refine runs.change rfl rfl id ⟨bigPos, bigPos, zero_le _, rfl, ?_, runs.flows.contiguous,
    runs.flows.known, runs.flows.prefixes, runs.flows.whole, runs.flows.knownEnds⟩
    (.inl rfl) (fun _ _ _ _ => id) (fun some_ => .inr rfl)
  have strs := runs.flows.streams
  unfold Streams at strs ⊢
  rw [empty] at strs
  exact strs

theorem pipeWriteStart_rests (runs : Runs st td false false)
    (rng : td < st.threads.length) (unst : Unstored st td uio.call uio.rest)
    (bigger : Bool) : PipeRests (pipeWriteStart st td uio bigger) := by
  unfold pipeWriteStart
  by_cases locked : st.lockfl = true
  · rw [if_pos locked]
    refine runs.want.rest nofun trivial ?_ (fun _ => ⟨locked, rfl⟩) nofun nofun
    intro call tl cl
    cases cl
    exact unst
  rw [if_neg locked]
  have mine := (runs.pipelock (Bool.not_eq_true _ ▸ locked)).writing rng
  dsimp only
  split
  · rename_i enlarges
    exact pipeWriteLoop_rests (mine.enlarge enlarges.2.2.2) (unst.congr rfl rfl rfl)
  · exact pipeWriteLoop_rests mine (unst.congr rfl rfl rfl)

theorem pipeWriteAgain_rests (runs : Runs st td false true)
    (unst : Unstored st td uio.call uio.rest) (error : PipeError) :
    PipeRests (pipeWriteAgain st td uio error) := by
  unfold pipeWriteAgain
  by_cases locked : st.lockfl = true
  · rw [if_pos locked]
    refine runs.want.rest nofun trivial ?_ (fun _ => ⟨locked, rfl⟩) nofun (fun _ => rfl)
    intro call tl cl
    cases cl
    exact unst
  rw [if_neg locked]
  have mine := runs.pipelock (Bool.not_eq_true _ ▸ locked)
  dsimp only
  split
  · rename_i isError
    exact pipeWriteExit_rests mine (unst.congr rfl rfl rfl) fun hn => absurd hn isError
  split
  · exact pipeWriteExit_rests mine (unst.congr rfl rfl rfl) nofun
  · exact pipeWriteLoop_rests mine (unst.congr rfl rfl rfl)

end Write

section Copy

variable {st : PipeState} {td : Nat} {uio : PipeWriting} {size segsize : Nat}
  {pre moved : List UInt8}

theorem PipeState.Streams.nil (strs : st.Streams moved) : st.Streams [] := by
  unfold Streams at strs ⊢
  rw [ring_append, ← append_assoc] at strs
  rw [append_nil]
  exact (append_inj' strs length_ring).1

theorem Flows.write {l : Nat} (flows : Flows st) (strs : st.Streams pre)
    (isAt : l = (st.out + (st.cnt + pre.length)) % st.size)
    (bnd : l + moved.length ≤ st.size)
    (rm : st.cnt + pre.length + moved.length ≤ st.size) :
    Flows { st with buffer := fill st.buffer l moved } ∧
      Streams { st with buffer := fill st.buffer l moved } (pre ++ moved) := by
  have wrote := @ring_write_back _ st.buffer (fill st.buffer l moved) st.size st.out
    (st.cnt + pre.length) moved.length flows.outBelow (isAt ▸ bnd) rm (by
      intro i out
      rw [← isAt] at out
      rcases out with below | above
      · exact fill_of_lt below
      · exact fill_of_ge above)
  rw [← isAt, span_fill] at wrote
  have added : Streams { st with buffer := fill st.buffer l moved } (pre ++ moved) := by
    unfold Streams at strs ⊢
    rw [length_append, ← Nat.add_assoc]
    rw [wrote, ← append_assoc, strs, append_assoc]
    rfl
  exact ⟨⟨flows.sizePos, flows.outBelow, flows.atMost, flows.isInp, added.nil, flows.contiguous,
    flows.known, flows.prefixes, flows.whole, flows.knownEnds⟩, added⟩

/-- The first part of a segment goes in up to the end of the buffer. -/
theorem writeCopy_rests (runs : Runs st td true true)
    (held : Holding st (.writeCopy uio size segsize))
    (unst : Unstored st td uio.call uio.rest) :
    PipeRests (goto { st with buffer := fill st.buffer st.inp (uio.rest.take segsize) }
      td
      (if segsize < size then
        .writeWrap { uio with rest := uio.rest.drop segsize } size segsize (uio.rest.take segsize)
      else .writeCopied { uio with rest := uio.rest.drop segsize } size segsize
        (uio.rest.take segsize))) := by
  obtain ⟨pos, rm, isSegsize, le, sml⟩ := held
  have flows := runs.flows
  have inpBelow : st.inp < st.size := by
    rw [flows.isInp]
    exact mod_lt _ flows.sizePos
  have len : (uio.rest.take segsize).length = segsize := by
    rw [length_take]
    omega
  have hw : uio.rest.take segsize ++ uio.rest.drop segsize = uio.rest := take_append_drop _ _
  obtain ⟨wrote, strs⟩ := @Flows.write st [] (uio.rest.take segsize) st.inp flows flows.streams
    flows.isInp (by omega) (by rw [length_nil]; omega)
  have copy : Runs { st with buffer := fill st.buffer st.inp (uio.rest.take segsize) }
      td true true :=
    runs.change rfl rfl id wrote (.inl rfl) (fun _ _ _ _ => id) .inl
  by_cases wraps : segsize < size
  · rw [if_pos wraps]
    refine copy.rest (fun _ => rfl) ⟨rm, len, ?_, wraps, ?_, ?_, strs⟩ ?_ nofun nofun
      (fun _ => rfl)
    · show segsize = st.size - st.inp
      omega
    · show size ≤ (uio.rest.take segsize ++ uio.rest.drop segsize).length
      rw [hw]
      exact le
    · show (uio.rest.take segsize ++ uio.rest.drop segsize).length ≤ pipeBuf →
        size = (uio.rest.take segsize ++ uio.rest.drop segsize).length
      rw [hw]
      exact sml
    · intro call tl cl
      cases cl
      rw [hw]
      exact unst
  · rw [if_neg wraps]
    refine copy.rest (fun _ => rfl) ⟨pos, rm, ?_, isSegsize, ?_, strs⟩ ?_ nofun nofun (fun _ => rfl)
    · omega
    · show (uio.rest.take segsize ++ uio.rest.drop segsize).length ≤ pipeBuf → uio.rest.drop segsize = []
      rw [hw]
      intro isSmall
      exact drop_eq_nil_of_le (by omega)
    · intro call tl cl
      cases cl
      rw [hw]
      exact unst

/-- The second part of a segment goes in at the buffer's start. -/
theorem writeWrap_rests (runs : Runs st td true true)
    (held : Holding st (.writeWrap uio size segsize moved))
    (unst : Unstored st td uio.call (moved ++ uio.rest)) :
    PipeRests (goto { st with buffer := fill st.buffer 0 (uio.rest.take (size - segsize)) }
      td (.writeCopied { uio with rest := uio.rest.drop (size - segsize) } size segsize
        (moved ++ uio.rest.take (size - segsize)))) := by
  obtain ⟨rm, isMoved, isSegsize, wraps, le, sml, strs⟩ := held
  have flows := runs.flows
  have inpBelow : st.inp < st.size := by
    rw [flows.isInp]
    exact mod_lt _ flows.sizePos
  rw [length_append] at le sml
  have len : (uio.rest.take (size - segsize)).length = size - segsize := by
    rw [length_take]
    omega
  have hw : moved ++ uio.rest.take (size - segsize) ++ uio.rest.drop (size - segsize) =
      moved ++ uio.rest := by
    rw [append_assoc, take_append_drop]
  have fst : 0 = (st.out + (st.cnt + moved.length)) % st.size := by
    rw [← Nat.add_assoc, ← mod_add_mod, ← flows.isInp, isMoved, isSegsize,
      Nat.add_sub_cancel' (Nat.le_of_lt inpBelow), mod_self]
  obtain ⟨wrote, added⟩ := @Flows.write st moved (uio.rest.take (size - segsize)) 0 flows strs
    fst (by omega) (by omega)
  have copy : Runs { st with buffer := fill st.buffer 0 (uio.rest.take (size - segsize)) }
      td true true :=
    runs.change rfl rfl id wrote (.inl rfl) (fun _ _ _ _ => id) .inl
  refine copy.rest (fun _ => rfl) ⟨by omega, rm, ?_, ?_, ?_, added⟩ ?_ nofun nofun (fun _ => rfl)
  · rw [length_append]
    omega
  · show segsize = min (st.size - st.inp) size
    omega
  · show (moved ++ uio.rest.take (size - segsize) ++ uio.rest.drop (size - segsize)).length ≤ pipeBuf →
      uio.rest.drop (size - segsize) = []
    rw [hw, length_append]
    intro isSmall
    exact drop_eq_nil_of_le (by omega)
  · intro call tl cl
    cases cl
    rw [hw]
    exact unst

theorem segments_store {call oth : Nat} (kept : List (Nat × List UInt8)) :
    segments { st with stored := kept ++ [(call, moved)] } oth =
      segments { st with stored := kept } oth ++ if call = oth then [(call, moved)] else [] := by
  unfold segments
  rw [filter_append]
  by_cases same : call = oth
  · rw [if_pos same, filter_cons_of_pos (by simpa using same), filter_nil]
  · rw [if_neg same, filter_cons_of_neg (by simpa using same), filter_nil]

/-- A copied segment becomes part of the stream in one step. -/
theorem pipeWriteStore_rests (runs : Runs st td true true)
    (held : Holding st (.writeCopied uio size segsize moved))
    (unst : Unstored st td uio.call (moved ++ uio.rest)) :
    PipeRests (pipeWriteStore st td uio size segsize moved) := by
  obtain ⟨pos, rm, isMoved, isSegsize, sml, strs⟩ := held
  obtain ⟨data, isData, isWritten, fresh, isSmall⟩ := unst
  have some_ : moved ++ uio.rest ≠ [] := by
    intro nil
    have len := congrArg length nil
    rw [length_append, length_nil] at len
    omega
  have isSmall (hsh : data.length ≤ pipeBuf) :
      moved ++ uio.rest = data ∧ st.segments uio.call = [] := by
    have no := isSmall some_ hsh
    unfold written at isWritten
    rw [no] at isWritten
    exact ⟨isWritten, no⟩
  have flows := runs.flows
  have inpBelow : st.inp < st.size := by
    rw [flows.isInp]
    exact mod_lt _ flows.sizePos
  have isInp : (if st.inp + size ≥ st.size then size - segsize else st.inp + size) =
      (st.out + (st.cnt + size)) % st.size := by
    rw [← Nat.add_assoc, ← mod_add_mod, ← flows.isInp]
    by_cases wraps : st.inp + size ≥ st.size
    · rw [if_pos wraps, mod_eq_sub_mod wraps, mod_eq_of_lt (by omega)]
      omega
    · rw [if_neg wraps, mod_eq_of_lt (by omega)]
  unfold pipeWriteStore
  rw [isInp]
  have oths (oth : Nat) (ne : uio.call ≠ oth) :
      segments { st with stored := st.stored ++ [(uio.call, moved)] } oth =
        st.segments oth := by
    rw [segments_store, if_neg ne, append_nil]
  have othersWritten (oth : Nat) (ne : uio.call ≠ oth) :
      written { st with stored := st.stored ++ [(uio.call, moved)] } oth = st.written oth :=
    congrArg (flatMap Prod.snd) (oths oth ne)
  have own : written { st with stored := st.stored ++ [(uio.call, moved)] } uio.call ++ uio.rest =
      data := by
    unfold written
    rw [segments_store, if_pos rfl, flatMap_append]
    have segs : flatMap Prod.snd [(uio.call, moved)] = moved := append_nil moved
    rw [segs, append_assoc]
    exact isWritten
  apply pipeWriteLoop_rests
  · refine runs.change rfl rfl id ⟨flows.sizePos, flows.outBelow, rm, rfl, ?_, ?_, ?_, ?_, ?_,
      flows.knownEnds⟩ (.inl rfl) ?_ (fun _ => .inr rfl)
    · unfold Streams stream at strs ⊢
      rw [isMoved] at strs
      rw [length_nil, Nat.add_zero, append_nil, flatMap_append, strs]
      congr 1
      exact (append_nil moved).symm
    · intro call owner bytes cl hsh
      by_cases same : uio.call = call
      · subst same
        obtain ⟨rfl, rfl⟩ := Prod.mk.inj (some.inj (isData.symm.trans cl))
        obtain ⟨isBytes, hn⟩ := isSmall hsh
        have isOver : uio.rest = [] := sml (by rw [isBytes]; exact hsh)
        right
        show segments { st with stored := st.stored ++ [(uio.call, moved)] } uio.call = _
        rw [segments_store, if_pos rfl]
        rw [hn, ← isBytes, isOver, append_nil]
        rfl
      · have prev := flows.contiguous call owner bytes cl hsh
        rw [← oths call same] at prev
        exact prev
    · intro segment isIn
      rcases mem_append.mp isIn with isOld | isNew
      · exact flows.known segment isOld
      · obtain rfl := mem_singleton.mp isNew
        exact (List.getElem?_eq_some_iff.mp isData).1
    · intro call owner bytes cl
      by_cases same : uio.call = call
      · subst same
        obtain ⟨-, rfl⟩ := Prod.mk.inj (some.inj (isData.symm.trans cl))
        exact ⟨_, own⟩
      · have prev := flows.prefixes call owner bytes cl
        rw [← othersWritten call same] at prev
        exact prev
    · intro call owner bytes isOver cl
      have notSame : uio.call ≠ call := by
        rintro rfl
        exact fresh _ isOver
      exact (othersWritten call notSame).trans (flows.whole call owner bytes isOver cl)
    · rintro oth call tl ne ⟨bytes, cl, isBytes, notOver, hn⟩
      have notSame : uio.call ≠ call := by
        intro same
        rw [← same, isData] at cl
        exact ne (Prod.mk.inj (some.inj cl)).1.symm
      refine ⟨bytes, cl, ?_, notOver, fun more hsh => (oths call notSame).trans (hn more hsh)⟩
      exact (congrArg (· ++ tl) (othersWritten call notSame)).trans isBytes
  · refine ⟨data, isData, own, fresh, fun more hsh => ?_⟩
    have isBytes := (isSmall hsh).1
    exact absurd (sml (by rw [isBytes]; exact hsh)) more

end Copy

section Run

variable {st s' : PipeState}

variable {td : Nat}

/-- Any thread may go on next. -/
theorem pipeResume_rests (rests : PipeRests st) (isAt : st.threads[td]? = some plc)
    (bigger : Bool) (res : pipeResume st td bigger plc = some s') :
    PipeRests s' := by
  obtain ⟨runs, held, unst⟩ := rests.enter isAt
  have rng := (List.getElem?_eq_some_iff.mp isAt).1
  cases plc with
  | outside error => cases res
  | readLock uio sigd =>
    cases sigd with
    | false => cases res
    | true =>
      obtain rfl := some.inj res
      exact pipeReadAgain_rests runs uio
  | readSleep uio sigd =>
    cases sigd with
    | false => cases res
    | true =>
      obtain rfl := some.inj res
      exact pipeReadAgain_rests runs _
  | readCopy uio size =>
    obtain rfl := some.inj res
    exact runs.rest (fun _ => rfl) ⟨held.1, held.2, rfl⟩ nofun nofun nofun nofun
  | readCopied uio size moved =>
    obtain rfl := some.inj res
    exact pipeReadStore_rests runs held
  | writeLock uio sigd =>
    cases sigd with
    | false => cases res
    | true =>
      obtain rfl := some.inj res
      exact pipeWriteStart_rests runs rng (unst _ _ rfl) bigger
  | writeSleep uio sigd =>
    cases sigd with
    | false => cases res
    | true =>
      obtain rfl := some.inj res
      exact pipeWriteAgain_rests runs (unst _ _ rfl) .none
  | writeRelock uio error sigd =>
    cases sigd with
    | false => cases res
    | true =>
      obtain rfl := some.inj res
      exact pipeWriteAgain_rests runs (unst _ _ rfl) error
  | writeCopy uio size segsize =>
    obtain rfl := some.inj res
    exact writeCopy_rests runs held (unst _ _ rfl)
  | writeWrap uio size segsize moved =>
    obtain rfl := some.inj res
    exact writeWrap_rests runs held (unst _ _ rfl)
  | writeCopied uio size segsize moved =>
    obtain rfl := some.inj res
    exact pipeWriteStore_rests runs held (unst _ _ rfl)

theorem pipeInterrupt_rests (rests : PipeRests st) (isAt : st.threads[td]? = some plc)
    (intr : pipeInterrupt st td plc = some s') : PipeRests s' := by
  obtain ⟨runs, held, unst⟩ := rests.enter isAt
  cases plc with
  | readLock | readSleep =>
    obtain rfl := some.inj intr
    exact pipeReadExit_rests runs .signal
  | writeLock uio sigd =>
    obtain rfl := some.inj intr
    have left := leave_stored st
    exact runs.leave.finish ((unst _ _ rfl).congr left.1 left.2.1 left.2.2) nofun
  | writeSleep uio sigd =>
    obtain rfl := some.inj intr
    exact pipeWriteAgain_rests runs (unst _ _ rfl) .signal
  | _ => cases intr

theorem PipeRests.begin (rests : PipeRests st)
    (isOutside : (st.threads[td]?.map isOutside) = some true) :
    Runs st td false false ∧ td < st.threads.length := by
  obtain ⟨plc, isAt, out⟩ := map_eq_some_iff.mp isOutside
  have entered := (rests.enter isAt).1
  cases plc with
  | outside error => exact ⟨entered, (List.getElem?_eq_some_iff.mp isAt).1⟩
  | _ => cases out

/-- A new write call starts with nothing of its data stored. -/
theorem Runs.call (runs : Runs st td false false) (data : List UInt8) :
    Runs { st with calls := st.calls ++ [(td, data)] } td false false ∧
      Unstored { st with calls := st.calls ++ [(td, data)] } td st.calls.length data := by
  have flows := runs.flows
  have noSegments : st.segments st.calls.length = [] := by
    unfold segments
    rw [filter_eq_nil_iff]
    intro segment isIn
    have known := flows.known segment isIn
    simpa using Nat.ne_of_lt known
  have isNew : (st.calls ++ [(td, data)])[st.calls.length]? = some (td, data) :=
    getElem?_concat_length
  have isNothing : written { st with calls := st.calls ++ [(td, data)] } st.calls.length =
      [] := congrArg (flatMap Prod.snd) noSegments
  have cases (call : Nat) {owner : Nat} {bytes : List UInt8}
      (cl : (st.calls ++ [(td, data)])[call]? = some (owner, bytes)) :
      st.calls[call]? = some (owner, bytes) ∨ call = st.calls.length := by
    by_cases isOld : call < st.calls.length
    · rw [getElem?_append_left isOld] at cl
      exact .inl cl
    · have below := (List.getElem?_eq_some_iff.mp cl).1
      rw [length_append, length_singleton] at below
      exact .inr (by omega)
  refine ⟨runs.change rfl rfl id ⟨flows.1, flows.2, flows.3, flows.4, flows.5, ?_, ?_, ?_, ?_, ?_⟩ ?_ ?_
    .inl,
    data, isNew, by rw [isNothing]; rfl, fun error isIn => lt_irrefl _ (flows.knownEnds _ isIn),
    fun _ _ => noSegments⟩
  · intro call owner bytes cl hsh
    rcases cases call cl with old | rfl
    · exact flows.contiguous call owner bytes old hsh
    · exact .inl noSegments
  · intro segment isIn
    have known := flows.known segment isIn
    rw [length_append]
    omega
  · intro call owner bytes cl
    rcases cases call cl with old | rfl
    · exact flows.prefixes call owner bytes old
    · rw [isNothing]
      exact nil_prefix
  · intro call owner bytes isOver cl
    rcases cases call cl with old | rfl
    · exact flows.whole call owner bytes isOver old
    · exact absurd (flows.knownEnds _ isOver) (lt_irrefl _)
  · intro ended isIn
    have known := flows.knownEnds ended isIn
    rw [length_append]
    omega
  · exact .inr fun plc held => by cases plc <;> exact held
  · intro oth call tl _ prev
    obtain ⟨bytes, cl, stays⟩ := prev
    have isOld := (List.getElem?_eq_some_iff.mp cl).1
    exact ⟨bytes, (getElem?_append_left isOld).trans cl, stays⟩

theorem pipeStep_rests {event : PipeEvent} (rests : PipeRests st)
    (move : pipeStep st event = some s') : PipeRests s' := by
  cases event with
  | read td resid nonblock =>
    unfold pipeStep at move
    dsimp only at move
    split at move
    · rename_i isOutside
      obtain ⟨runs, _⟩ := rests.begin isOutside
      obtain rfl := some.inj move
      exact pipeReadAgain_rests runs.join _
    · cases move
  | write td data nonblock bigger =>
    unfold pipeStep at move
    dsimp only at move
    split at move
    · rename_i isOutside
      obtain ⟨runs, rng⟩ := rests.begin isOutside
      obtain ⟨hc, unst⟩ := runs.call data
      obtain rfl := some.inj move
      unfold pipeWrite
      dsimp only
      split
      · exact hc.finish unst nofun
      · exact @pipeWriteStart_rests _ _ ⟨st.calls.length, data, nonblock, false⟩ hc.join rng
          (unst.congr rfl rfl rfl) bigger
    · cases move
  | resume td bigger =>
    obtain ⟨plc, isAt, res⟩ := bind_eq_some_iff.mp move
    exact pipeResume_rests rests isAt bigger res
  | interrupt td =>
    obtain ⟨plc, isAt, intr⟩ := bind_eq_some_iff.mp move
    exact pipeInterrupt_rests rests isAt intr

def PipeThread.inWrite : PipeThread → Bool
  | .writeLock .. => true
  | place => place.writes

def PipeThread.readerAsleep : PipeThread → Bool
  | .readLock _ signalled => !signalled
  | .readSleep _ signalled => !signalled
  | _ => false

/-- What a pipe owes its readers and writers. A small write is one segment or none, and of any write
the first bytes are stored, all of them when it has returned 0. -/
structure PipeStreams (state : PipeState) : Prop where
  indices : state.lockfl = false →
    state.inp = (state.out + state.cnt) % state.size ∧ state.cnt ≤ state.size
  bytes : state.lockfl = false →
    state.delivered ++ ring state.buffer state.size state.out state.cnt = state.stored.flatMap Prod.snd
  contiguous : ∀ call thread data, state.calls[call]? = some (thread, data) → data.length ≤ pipeBuf →
    state.segments call = [] ∨ state.segments call = [(call, data)]
  prefixes : ∀ call thread data, state.calls[call]? = some (thread, data) → state.written call <+: data
  whole : ∀ call thread data, (call, .none) ∈ state.returned →
    state.calls[call]? = some (thread, data) → state.written call = data
  awake : state.lockfl = false → 0 < state.cnt → (∀ place ∈ state.threads, place.inWrite = false) →
    ∀ place ∈ state.threads, place.readerAsleep = false

theorem PipeRests.streams (rests : PipeRests st) : PipeStreams st := by
  have flows := rests.flows
  refine ⟨fun _ => ⟨flows.isInp, flows.atMost⟩, fun _ => ?_, flows.contiguous, flows.prefixes, flows.whole,
    ?_⟩
  · have strs := flows.streams
    unfold Streams at strs
    rw [append_nil] at strs
    exact strs
  intro free some_ noWriter plc isIn
  obtain ⟨oth, isAt⟩ := getElem?_of_mem isIn
  have lt : oth ≠ st.threads.length := Nat.ne_of_lt (List.getElem?_eq_some_iff.mp isAt).1
  cases plc with
  | readLock uio sigd =>
    cases sigd with
    | true => rfl
    | false =>
      have locked := (rests.lockSleep oth _ lt isAt rfl).1
      rw [free] at locked
      cases locked
  | readSleep uio sigd =>
    cases sigd with
    | true => rfl
    | false =>
      obtain ⟨writer, writing, _, isWriter, writes⟩ :=
        (rests.dataSleep oth _ lt isAt rfl some_).resolve_left Bool.false_ne_true
      have out := noWriter writing (mem_of_getElem? isWriter)
      cases writing with
      | writeLock uio sigd => cases writes
      | _ => exact absurd (out.symm.trans writes) Bool.false_ne_true
  | _ => rfl

theorem pipeCreate_rests (threads : Nat) : PipeRests (pipeCreate threads) := by
  have isOutside (oth : Nat) (plc : PipeThread)
      (isAt : (pipeCreate threads).threads[oth]? = some plc) : plc = .outside .none :=
    eq_of_mem_replicate (mem_of_getElem? isAt)
  constructor
  · have sizePos : 0 < pipeSize := by decide
    exact ⟨sizePos, sizePos, zero_le _, rfl, rfl, nofun, nofun, nofun, nofun, nofun⟩
  · exact nofun
  · exact nofun
  · intro oth plc _ isAt holds
    rw [isOutside oth plc isAt] at holds
    cases holds
  · intro first snd plc tl _ _ fst _ holds
    rw [isOutside first plc fst] at holds
    cases holds
  · intro oth plc _ isAt
    rw [isOutside oth plc isAt]
    trivial
  · intro oth plc _ isAt call tl cl
    rw [isOutside oth plc isAt] at cl
    cases cl
  · intro oth plc _ isAt wt
    rw [isOutside oth plc isAt] at wt
    cases wt
  · intro oth plc _ isAt wt
    rw [isOutside oth plc isAt] at wt
    cases wt

/-- Wherever calls of any number of threads lead, in any order of their sections and with any
signals, the readers and the buffer have the bytes that were stored, in their order. -/
theorem pipe_streams (threads : Nat) (events : List PipeEvent) {reached : PipeState}
    (isReached : consume pipeStep events (pipeCreate threads) = some reached) : PipeStreams reached :=
  PipeRests.streams (consume_safe pipeStep PipeRests (fun _ _ => True)
    (fun _ _ _ rests _ move => pipeStep_rests rests move) events (pipeCreate_rests threads)
    (fun _ _ _ _ _ => trivial) isReached)

/-- A reader waits, a writer stores three bytes, and the reader gets two of them. -/
theorem pipe_streams_two : ∃ reached, consume pipeStep
    [.read 0 2 false, .write 1 [7, 8, 9] false false, .resume 1 false, .resume 1 false, .resume 0 false,
      .resume 0 false, .resume 0 false] (pipeCreate 2) = some reached ∧
    reached.delivered = [7, 8] ∧ reached.returned = [(0, .none)] ∧ PipeStreams reached :=
  ⟨_, rfl, by decide, by decide, pipe_streams 2
    [.read 0 2 false, .write 1 [7, 8, 9] false false, .resume 1 false,
      .resume 1 false, .resume 0 false, .resume 0 false, .resume 0 false] rfl⟩

end Run

end NetBSD.Kern
