import NetBSD.Machine.Ring

/-!
Owns `pipe_read` and `pipe_write` of `kern/sys_pipe.c` with `PIPE_NODIRECT`, as the sections between
two releases of the mutex of the pipe; a copy by `uiomove` is a section without the mutex, and does
not fail. The wakeups of `select` and `poll` are left out.
-/

namespace NetBSD.Kern

open NetBSD.Machine

section Model

def pipeSize : Nat := 16384

def bigPipeSize : Nat := 4 * pipeSize

def minPipeSize : Nat := pipeSize / 3

def pipeBuf : Nat := 512

/-- What a call returns: 0, or the error. A sleep gives the error of a signal. -/
inductive PipeError where
  | none
  | again
  | restart
  | pipe
  | signal
deriving DecidableEq, Repr

/-- The locals of `pipe_read`; `restart` is the bit `PIPE_RESTART` of `wakeup_state`. -/
structure PipeReading where
  resid : Nat
  nread : Nat
  nonblock : Bool
  restart : Bool
deriving DecidableEq, Repr

/-- The locals of `pipe_write`: the number of the call and the bytes of `uio` that are left. -/
structure PipeWriting where
  call : Nat
  rest : List UInt8
  nonblock : Bool
  restart : Bool
deriving DecidableEq, Repr

/-- Where a thread is. A thread that sleeps knows whether it was signalled, and one that copies
has its `size`, its `segsize` and the bytes that it has copied. -/
inductive PipeThread where
  | outside (error : PipeError)
  | readLock (uio : PipeReading) (signalled : Bool)
  | readSleep (uio : PipeReading) (signalled : Bool)
  | readCopy (uio : PipeReading) (size : Nat)
  | readCopied (uio : PipeReading) (size : Nat) (moved : List UInt8)
  | writeLock (uio : PipeWriting) (signalled : Bool)
  | writeSleep (uio : PipeWriting) (signalled : Bool)
  | writeRelock (uio : PipeWriting) (error : PipeError) (signalled : Bool)
  | writeCopy (uio : PipeWriting) (size segsize : Nat)
  | writeWrap (uio : PipeWriting) (size segsize : Nat) (moved : List UInt8)
  | writeCopied (uio : PipeWriting) (size segsize : Nat) (moved : List UInt8)
deriving DecidableEq, Repr

/-- `struct pipe` with its buffer, and the threads. Counted beside them: the bytes that readers
got, the segments that writers stored with the numbers of their calls, for each call of
`pipe_write` its thread and its bytes, and what the calls that are over returned. -/
structure PipeState where
  buffer : Nat → UInt8
  size : Nat
  inp : Nat
  out : Nat
  cnt : Nat
  lockfl : Bool
  lwant : Bool
  eof : Bool
  restart : Bool
  busy : Nat
  threads : List PipeThread
  delivered : List UInt8
  stored : List (Nat × List UInt8)
  calls : List (Nat × List UInt8)
  returned : List (Nat × PipeError)

def PipeState.goto (state : PipeState) (thread : Nat) (place : PipeThread) : PipeState :=
  { state with threads := state.threads.set thread place }

/-- A call of `pipe_write` is over. -/
def PipeState.finish (state : PipeState) (thread call : Nat) (error : PipeError) : PipeState :=
  { state with returned := state.returned ++ [(call, error)] }.goto thread (.outside error)

def PipeThread.wakeLock : PipeThread → PipeThread
  | .readLock uio _ => .readLock uio true
  | .writeLock uio _ => .writeLock uio true
  | .writeRelock uio error _ => .writeRelock uio error true
  | thread => thread

def PipeThread.wakeReader : PipeThread → PipeThread
  | .readSleep uio _ => .readSleep uio true
  | thread => thread

def PipeThread.wakeWriter : PipeThread → PipeThread
  | .writeSleep uio _ => .writeSleep uio true
  | thread => thread

def PipeState.broadcast (state : PipeState) (wake : PipeThread → PipeThread) : PipeState :=
  { state with threads := state.threads.map wake }

def PipeState.pipelock (state : PipeState) : PipeState := { state with lockfl := true }

def PipeState.pipeunlock (state : PipeState) : PipeState :=
  let state := { state with lockfl := false }
  if state.lwant then { state with lwant := false }.broadcast PipeThread.wakeLock else state

/-- `--pipe_busy` and what follows it. -/
def PipeState.leave (state : PipeState) : PipeState :=
  let state := { state with busy := state.busy - 1 }
  if state.busy = 0 then { state with restart := false } else state

def pipeReadExit (state : PipeState) (thread : Nat) (error : PipeError) : PipeState :=
  let state := state.leave
  let state := if state.cnt < minPipeSize then state.broadcast PipeThread.wakeWriter else state
  state.goto thread (.outside error)

def pipeReadLoop (state : PipeState) (thread : Nat) (uio : PipeReading) : PipeState :=
  if uio.resid = 0 then pipeReadExit state.pipeunlock thread .none
  else if state.cnt > 0 then
    state.goto thread (.readCopy uio (min (min (state.size - state.out) state.cnt) uio.resid))
  else if uio.nread > 0 then pipeReadExit state.pipeunlock thread .none
  else if state.eof then pipeReadExit state.pipeunlock thread .none
  else if uio.nonblock then pipeReadExit state.pipeunlock thread .again
  else
    let state := state.pipeunlock.broadcast PipeThread.wakeWriter
    if uio.restart then pipeReadExit state thread .restart
    else state.goto thread (.readSleep uio false)

def pipeReadAgain (state : PipeState) (thread : Nat) (uio : PipeReading) : PipeState :=
  if state.lockfl then { state with lwant := true }.goto thread (.readLock uio false)
  else pipeReadLoop state.pipelock thread uio

def pipeReadStore (state : PipeState) (thread : Nat) (uio : PipeReading) (size : Nat)
    (moved : List UInt8) : PipeState :=
  let out := if state.out + size ≥ state.size then 0 else state.out + size
  let state := { state with out, cnt := state.cnt - size, delivered := state.delivered ++ moved }
  let state := if state.cnt = 0 then { state with inp := 0, out := 0 } else state
  pipeReadLoop state thread { uio with resid := uio.resid - size, nread := uio.nread + size }

def pipeWriteExit (state : PipeState) (thread : Nat) (uio : PipeWriting) (error : PipeError) :
    PipeState :=
  let state := state.leave
  let state := if state.cnt > 0 then state.broadcast PipeThread.wakeReader else state
  let error := if error = .pipe ∧ state.cnt = 0 ∧ uio.rest = [] then .none else error
  state.pipeunlock.finish thread uio.call error

def PipeState.space (state : PipeState) (resid : Nat) : Nat :=
  let space := state.size - state.cnt
  if space < resid ∧ resid ≤ pipeBuf then 0 else space

def pipeWriteLoop (state : PipeState) (thread : Nat) (uio : PipeWriting) : PipeState :=
  if uio.rest = [] then pipeWriteExit state thread uio .none
  else
    let space := state.space uio.rest.length
    if space > 0 then
      let size := min uio.rest.length space
      state.goto thread (.writeCopy uio size (min (state.size - state.inp) size))
    else
      let state := state.broadcast PipeThread.wakeReader
      if uio.nonblock then pipeWriteExit state thread uio .again
      else if uio.restart then pipeWriteExit state thread uio .restart
      else state.pipeunlock.goto thread (.writeSleep uio false)

/-- `pipespace` with `BIG_PIPE_SIZE`. -/
def PipeState.enlarge (state : PipeState) : PipeState :=
  { state with buffer := fun _ => 0, size := bigPipeSize, inp := 0, out := 0, cnt := 0 }

/-- `pipe_write` from its first `pipelock` on. Whether `nbigpipe` and the memory allow a bigger
buffer comes from outside. -/
def pipeWriteStart (state : PipeState) (thread : Nat) (uio : PipeWriting)
    (bigger : Bool) : PipeState :=
  if state.lockfl then { state with lwant := true }.goto thread (.writeLock uio false)
  else
    let state := state.pipelock
    let state :=
      if uio.rest.length > pipeSize ∧ bigger ∧ state.size ≤ pipeSize ∧ state.cnt = 0 then state.enlarge
      else state
    pipeWriteLoop state thread uio

def pipeWriteStore (state : PipeState) (thread : Nat) (uio : PipeWriting) (size segsize : Nat)
    (moved : List UInt8) : PipeState :=
  let inp := if state.inp + size ≥ state.size then size - segsize else state.inp + size
  let state := { state with
    inp
    cnt := state.cnt + size
    stored := state.stored ++ [(uio.call, moved)] }
  pipeWriteLoop state thread { uio with restart := false }

def pipeWriteAgain (state : PipeState) (thread : Nat) (uio : PipeWriting) (error : PipeError) :
    PipeState :=
  if state.lockfl then { state with lwant := true }.goto thread (.writeRelock uio error false)
  else
    let state := state.pipelock
    if error ≠ .none then pipeWriteExit state thread uio error
    else if state.eof then pipeWriteExit state thread uio .pipe
    else pipeWriteLoop state thread { uio with restart := state.restart }

/-- A thread goes on with its next section. One that sleeps does so when it was signalled. -/
def pipeResume (state : PipeState) (thread : Nat) (bigger : Bool) : PipeThread → Option PipeState
  | .outside _ => none
  | .readLock uio signalled => if signalled then some (pipeReadAgain state thread uio) else none
  | .readSleep uio signalled =>
    if signalled then some (pipeReadAgain state thread { uio with restart := state.restart }) else none
  | .readCopy uio size => some (state.goto thread (.readCopied uio size (span state.buffer state.out size)))
  | .readCopied uio size moved => some (pipeReadStore state thread uio size moved)
  | .writeLock uio signalled => if signalled then some (pipeWriteStart state thread uio bigger) else none
  | .writeSleep uio signalled => if signalled then some (pipeWriteAgain state thread uio .none) else none
  | .writeRelock uio error signalled =>
    if signalled then some (pipeWriteAgain state thread uio error) else none
  | .writeCopy uio size segsize =>
    let moved := uio.rest.take segsize
    let uio := { uio with rest := uio.rest.drop segsize }
    some ({ state with buffer := fill state.buffer state.inp moved }.goto thread
      (if segsize < size then .writeWrap uio size segsize moved else .writeCopied uio size segsize moved))
  | .writeWrap uio size segsize moved =>
    let wrapped := uio.rest.take (size - segsize)
    let uio := { uio with rest := uio.rest.drop (size - segsize) }
    some ({ state with buffer := fill state.buffer 0 wrapped }.goto thread
      (.writeCopied uio size segsize (moved ++ wrapped)))
  | .writeCopied uio size segsize moved => some (pipeWriteStore state thread uio size segsize moved)

def pipeInterrupt (state : PipeState) (thread : Nat) : PipeThread → Option PipeState
  | .readLock _ _ => some (pipeReadExit state thread .signal)
  | .readSleep _ _ => some (pipeReadExit state thread .signal)
  | .writeLock uio _ => some (state.leave.finish thread uio.call .signal)
  | .writeSleep uio _ => some (pipeWriteAgain state thread uio .signal)
  | _ => none

/-- `pipe_read` of at most so many bytes up to the first release of the mutex. -/
def pipeRead (state : PipeState) (thread resid : Nat) (nonblock : Bool) : PipeState :=
  pipeReadAgain { state with busy := state.busy + 1 } thread ⟨resid, 0, nonblock, false⟩

def pipeWrite (state : PipeState) (thread : Nat) (data : List UInt8) (nonblock bigger : Bool) :
    PipeState :=
  let call := state.calls.length
  let state := { state with calls := state.calls ++ [(thread, data)] }
  if state.eof then state.finish thread call .pipe
  else pipeWriteStart { state with busy := state.busy + 1 } thread ⟨call, data, nonblock, false⟩ bigger

def PipeThread.isOutside : PipeThread → Bool
  | .outside _ => true
  | _ => false

inductive PipeEvent where
  | read (thread resid : Nat) (nonblock : Bool)
  | write (thread : Nat) (data : List UInt8) (nonblock bigger : Bool)
  | resume (thread : Nat) (bigger : Bool)
  | interrupt (thread : Nat)
deriving DecidableEq, Repr

def pipeStep (state : PipeState) : PipeEvent → Option PipeState
  | .read thread resid nonblock =>
    if (state.threads[thread]?.map PipeThread.isOutside) = some true then
      some (pipeRead state thread resid nonblock)
    else none
  | .write thread data nonblock bigger =>
    if (state.threads[thread]?.map PipeThread.isOutside) = some true then
      some (pipeWrite state thread data nonblock bigger)
    else none
  | .resume thread bigger => state.threads[thread]?.bind (pipeResume state thread bigger)
  | .interrupt thread => state.threads[thread]?.bind (pipeInterrupt state thread)

def pipeCreate (threads : Nat) : PipeState :=
  ⟨fun _ => 0, pipeSize, 0, 0, 0, false, false, false, false, 0,
    List.replicate threads (.outside .none), [], [], [], []⟩

end Model

end NetBSD.Kern
