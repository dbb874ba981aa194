import Mathlib.Algebra.Order.Ring.Int
import Mathlib.Algebra.Order.Ring.Nat
import Mathlib.Logic.Function.Basic

/-!
Owns the advisory byte-range locks of `sys/kern/vfs_lockf.c`.

A file's locks are the list that `*head` points to. A link `prev` into it is the
part of the list before the link, so a search returns what it skipped, the
overlapping lock and what follows. Where the code would follow a null pointer,
panic, or free or relink a lock that stays on the list, the functions return `none`.
-/

namespace NetBSD.Kern.VfsLockf

open Function

def offMax : Int := 2 ^ 63 - 1

/-- The `off_t` that arithmetic in 64 bits leaves. -/
def off (value : Int) : Int := Int.bmod value (2 ^ 64)

/-- `F_RDLCK` and `F_WRLCK`. -/
inductive LockType where
  | rdlck
  | wrlck
  deriving DecidableEq, Repr

/-- `lf_id`: a process for `F_POSIX` locks, an open file for `F_FLOCK` locks. -/
inductive Owner where
  | proc (pid : Nat)
  | file (fp : Nat)
  deriving DecidableEq, Repr

/-- `struct lockf`; `ident` stands for its address and `lfEnd` is -1 up to the end of the file.
The link `lf_next` is the place in a list for a held lock; a request that sleeps has it in
`Sleeper`. -/
structure Lockf where
  ident : Nat
  lfType : LockType
  lfStart : Int
  lfEnd : Int
  lfId : Owner
  lfBlkhd : List Nat
  lfUid : Nat
  deriving DecidableEq, Repr

/-- A request in `cv_wait_sig` for a file, with the spare lock of its call. -/
structure Sleeper (φ : Type) where
  lock : Lockf
  lfHead : φ
  spare : Option Lockf
  lfNext : Option Nat
  woken : Bool
  deriving DecidableEq, Repr

/-- What a call changes besides the list: the sleeping requests and `ui_lockcnt`. -/
structure Env (φ : Type) where
  sleepers : List (Sleeper φ)
  lockcnt : Nat → Int

variable {φ : Type}

def lfFree (env : Env φ) (lock : Lockf) : Env φ :=
  { env with lockcnt := update env.lockcnt lock.lfUid (env.lockcnt lock.lfUid - 1) }

/-- The requests of a queue are taken off it and woken. -/
def wake (queue : List Nat) (sleepers : List (Sleeper φ)) : List (Sleeper φ) :=
  sleepers.map fun sleeper =>
    if sleeper.lock.ident ∈ queue then { sleeper with lfNext := none, woken := true } else sleeper

/-- The requests of a queue get another lock to wait for. -/
def handTo (block : Nat) (queue : List Nat) (sleepers : List (Sleeper φ)) : List (Sleeper φ) :=
  sleepers.map fun sleeper =>
    if sleeper.lock.ident ∈ queue then { sleeper with lfNext := some block } else sleeper

def lfWakelock (env : Env φ) (listhead : Lockf) : Env φ × Lockf :=
  ({ env with sleepers := wake listhead.lfBlkhd env.sleepers }, { listhead with lfBlkhd := [] })

/-! ### Searching -/

/-- `SELF` and `OTHERS`. -/
inductive Who where
  | self
  | others
  deriving DecidableEq, Repr

inductive OvCase where
  | overlapIsLock
  | overlapContainsLock
  | lockContainsOverlap
  | overlapStartsBefore
  | overlapEndsAfter
  deriving DecidableEq, Repr

inductive Search where
  | noOverlap (before rest : List Lockf)
  | found (ovcase : OvCase) (before : List Lockf) (overlap : Lockf) (after : List Lockf)
  | panic
  deriving DecidableEq, Repr

def apart (lf lock : Lockf) : Bool :=
  (lf.lfEnd ≠ -1 && lock.lfStart > lf.lfEnd) || (lock.lfEnd ≠ -1 && lf.lfStart > lock.lfEnd)

/-- The tests for the cases 1 to 5, in their order. -/
def ovcaseOf (lf lock : Lockf) : Option OvCase :=
  if lf.lfStart = lock.lfStart ∧ lf.lfEnd = lock.lfEnd then some .overlapIsLock
  else if lf.lfStart ≤ lock.lfStart ∧ lock.lfEnd ≠ -1 ∧
      (lf.lfEnd ≥ lock.lfEnd ∨ lf.lfEnd = -1) then some .overlapContainsLock
  else if lock.lfStart ≤ lf.lfStart ∧
      (lock.lfEnd = -1 ∨ (lf.lfEnd ≠ -1 ∧ lock.lfEnd ≥ lf.lfEnd)) then some .lockContainsOverlap
  else if lf.lfStart < lock.lfStart ∧ (lf.lfEnd ≥ lock.lfStart ∨ lf.lfEnd = -1) then
    some .overlapStartsBefore
  else if lf.lfStart > lock.lfStart ∧ lock.lfEnd ≠ -1 ∧
      (lf.lfEnd > lock.lfEnd ∨ lf.lfEnd = -1) then some .overlapEndsAfter
  else none

def lfFindoverlap (who : Who) (lock : Lockf) (before : List Lockf) : List Lockf → Search
  | [] => .noOverlap before []
  | lf :: rest =>
    if (who = .self ∧ lf.lfId ≠ lock.lfId) ∨ (who = .others ∧ lf.lfId = lock.lfId) then
      lfFindoverlap who lock (before ++ [lf]) rest
    else if apart lf lock then
      -- only the own locks are known to be in order
      if who = .self ∧ lock.lfEnd ≠ -1 ∧ lf.lfStart > lock.lfEnd then
        .noOverlap before (lf :: rest)
      else lfFindoverlap who lock (before ++ [lf]) rest
    else
      match ovcaseOf lf lock with
      | some ovcase => .found ovcase before lf rest
      | none => .panic

def lfGetblock (lock : Lockf) : Nat → List Lockf → Option (Option Lockf)
  | 0, _ => some none
  | fuel + 1, locks =>
    match lfFindoverlap .others lock [] locks with
    | .noOverlap _ _ => some none
    | .panic => none
    | .found _ _ overlap after =>
      if lock.lfType = .wrlck ∨ overlap.lfType = .wrlck then some (some overlap)
      else lfGetblock lock fuel after

/-! ### Changing the list -/

/-- `lf_split`: what is left of `lock1` before and after `lock2`, and the spare lock. The copy
over the spare lock takes every field of `lock1`, its `lf_uid` included. -/
def lfSplit (lock1 lock2 : Lockf) (spare : Option Lockf) :
    Option (List Lockf × List Lockf × Option Lockf) :=
  if lock1.lfStart = lock2.lfStart then
    some ([], [{ lock1 with lfStart := off (lock2.lfEnd + 1) }], spare)
  else if lock1.lfEnd = lock2.lfEnd then
    some ([{ lock1 with lfEnd := off (lock2.lfStart - 1) }], [], spare)
  else
    match spare with
    | none => none
    | some splitlock =>
      some ([{ lock1 with lfEnd := off (lock2.lfStart - 1) }], [{ lock1 with
            ident := splitlock.ident
            lfStart := off (lock2.lfEnd + 1)
            lfBlkhd := [] }],
        none)

def lfClearLoop (unlock : Lockf) : Nat → List Lockf → List Lockf → Option Lockf → Env φ →
    Option (List Lockf × Option Lockf × Env φ)
  | 0, _, _, _, _ => none
  | fuel + 1, before, rest, spare, env =>
    match lfFindoverlap .self unlock before rest with
    | .noOverlap before rest => some (before ++ rest, spare, env)
    | .panic => none
    | .found ovcase before listed after =>
      let (env, overlap) := lfWakelock env listed
      match ovcase with
      | .overlapIsLock => some (before ++ after, spare, lfFree env overlap)
      | .overlapContainsLock =>
        if overlap.lfStart = unlock.lfStart then
          some (before ++ { overlap with lfStart := off (unlock.lfEnd + 1) } :: after, spare, env)
        else
          (lfSplit overlap unlock spare).map fun (front, back, spare) =>
            (before ++ front ++ back ++ after, spare, env)
      | .lockContainsOverlap =>
        lfClearLoop unlock fuel before after spare (lfFree env overlap)
      | .overlapStartsBefore =>
        lfClearLoop unlock fuel
          (before ++ [{ overlap with lfEnd := off (unlock.lfStart - 1) }]) after spare env
      | .overlapEndsAfter =>
        some (before ++ { overlap with lfStart := off (unlock.lfEnd + 1) } :: after, spare, env)

def lfClearlock (unlock : Lockf) (spare : Option Lockf) (locks : List Lockf) (env : Env φ) :
    Option (List Lockf × Option Lockf × Env φ) :=
  lfClearLoop unlock (locks.length + 1) [] locks spare env

/-- Case 3 hands the blocked requests on unless the lock is weaker. -/
def takeList (lock overlap : Lockf) (env : Env φ) : Lockf × Env φ :=
  if lock.lfType = .rdlck ∧ overlap.lfType = .wrlck then (lock, (lfWakelock env overlap).1)
  else
    ({ lock with lfBlkhd := lock.lfBlkhd ++ overlap.lfBlkhd },
      { env with sleepers := handTo lock.ident overlap.lfBlkhd env.sleepers })

def lfSetLoop : Nat → Lockf → Option (List Lockf) → List Lockf → List Lockf → Option Lockf →
    Env φ → Option (List Lockf × Option Lockf × Env φ)
  | 0, _, _, _, _, _, _ => none
  | fuel + 1, lock, front, before, rest, spare, env =>
    match lfFindoverlap .self lock before rest with
    | .panic => none
    | .noOverlap before rest =>
      match front with
      | none => some (before ++ lock :: rest, spare, env)
      | some front => some (front ++ lock :: before ++ rest, spare, env)
    | .found .overlapIsLock before overlap after =>
      match front with
      | some _ => none
      | none =>
        let (env, overlap) :=
          if lock.lfType = .rdlck ∧ overlap.lfType = .wrlck then lfWakelock env overlap
          else (env, overlap)
        some (before ++ { overlap with lfType := lock.lfType } :: after, spare, lfFree env lock)
    | .found .overlapContainsLock before overlap after =>
      match front with
      | some _ => none
      | none =>
        if overlap.lfType = lock.lfType then
          some (before ++ overlap :: after, spare, lfFree env lock)
        else
          let (env, overlap) := lfWakelock env overlap
          if overlap.lfStart = lock.lfStart then
            some (before ++ lock :: { overlap with lfStart := off (lock.lfEnd + 1) } :: after,
              spare, env)
          else
            (lfSplit overlap lock spare).map fun (left, right, spare) =>
              (before ++ left ++ lock :: right ++ after, spare, env)
    | .found .lockContainsOverlap before overlap after =>
      let (lock, env) := takeList lock overlap env
      match front with
      | none => lfSetLoop fuel lock (some before) [] after spare (lfFree env overlap)
      | some front => lfSetLoop fuel lock (some front) before after spare (lfFree env overlap)
    | .found .overlapStartsBefore before overlap after =>
      match front with
      | some _ => none
      | none =>
        let (env, overlap) := lfWakelock env overlap
        lfSetLoop fuel lock
          (some (before ++ [{ overlap with lfEnd := off (lock.lfStart - 1) }])) [] after spare
          env
    | .found .overlapEndsAfter before overlap after =>
      let (env, overlap) := lfWakelock env overlap
      let rest := { overlap with lfStart := off (lock.lfEnd + 1) } :: after
      match front with
      | none => some (before ++ lock :: rest, spare, env)
      | some front => some (front ++ lock :: before ++ rest, spare, env)

/-! ### Requests -/

inductive Outcome where
  | ok
  | eagain
  | edeadlk
  | eintr
  | enomem
  | einval
  | asleep
  deriving DecidableEq, Repr

/-- The lists of all files, and the address of the next structure that is allocated. -/
structure World (φ : Type) where
  heads : φ → List Lockf
  env : Env φ
  fresh : Nat

def maxlockdepth : Nat := 50

/-- The walk along the wait channels, with `maxlockdepth` less the count of the code as the
fuel; `threaded` tells the processes of more than one LWP. -/
def deadlocked (threaded : Nat → Bool) (curproc : Owner) (world : World φ) : Nat → Nat → Option Bool
  | 0, _ => some true
  | fuel + 1, p =>
    if threaded p then some (decide (fuel = 0))
    else
      match world.env.sleepers.find? fun s => s.lock.lfId = .proc p ∧ s.woken = false with
      | none => some (decide (fuel = 0))
      | some waiting => do
          let next ← waiting.lfNext
          let waitblock ← (world.heads waiting.lfHead).find? (·.ident = next)
          match waitblock.lfId with
          | .file _ => some (decide (fuel = 0))
          | .proc q =>
            if Owner.proc q = curproc then some true
            else deadlocked threaded curproc world fuel q

/-- Deadlock detection is for byte-range locks only. -/
def detected (threaded : Nat → Bool) (world : World φ) (lock block : Lockf) : Option Bool :=
  match lock.lfId, block.lfId with
  | .proc _, .proc p => deadlocked threaded lock.lfId world maxlockdepth p
  | _, _ => some false

variable [DecidableEq φ]

/-- A flock request for an exclusive lock gives up the shared one before it sleeps. -/
def giveUp (lock : Lockf) (locks : List Lockf) (env : Env φ) :
    Option (List Lockf × Option Lockf × Env φ) :=
  match lock.lfId, lock.lfType with
  | .file _, .wrlck => lfClearlock lock none locks env
  | _, _ => some (locks, none, env)

/-- `TAILQ_INSERT_TAIL(&block->lf_blkhd, lock, lf_block)`. -/
def enqueue (ident : Nat) (block : Nat) (locks : List Lockf) : List Lockf :=
  locks.map fun l => if l.ident = block then { l with lfBlkhd := l.lfBlkhd ++ [ident] } else l

/-- `TAILQ_REMOVE(&block->lf_blkhd, lock, lf_block)`. -/
def dequeue (ident : Nat) (block : Nat) (locks : List Lockf) : List Lockf :=
  locks.map fun l => if l.ident = block then { l with lfBlkhd := l.lfBlkhd.erase ident } else l

/-- `lf_setlock`, up to its return or its next sleep. -/
def lfSetlock (threaded : Nat → Bool) (world : World φ) (file : φ) (lock : Lockf) (wait : Bool)
    (spare : Option Lockf) : Option (Outcome × Option Lockf × World φ) :=
  let locks := world.heads file
  match lfGetblock lock locks.length locks with
  | none => none
  | some none =>
    (lfSetLoop (locks.length + 1) lock none [] locks spare world.env).map fun (locks, spare, env) =>
        (.ok, spare, { world with heads := update world.heads file locks, env := env })
  | some (some block) =>
    if wait = false then some (.eagain, spare, { world with env := lfFree world.env lock })
    else
      match detected threaded world lock block with
      | none => none
      | some true => some (.edeadlk, spare, { world with env := lfFree world.env lock })
      | some false =>
        (giveUp lock locks world.env).map fun (locks, _, env) =>
          let sleeper : Sleeper φ := ⟨lock, file, spare, some block.ident, false⟩
          (.asleep, none, { world with
              heads := update world.heads file (enqueue lock.ident block.ident locks)
              env := { env with sleepers := sleeper :: env.sleepers } })

/-- The end of `lf_advlock` for a call that does not sleep. -/
def freeSpare (spare : Option Lockf) (world : World φ) : World φ :=
  match spare with
  | none => world
  | some spare => { world with env := lfFree world.env spare }

inductive Op where
  | setlk
  | unlck
  | getlk
  deriving DecidableEq, Repr

/-- What `lf_advlock` does with its structures from `mutex_enter` on. -/
def lfOperate (threaded : Nat → Bool) (world : World φ) (op : Op) (file : φ) (lock : Lockf)
    (wait : Bool) (spare : Option Lockf) : Option (Outcome × World φ) :=
  if world.heads file = [] ∧ op ≠ .setlk then
    some (.ok, freeSpare spare { world with env := lfFree world.env lock })
  else
    match op with
    | .setlk =>
      (lfSetlock threaded world file lock wait spare).map fun (outcome, spare, world) =>
        (outcome, freeSpare spare world)
    | .unlck =>
      (lfClearlock lock spare (world.heads file) world.env).map fun (locks, spare, env) =>
        (.ok, freeSpare spare
          { world with heads := update world.heads file locks, env := lfFree env lock })
    | .getlk =>
      (lfGetblock lock (world.heads file).length (world.heads file)).map fun _ =>
        (.ok, freeSpare spare { world with env := lfFree world.env lock })

inductive Whence where
  | set
  | cur
  | eof
  | other
  deriving DecidableEq, Repr

/-- The arguments of `lf_advlock`, the length of the file and the effective user. -/
structure Call (φ : Type) where
  op : Op
  file : φ
  id : Owner
  wait : Bool
  lType : LockType
  lWhence : Whence
  lStart : Int
  lLen : Int
  size : Int
  euid : Nat
  deriving DecidableEq, Repr

/-- Where the range of a call is counted from. -/
def Call.origin (call : Call φ) : Option Int :=
  match call.lWhence with
  | .set | .cur => some call.lStart
  | .eof => some (off (call.size + call.lStart))
  | .other => none

/-- The start and the end of a range of a length; `lockf()` allows negative lengths. -/
def ends (start len : Int) : Int × Int :=
  if len = 0 then (start, -1)
  else if len > 0 then (start, off (off (start + len) - 1))
  else (off (start + len), off (start - 1))

/-- Convert the flock structure into a start and an end. -/
def Call.range (call : Call φ) : Option (Int × Int) :=
  call.origin.bind fun start =>
    if (ends start call.lLen).1 < 0 then none else some (ends start call.lLen)

def maxlocksperuid : Int := 1024

def lfAlloc (world : World φ) (uid allowfail : Nat) : Option Lockf × World φ :=
  let lcnt := world.env.lockcnt uid + 1
  let limit := if allowfail = 1 then maxlocksperuid else maxlocksperuid * 2
  if uid ≠ 0 ∧ allowfail ≠ 0 ∧ lcnt % 2 ^ 64 > limit then (none, world)
  else
    (some ⟨world.fresh, .rdlck, 0, 0, .proc 0, [], uid⟩, { world with
        env := { world.env with lockcnt := update world.env.lockcnt uid lcnt }
        fresh := world.fresh + 1 })

/-- Which of its limits `lf_advlock` allocates the lock under. -/
def allowfail (op : Op) (start stop : Int) : Nat :=
  match op with
  | .setlk => 1
  | .unlck => if start = 0 ∨ stop = -1 then 0 else 2
  | .getlk => 0

/-- A byte-range lock might need one more lock. -/
def needsSpare (call : Call φ) : Bool :=
  match call.op, call.id with
  | .getlk, _ => false
  | _, .proc _ => true
  | _, .file _ => false

def lfAdvlock (threaded : Nat → Bool) (world : World φ) (call : Call φ) :
    Option (Outcome × World φ) :=
  match call.range with
  | none => some (.einval, world)
  | some (start, stop) =>
    let (spare, world) := if needsSpare call then lfAlloc world call.euid 0 else (none, world)
    match lfAlloc world call.euid (allowfail call.op start stop) with
    | (none, world) => some (.enomem, freeSpare spare world)
    | (some lock, world) =>
      lfOperate threaded world call.op call.file
        { lock with lfType := call.lType, lfStart := start, lfEnd := stop, lfId := call.id }
        call.wait spare

/-- The lists after a request has left the queue it may stand in. -/
def withdrawn (heads : φ → List Lockf) (sleeper : Sleeper φ) : φ → List Lockf :=
  match sleeper.lfNext with
  | none => heads
  | some block =>
    update heads sleeper.lfHead (dequeue sleeper.lock.ident block (heads sleeper.lfHead))

def World.withdraw (world : World φ) (sleeper : Sleeper φ) : World φ :=
  { world with
    heads := withdrawn world.heads sleeper
    env := { world.env with
      sleepers := world.env.sleepers.filter (·.lock.ident ≠ sleeper.lock.ident) } }

/-- A sleeping request runs again, after `lf_wakelock` or with an error for a signal. -/
def lfResume (threaded : Nat → Bool) (world : World φ) (ident : Nat) (error : Bool) :
    Option (Outcome × World φ) :=
  match world.env.sleepers.find? (·.lock.ident = ident) with
  | none => some (.ok, world)
  | some sleeper =>
    if sleeper.woken = false ∧ error = false then some (.asleep, world)
    else
      let world := world.withdraw sleeper
      if error then
        some (.eintr, freeSpare sleeper.spare { world with env := lfFree world.env sleeper.lock })
      else
        (lfSetlock threaded world sleeper.lfHead sleeper.lock true sleeper.spare).map
          fun (outcome, spare, world) => (outcome, freeSpare spare world)

/-- One step of the system. -/
inductive Input (φ : Type) where
  | call (threaded : Nat → Bool) (call : Call φ)
  | resume (threaded : Nat → Bool) (ident : Nat) (error : Bool)

def lockfStep (world : World φ) (input : Input φ) : Option (World φ) :=
  match input with
  | .call threaded call => (lfAdvlock threaded world call).map Prod.snd
  | .resume threaded ident error => (lfResume threaded world ident error).map Prod.snd

def World.empty : World φ := ⟨fun _ => [], ⟨[], fun _ => 0⟩, 0⟩

/-!
### Ranges

The ranges of advisory locks: the bytes that a lock covers, when two ranges
are apart, and what a request of the same owner leaves of a lock.
-/

def Lockf.last (lock : Lockf) : Int := if lock.lfEnd = -1 then offMax else lock.lfEnd

def Lockf.Covers (lock : Lockf) (byte : Int) : Prop := lock.lfStart ≤ byte ∧ byte ≤ lock.last

instance (lock : Lockf) (byte : Int) : Decidable (lock.Covers byte) :=
  inferInstanceAs (Decidable (_ ∧ _))

/-- The range is one of existing bytes. -/
structure Lockf.Ranged (lock : Lockf) : Prop where
  nonneg : 0 ≤ lock.lfStart
  ordered : lock.lfStart ≤ lock.last
  bounded : lock.last ≤ offMax

/-- The whole range lies before the range of another lock. -/
def Lockf.Precedes (left right : Lockf) : Prop := left.last < right.lfStart

/-- The locks of each owner are in order and disjoint. -/
def OwnSorted (locks : List Lockf) : Prop :=
  locks.Pairwise fun left right => left.lfId = right.lfId → left.Precedes right

/-- An own lock up to the end of the file that the request ends in at the largest byte. -/
def Cuts (lock l : Lockf) : Prop :=
  l.lfId = lock.lfId ∧ lock.lfEnd = offMax ∧ l.lfEnd = -1

/-- An own lock that the request overlaps. -/
def hit (lock l : Lockf) : Bool := decide (l.lfId = lock.lfId) && !apart l lock

def leftOf (lock l : Lockf) : List Lockf :=
  if l.lfStart < lock.lfStart then [{ l with lfEnd := lock.lfStart - 1, lfBlkhd := [] }] else []

/-- What is left of an own lock after the request; if there is a part before it, this one is
kept in the spare lock. -/
def rightOf (spare : Nat) (lock l : Lockf) : List Lockf :=
  if lock.last < l.last then
    [{ l with
        ident := if l.lfStart < lock.lfStart then spare else l.ident
        lfStart := lock.last + 1
        lfBlkhd := [] }]
  else []

/-- What a request leaves of a lock. -/
def remains (spare : Nat) (lock l : Lockf) : List Lockf :=
  if hit lock l then leftOf lock l ++ rightOf spare lock l else [l]

section Range

variable {lock l : Lockf}

theorem last_cases (lock : Lockf) :
    lock.lfEnd = -1 ∧ lock.last = offMax ∨ lock.lfEnd ≠ -1 ∧ lock.last = lock.lfEnd := by
  unfold Lockf.last
  split
  · exact Or.inl ⟨by assumption, rfl⟩
  · exact Or.inr ⟨by assumption, rfl⟩

theorem apart_iff (ranged : l.Ranged) (lrng : lock.Ranged) :
    apart l lock = true ↔ l.Precedes lock ∨ lock.Precedes l := by
  have lastL := last_cases l
  have lastLock := last_cases lock
  have boundL := ranged.ordered
  have boundLock := lrng.ordered
  have limitL := ranged.bounded
  have limitLock := lrng.bounded
  simp only [apart, Lockf.Precedes, Bool.or_eq_true, Bool.and_eq_true, decide_eq_true_eq]
  omega

theorem hit_iff (ranged : l.Ranged) (lrng : lock.Ranged) : hit lock l = true ↔
      l.lfId = lock.lfId ∧ lock.lfStart ≤ l.last ∧ l.lfStart ≤ lock.last := by
  have apartIff := apart_iff ranged lrng
  unfold Lockf.Precedes at apartIff
  simp only [hit, Bool.and_eq_true, decide_eq_true_eq, Bool.not_eq_true']
  rw [← Bool.not_eq_true, apartIff]
  constructor
  · rintro ⟨own, together⟩
    exact ⟨own, by omega, by omega⟩
  · rintro ⟨own, left, right⟩
    exact ⟨own, by omega⟩

theorem off_eq {v : Int} (low : -1 ≤ v) (high : v ≤ offMax) : off v = v := by
  unfold off
  unfold offMax at high
  rw [Int.bmod_eq_of_le] <;> omega

/-- A range that overlaps falls under one of the five cases, and the case tells the relation of
the ends. -/
theorem ovcaseOf_cases (ranged : l.Ranged) (lrng : lock.Ranged)
    (left : lock.lfStart ≤ l.last) (right : l.lfStart ≤ lock.last) :
    ovcaseOf l lock = some .overlapIsLock ∧ l.lfStart = lock.lfStart ∧ l.lfEnd = lock.lfEnd ∨
      ovcaseOf l lock = some .overlapContainsLock ∧
        l.lfStart ≤ lock.lfStart ∧ lock.lfEnd ≠ -1 ∧ lock.last ≤ l.last ∧
          ¬ (l.lfStart = lock.lfStart ∧ l.lfEnd = lock.lfEnd) ∨
      ovcaseOf l lock = some .lockContainsOverlap ∧ lock.lfStart ≤ l.lfStart ∧ l.last ≤ lock.last ∨
      ovcaseOf l lock = some .overlapStartsBefore ∧ l.lfStart < lock.lfStart ∧ l.last ≤ lock.last ∨
      ovcaseOf l lock = some .overlapEndsAfter ∧ lock.lfStart < l.lfStart ∧ lock.lfEnd ≠ -1 ∧
          (l.lfEnd = -1 ∨ lock.lfEnd < l.lfEnd) := by
  have lastL := last_cases l
  have lastLock := last_cases lock
  have limitL := ranged.bounded
  have limitLock := lrng.bounded
  unfold ovcaseOf
  split_ifs with equal contains contained before after
  · exact Or.inl ⟨rfl, equal.1, equal.2⟩
  · exact Or.inr (Or.inl ⟨rfl, contains.1, contains.2.1, by omega, equal⟩)
  · exact Or.inr (Or.inr (Or.inl ⟨rfl, contained.1, by omega⟩))
  · exact Or.inr (Or.inr (Or.inr (Or.inl ⟨rfl, before.1, by omega⟩)))
  · exact Or.inr (Or.inr (Or.inr (Or.inr ⟨rfl, by omega, after.2.1, by omega⟩)))
  · exfalso
    omega

end Range

end NetBSD.Kern.VfsLockf
