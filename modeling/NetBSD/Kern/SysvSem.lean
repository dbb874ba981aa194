import Mathlib.Data.List.Basic

/-!
Owns the System V semaphores of `sys/kern/sysv_sem.c`. The array `sem` is a map from
its indices, and a set has the index of its first semaphore for `_sem_base`. Each
function is the section that it runs under `semlock`; the answers of `ipcperm` and
`copyin` come with the call. `none` stands for a panic.
-/

namespace NetBSD.Kern.SysvSem

inductive Errno where
  | eintr
  | e2big
  | eacces
  | efault
  | eexist
  | einval
  | efbig
  | enospc
  | enoent
  | erange
  | eagain
  | ebusy
  | enomem
  | eidrm
deriving DecidableEq, Repr

/-- `seminfo.semmsl`, `seminfo.semopm`, `seminfo.semvmx` and `SEMUME`, which no call changes. -/
def semmsl : Nat := 60
def semopm : Nat := 100
def semvmx : Int := 32767
def semume : Nat := 10

/-- The number of operations that `sys_semop` has room for on its stack. -/
def smallSops : Nat := 8

def ushort (x : Int) : Int := x % 65536

def short (x : Int) : Int := (x + 32768) % 65536 - 32768

structure Sem where
  semval : Int
  sempid : Nat
  semncnt : Nat
  semzcnt : Nat
deriving DecidableEq

/-- `struct semid_ds` with `SEM_ALLOC` for the mode. -/
structure Semid where
  alloc : Bool
  seq : Nat
  key : Int
  sem_nsems : Nat
  _sem_base : Nat
deriving DecidableEq

/-- `struct sembuf` with the two flags. -/
structure Sembuf where
  sem_num : Nat
  sem_op : Int
  nowait : Bool
  undo : Bool
  isShort : -32768 ≤ sem_op ∧ sem_op ≤ 32767
deriving DecidableEq

structure UndoEntry where
  un_adjval : Int
  un_num : Nat
  un_id : Nat
deriving DecidableEq

/-- `struct sem_undo` with the entries below `un_cnt`. -/
structure Undo where
  un_proc : Nat
  un_ent : List UndoEntry
deriving DecidableEq

structure State where
  semmni : Nat
  semmns : Nat
  semmnu : Nat
  sema : Nat → Semid
  sem : Nat → Sem
  semtot : Nat
  semu_list : List Undo
  sem_realloc_state : Bool

section Values

def setVal (sem : Nat → Sem) (i : Nat) (semval : Int) : Nat → Sem := fun j =>
  if j = i then { sem j with semval := semval } else sem j

def addVal (sem : Nat → Sem) (i : Nat) (x : Int) : Nat → Sem :=
  setVal sem i (ushort ((sem i).semval + x))

/-- What the loop of `sys_semop` over the operations has. -/
structure Pass where
  sem : Nat → Sem
  do_wakeup : Bool
  do_undos : Bool

/-- One operation; `none` when it has to wait. -/
def applyOp (base : Nat) (sop : Sembuf) (pass : Pass) : Option Pass :=
  let semptr := pass.sem (base + sop.sem_num)
  if sop.sem_op < 0 then
    if semptr.semval + sop.sem_op < 0 then none
    else
      let sem := addVal pass.sem (base + sop.sem_num) sop.sem_op
      some ⟨sem,
        pass.do_wakeup || decide ((sem (base + sop.sem_num)).semval = 0 ∧ semptr.semzcnt > 0),
        pass.do_undos || sop.undo⟩
  else if sop.sem_op = 0 then
    if semptr.semval > 0 then none else some pass
  else
    some ⟨addVal pass.sem (base + sop.sem_num) sop.sem_op,
      pass.do_wakeup || decide (semptr.semncnt > 0), pass.do_undos || sop.undo⟩

/-- The loop over the operations, with the number of those that were done. -/
def applyLoop (base : Nat) : List Sembuf → Pass → Nat × Pass
  | [], pass => (0, pass)
  | sop :: rest, pass =>
    match applyOp base sop pass with
    | none => (0, pass)
    | some pass =>
      let (i, pass) := applyLoop base rest pass
      (i + 1, pass)

/-- The loops that take operations back. -/
def rollback (base : Nat) : List Sembuf → (Nat → Sem) → Nat → Sem
  | [], sem => sem
  | sop :: rest, sem => rollback base rest (addVal sem (base + sop.sem_num) (-sop.sem_op))

/-- The counter of those that wait goes up or down by one. -/
def countWaiter (sem : Nat → Sem) (i : Nat) (sop : Sembuf) (change : Int) : Nat → Sem := fun j =>
  if j = i then
    if sop.sem_op = 0 then { sem j with semzcnt := (ushort ((sem j).semzcnt + change)).toNat }
    else { sem j with semncnt := (ushort ((sem j).semncnt + change)).toNat }
  else sem j

def setPids (base pid : Nat) : List Sembuf → (Nat → Sem) → Nat → Sem
  | [], sem => sem
  | sop :: rest, sem =>
    setPids base pid rest fun j =>
      if j = base + sop.sem_num then { sem j with sempid := pid } else sem j

end Values

section Undos

def fillHole : List UndoEntry → List UndoEntry
  | [] => []
  | ent :: rest => (ent :: rest).getLast (List.cons_ne_nil ent rest) :: (ent :: rest).dropLast

def adjustLoop (semid semnum : Nat) (adjval : Int) : List UndoEntry → Option (List UndoEntry)
  | [] => none
  | ent :: rest =>
    if ent.un_id ≠ semid ∨ ent.un_num ≠ semnum then
      (adjustLoop semid semnum adjval rest).map (ent :: ·)
    else
      let un_adjval := short (ent.un_adjval + adjval)
      if un_adjval = 0 then some (fillHole rest)
      else some ({ ent with un_adjval := un_adjval } :: rest)

/-- The adjustment of the entries of one process; `none` when there is no room. -/
def adjustEntries (semid semnum : Nat) (adjval : Int) (ents : List UndoEntry) :
    Option (List UndoEntry) :=
  match adjustLoop semid semnum adjval ents with
  | some ents => some ents
  | none => if ents.length = semume then none else some (ents ++ [⟨short adjval, semnum, semid⟩])

def semuAlloc (semmnu : Nat) (semu_list : List Undo) (p : Nat) : Option (List Undo) :=
  if semu_list.length < semmnu then some (⟨p, []⟩ :: semu_list)
  else
    let kept := semu_list.filter fun suptr => decide (suptr.un_ent ≠ [])
    if kept.length < semu_list.length then
      if kept.length < semmnu then some (⟨p, []⟩ :: kept) else none
    else none

def findUndo (p : Nat) : List Undo → Option (List UndoEntry)
  | [] => none
  | suptr :: rest => if suptr.un_proc = p then some suptr.un_ent else findUndo p rest

def setUndo (p : Nat) (ents : List UndoEntry) : List Undo → List Undo
  | [] => []
  | suptr :: rest =>
    if suptr.un_proc = p then { suptr with un_ent := ents } :: rest
    else suptr :: setUndo p ents rest

/-- `semundo_adjust`. The structure that it remembers for its caller is that of the process. -/
def semundoAdjust (semmnu p semid semnum : Nat) (adjval : Int) (semu_list : List Undo) :
    Except Errno (List Undo) :=
  match findUndo p semu_list with
  | some ents =>
    match adjustEntries semid semnum adjval ents with
    | some ents => .ok (setUndo p ents semu_list)
    | none => .error .einval
  | none =>
    match semuAlloc semmnu semu_list p with
    | none => .error .enospc
    | some semu_list =>
      match adjustEntries semid semnum adjval [] with
      | some ents => .ok (setUndo p ents semu_list)
      | none => .error .einval

/-- The loop of `semundo_clear` over the entries of one structure; no number stands for all. -/
def clearLoop (semid : Nat) (semnum : Option Nat) : Nat → List UndoEntry → List UndoEntry
  | 0, ents => ents
  | _ + 1, [] => []
  | fuel + 1, ent :: rest =>
    if ent.un_id = semid then
      match semnum with
      | none => clearLoop semid none fuel (fillHole rest)
      | some num =>
        if ent.un_num = num then fillHole rest else ent :: clearLoop semid semnum fuel rest
    else ent :: clearLoop semid semnum fuel rest

def semundoClear (semid : Nat) (semnum : Option Nat) (semu_list : List Undo) : List Undo :=
  semu_list.map fun suptr =>
    { suptr with un_ent := clearLoop semid semnum (suptr.un_ent.length + 1) suptr.un_ent }

section Semop

variable (semmnu p semid : Nat)

def recordUndo (sop : Sembuf) (semu_list : List Undo) : Except Errno (List Undo) :=
  if sop.undo = false ∨ sop.sem_op = 0 then .ok semu_list
  else semundoAdjust semmnu p semid sop.sem_num (-sop.sem_op) semu_list

def unrecordLoop : List Sembuf → List Undo → Option (List Undo)
  | [], semu_list => some semu_list
  | sop :: rest, semu_list =>
    if sop.undo = false ∨ sop.sem_op = 0 then unrecordLoop rest semu_list
    else
      match semundoAdjust semmnu p semid sop.sem_num sop.sem_op semu_list with
      | .ok semu_list => unrecordLoop rest semu_list
      | .error _ => none

/-- The loop that records the undos, with the operations before in reverse order. The result has the
error for which they were taken back. -/
def recordLoop : List Sembuf → List Sembuf → List Undo → Option (List Undo × Option Errno)
  | [], _, semu_list => some (semu_list, none)
  | sop :: rest, done, semu_list =>
    match recordUndo semmnu p semid sop semu_list with
    | .ok semu_list => recordLoop rest (sop :: done) semu_list
    | .error error =>
      (unrecordLoop semmnu p semid done semu_list).map fun semu_list => (semu_list, some error)

end Semop

end Undos

/-- What one try of `sys_semop` comes to. -/
inductive Outcome where
  | done (after : State) (do_wakeup : Bool)
  | failed (error : Errno) (after : State)
  | sleeps (after : State) (sop : Sembuf) (do_undos : Bool)

section Semop

/-- The body of the loop of `sys_semop`, and what follows it when all operations were done. -/
def semopTry (state : State) (p semid : Nat) (sops : List Sembuf) (do_undos : Bool) :
    Option Outcome :=
  let base := (state.sema semid)._sem_base
  let (i, pass) := applyLoop base sops ⟨state.sem, false, do_undos⟩
  match sops.drop i with
  | sop :: _ =>
    let sem := rollback base (sops.take i).reverse pass.sem
    if sop.nowait then some (.failed .eagain { state with sem := sem })
    else
      some (.sleeps { state with sem := countWaiter sem (base + sop.sem_num) sop 1 } sop
        pass.do_undos)
  | [] => do
      let (semu_list, error) ←
        if pass.do_undos then recordLoop state.semmnu p semid sops [] state.semu_list
        else some (state.semu_list, none)
      match error with
      | some error =>
        some (.failed error
          { state with sem := rollback base sops pass.sem, semu_list := semu_list })
      | none =>
        some (.done { state with sem := setPids base p sops pass.sem, semu_list := semu_list }
          pass.do_wakeup)

def ipcidToIx (id : Int) : Nat := (id % 65536).toNat

def ipcidToSeq (id : Int) : Nat := (id / 65536 % 65536).toNat

/-- A call of `sys_semop`, with the answers of `copyin` and `ipcperm`. -/
structure Request where
  proc : Nat
  semid : Int
  sops : List Sembuf
  copyin : Option Errno
  ipcperm : Option Errno

def semopCheck (state : State) (request : Request) : Option Errno :=
  let semid := ipcidToIx request.semid
  if request.sops.length > smallSops ∧ request.sops.length > semopm then some .e2big
  else if request.copyin ≠ none then request.copyin
  else if semid ≥ state.semmni then some .einval
  else if (state.sema semid).alloc = false ∨
      (state.sema semid).seq ≠ ipcidToSeq request.semid then some .einval
  else if request.ipcperm ≠ none then request.ipcperm
  else if request.sops.any fun sop => decide (sop.sem_num ≥ (state.sema semid).sem_nsems) then
    some .efbig
  else none

/-- `sys_semop` from its call to its end or its first sleep. -/
def sysSemop (state : State) (request : Request) : Option Outcome :=
  match semopCheck state request with
  | some error => some (.failed error state)
  | none => semopTry state request.proc (ipcidToIx request.semid) request.sops false

/-- What a sleep in `sys_semop` keeps. -/
structure Sleep where
  proc : Nat
  semid : Nat
  seq : Nat
  sops : List Sembuf
  sop : Sembuf
  do_undos : Bool

def semopWake (state : State) (sleep : Sleep) (interrupted : Bool) : Option Outcome :=
  let semaptr := state.sema sleep.semid
  if semaptr.alloc = false ∨ semaptr.seq ≠ sleep.seq then some (.failed .eidrm state)
  else
    let state := { state with
      sem := countWaiter state.sem (semaptr._sem_base + sleep.sop.sem_num) sleep.sop (-1) }
    if interrupted then some (.failed .eintr state)
    else semopTry state sleep.proc sleep.semid sleep.sops sleep.do_undos

end Semop

section Semexit

def exitLoop (sema : Nat → Semid) : List UndoEntry → (Nat → Sem) → Option (Nat → Sem)
  | [], sem => some sem
  | ent :: rest, sem =>
    let semaptr := sema ent.un_id
    if semaptr.alloc = false ∧ ent.un_num ≥ semaptr.sem_nsems then none
    else
      let i := semaptr._sem_base + ent.un_num
      exitLoop sema rest (if ent.un_adjval < 0 ∧ (sem i).semval < -ent.un_adjval then setVal sem i 0
        else addVal sem i ent.un_adjval)

/-- The list without the structure of a process. -/
def removeUndo (p : Nat) : List Undo → List Undo
  | [] => []
  | suptr :: rest => if suptr.un_proc = p then rest else suptr :: removeUndo p rest

/-- `semexit`, with the sets that it broadcasts to. -/
def semexit (state : State) (p : Nat) : Option (State × List Nat) :=
  match findUndo p state.semu_list with
  | none => some (state, [])
  | some ents => do
      let sem ← exitLoop state.sema ents state.sem
      some ({ state with sem := sem, semu_list := removeUndo p state.semu_list },
        ents.map UndoEntry.un_id)

end Semexit

section Semctl

def semctlCheck (state : State) (semid : Int) : Option Errno :=
  let ix := ipcidToIx semid
  if ix ≥ state.semmni then some .einval
  else if (state.sema ix).alloc = false ∨ (state.sema ix).seq ≠ ipcidToSeq semid then some .einval
  else none

def semctlSetval (state : State) (semid semnum val : Int) (ipcperm : Option Errno) :
    Except Errno State :=
  let ix := ipcidToIx semid
  let semaptr := state.sema ix
  match semctlCheck state semid with
  | some error => .error error
  | none =>
    match ipcperm with
    | some error => .error error
    | none =>
      if semnum < 0 ∨ semnum ≥ semaptr.sem_nsems then .error .einval
      else if val % 4294967296 > semvmx then .error .erange
      else .ok { state with
        sem := setVal state.sem (semaptr._sem_base + semnum.toNat) (ushort val)
        semu_list := semundoClear ix (some semnum.toNat) state.semu_list }

/-- The loop of `SETALL` over the values, none of which is one that `copyin` failed on. -/
def setallLoop (base : Nat) : Nat → List (Option Nat) → (Nat → Sem) → (Nat → Sem) × Option Errno
  | _, [], sem => (sem, none)
  | _, none :: _, sem => (sem, some .efault)
  | i, some semval :: rest, sem =>
    if (semval : Int) > semvmx then (sem, some .erange)
    else setallLoop base (i + 1) rest (setVal sem (base + i) semval)

/-- `SETALL`; the array has a value for each semaphore. It broadcasts in spite of an error of the
loop. -/
def semctlSetall (state : State) (semid : Int) (array : Nat → Option Nat)
    (ipcperm : Option Errno) : Except Errno (State × Option Errno) :=
  let ix := ipcidToIx semid
  let semaptr := state.sema ix
  match semctlCheck state semid with
  | some error => .error error
  | none =>
    match ipcperm with
    | some error => .error error
    | none =>
      let (sem, error) := setallLoop semaptr._sem_base 0
        ((List.range semaptr.sem_nsems).map array) state.sem
      .ok ({ state with sem := sem, semu_list := semundoClear ix none state.semu_list }, error)

/-- The semaphores behind those of a removed set move down. -/
def compact (sem : Nat → Sem) (base nsems semtot : Nat) : Nat → Sem := fun i =>
  if base ≤ i ∧ i < semtot then sem (i + nsems) else sem i

def removeSet (state : State) (ix : Nat) : State :=
  let semaptr := state.sema ix
  let semtot := state.semtot - semaptr.sem_nsems
  { state with
    semtot := semtot
    sem := compact state.sem semaptr._sem_base semaptr.sem_nsems semtot
    sema := fun i =>
      let other := state.sema i
      let other :=
        if i < state.semmni ∧ other.alloc = true ∧ other._sem_base > semaptr._sem_base then
          { other with _sem_base := other._sem_base - semaptr.sem_nsems }
        else other
      if i = ix then { other with alloc := false } else other
    semu_list := semundoClear ix none state.semu_list }

def semctlRmid (state : State) (semid : Int) (ipcperm : Option Errno) : Except Errno State :=
  match semctlCheck state semid with
  | some error => .error error
  | none =>
    match ipcperm with
    | some error => .error error
    | none => .ok (removeSet state (ipcidToIx semid))

end Semctl

section Semget

/-- A call of `sys_semget`; `perm` is the answer of `ipcperm` on a set that exists. -/
structure Get where
  key : Int
  nsems : Int
  creat : Bool
  excl : Bool
  ipcperm : Option Errno

def findSet (test : Nat → Bool) : Nat → Nat → Option Nat
  | 0, _ => none
  | fuel + 1, semid => if test semid then some semid else findSet test fuel (semid + 1)

def ixseqToIpcid (ix seq : Nat) : Int := seq * 65536 + ix % 65536

def addSet (state : State) (semid : Nat) (key : Int) (nsems : Nat) : State :=
  { state with
    sema := fun i =>
      if i = semid then ⟨true, ((state.sema semid).seq + 1) % 32768, key, nsems, state.semtot⟩
      else state.sema i
    sem := fun i =>
      if state.semtot ≤ i ∧ i < state.semtot + nsems then ⟨0, 0, 0, 0⟩ else state.sem i
    semtot := state.semtot + nsems }

/-- A new set in the first free slot. -/
def semgetAlloc (state : State) (get : Get) : Except Errno (State × Int) :=
  if get.nsems ≤ 0 ∨ get.nsems > semmsl then .error .einval
  else if get.nsems > state.semmns - state.semtot then .error .enospc
  else
    match findSet (fun semid => !(state.sema semid).alloc) state.semmni 0 with
    | none => .error .enospc
    | some semid =>
      let after := addSet state semid get.key get.nsems.toNat
      .ok (after, ixseqToIpcid semid (after.sema semid).seq)

def sysSemget (state : State) (get : Get) : Except Errno (State × Int) :=
  let found :=
    if get.key = 0 then none
    else
      findSet (fun semid => (state.sema semid).alloc && decide ((state.sema semid).key = get.key))
        state.semmni 0
  match found with
  | some semid =>
    match get.ipcperm with
    | some error => .error error
    | none =>
      if get.nsems > 0 ∧ ((state.sema semid).sem_nsems : Int) < get.nsems then .error .einval
      else if get.creat ∧ get.excl then .error .eexist
      else .ok (state, ixseqToIpcid semid (state.sema semid).seq)
  | none =>
    if get.key = 0 ∨ get.creat = true then semgetAlloc state get else .error .enoent

end Semget

section Semrealloc

def lastSet (sema : Nat → Semid) : Nat → Nat
  | 0 => 0
  | i + 1 => if (sema i).alloc then i else lastSet sema i

/-- The copying of the sets from one on: the new sets, the new semaphores, and their number. -/
def copySets (old : State) :
    Nat → Nat → (Nat → Semid) → (Nat → Sem) → Nat → (Nat → Semid) × (Nat → Sem) × Nat
  | 0, _, sema, sem, j => (sema, sem, j)
  | fuel + 1, i, sema, sem, j =>
    let semaptr := old.sema i
    if semaptr.alloc = false then copySets old fuel (i + 1) sema sem j
    else
      copySets old fuel (i + 1) (fun k => if k = i then { semaptr with _sem_base := j } else sema k)
        (fun k =>
          if j ≤ k ∧ k < j + semaptr.sem_nsems then old.sem (semaptr._sem_base + (k - j))
          else sem k)
        (j + semaptr.sem_nsems)

/-- `semrealloc` when no process sleeps in `sys_semop`; `allocated` is whether there is memory. An
error after the first check leaves `sem_realloc_state` set. `none` is the failed assertion. -/
def semrealloc (state : State) (newsemmni newsemmns newsemmnu : Int) (allocated : Bool) :
    Option (State × Option Errno) :=
  if newsemmni < 1 ∨ newsemmns < 1 ∨ newsemmnu < 1 then some (state, some .einval)
  else if allocated = false then some (state, some .enomem)
  else if state.sem_realloc_state then some (state, some .ebusy)
  else
    let lsemid := lastSet state.sema state.semmni
    if lsemid ≥ newsemmni ∨ state.semtot > newsemmns ∨ state.semu_list.length > newsemmnu then
      some ({ state with sem_realloc_state := true }, some .ebusy)
    else
      let (sema, sem, j) := copySets state (lsemid + 1) 0 (fun _ => ⟨false, 0, 0, 0, 0⟩)
        (fun _ => ⟨0, 0, 0, 0⟩) 0
      if j ≠ state.semtot then none
      else
        some (⟨newsemmni.toNat, newsemmns.toNat, newsemmnu.toNat, sema, sem, state.semtot,
          state.semu_list.reverse, false⟩, none)

end Semrealloc

def seminit : State where
  semmni := 10
  semmns := 60
  semmnu := 30
  sema := fun _ => ⟨false, 0, 0, 0, 0⟩
  sem := fun _ => ⟨0, 0, 0, 0⟩
  semtot := 0
  semu_list := []
  sem_realloc_state := false

end NetBSD.Kern.SysvSem
