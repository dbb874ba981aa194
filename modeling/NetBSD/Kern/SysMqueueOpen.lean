import NetBSD.Kern.SysMqueue
import NetBSD.Machine.Trace

/-!
Owns the life of the message queues of `sys/kern/sys_mqueue.c`: `mq_open`,
`mq_close` and `mq_unlink`, the list of queues, the references from open files
and the count of each process. A queue is named by the order of its allocation.
A failed `KASSERT`, or a use of memory that was freed, has no next state.
-/

namespace NetBSD.Kern.SysMqueue

/-- The `struct mq_attr` that a process passes. -/
structure MqAttrArg where
  mq_maxmsg : Int
  mq_msgsize : Int

/-- The process of a call: its credentials, and `cwdi_cmask`. -/
structure Caller where
  proc : Nat
  euid : Nat
  egid : Nat
  cmask : UInt32

/-- The arguments of `mq_open`, with what the copies from user space and
`fd_allocfile` give. -/
structure OpenArgs where
  name : Except Errno (List UInt8)
  /-- `O_CREAT`. -/
  creat : Bool
  /-- `O_EXCL`. -/
  excl : Bool
  /-- `O_NONBLOCK`. -/
  nonblock : Bool
  /-- `FREAD`. -/
  read : Bool
  /-- `FWRITE`. -/
  write : Bool
  mode : UInt32
  attr : Option (Except Errno MqAttrArg)
  fd : Except Errno Nat

/-- The decisions of `genfs_can_access` and `kauth_authorize_system`. -/
structure MqPolicy where
  genfs_can_access : (mode : UInt32) → (euid egid : Nat) → (read write : Bool) → Caller → Bool
  kauth_authorize_system : Caller → Mqueue → Bool

/-- An open file that refers to a message queue, under its descriptor. -/
structure MqFile where
  proc : Nat
  fd : Nat
  queue : Nat
  read : Bool
  write : Bool
deriving DecidableEq

structure MqWorld where
  mqueue_head : List Nat
  /-- The queues in memory. -/
  queues : Nat → Option Mqueue
  /-- The queues that were allocated and put into the list. -/
  allocated : Nat
  files : List MqFile
  p_mqueue_cnt : Nat → UInt32
  /-- The calls of `mqueue_destroy` for these. -/
  destroyed : List Nat

inductive OpenAnswer where
  | opened (fd : Nat)
  | closed
  | unlinked
  | failed (error : Errno)
deriving DecidableEq, Repr

section World

variable (limits : MqLimits) (policy : MqPolicy)

def mqueueLookup (w : MqWorld) (name : List UInt8) : List Nat → Option (Option (Nat × Mqueue))
  | [] => some none
  | id :: rest =>
    match w.queues id with
    | none => none
    | some mq => if mq.mq_name = name then some (some (id, mq)) else mqueueLookup w name rest

def mqueueAccess (mq : Mqueue) (read write : Bool) (caller : Caller) : Bool :=
  policy.genfs_can_access mq.mq_mode mq.mq_euid mq.mq_egid read write caller

/-- The attributes that `mqueue_create` accepts. -/
def validAttr (attr : MqAttrArg) : Bool :=
  !(decide (attr.mq_maxmsg ≤ 0) || decide ((limits.mq_max_maxmsg : Int) < attr.mq_maxmsg) ||
    decide (attr.mq_msgsize ≤ 0) || decide ((limits.mq_max_msgsize : Int) < attr.mq_msgsize))

def newAttrib (attr : Option MqAttrArg) (nonblock : Bool) : MqAttr :=
  match attr with
  | some attr => ⟨nonblock, false, false, attr.mq_maxmsg.toNat, attr.mq_msgsize.toNat, 0⟩
  | none => ⟨nonblock, false, false, limits.mq_def_maxmsg, limits.def_msgsize - limits.sizeof_msg, 0⟩

/-- The file mode bits that a new queue keeps. -/
def newMode (mode cmask : UInt32) : UInt32 := ((mode &&& ~~~cmask) &&& 0o7777) &&& ~~~0o1000

def mqueueCreate (w : MqWorld) (caller : Caller) (name : List UInt8) (attr : Option MqAttrArg)
    (args : OpenArgs) : Except Errno Mqueue :=
  if limits.mq_open_max ≤ w.p_mqueue_cnt caller.proc then .error .emfile
  else if name = [] then .error .einval
  else if (attr.all (validAttr limits)) = false then .error .einval
  else
    .ok (newMqueue name (newAttrib limits attr args.nonblock) (newMode args.mode caller.cmask)
      caller.euid caller.egid)

def MqWorld.setQueue (w : MqWorld) (id : Nat) (mq : Option Mqueue) : MqWorld :=
  { w with queues := Function.update w.queues id mq }

def MqWorld.setCount (w : MqWorld) (proc : Nat) (count : UInt32) : MqWorld :=
  { w with p_mqueue_cnt := Function.update w.p_mqueue_cnt proc count }

def MqWorld.affix (w : MqWorld) (caller : Caller) (fd id : Nat) (args : OpenArgs) : MqWorld :=
  { w with files := ⟨caller.proc, fd, id, args.read, args.write⟩ :: w.files }

def mqueueDestroy (w : MqWorld) (id : Nat) : Option MqWorld :=
  match w.queues id with
  | none => none
  | some _ => some { w.setQueue id none with destroyed := id :: w.destroyed }

def openLookup (w : MqWorld) (caller : Caller) (name : List UInt8) (fd : Nat) (args : OpenArgs)
    (mq_new : Option Mqueue) : Option (MqWorld × OpenAnswer) :=
  match mqueueLookup w name w.mqueue_head with
  | none => none
  | some (some (id, mq)) =>
    if args.excl then some (w, .failed .eexist)
    else if mqueueAccess policy mq args.read args.write caller then some (w, .failed .eacces)
    else
      some ((w.setQueue id (some { mq with mq_refcnt := mq.mq_refcnt + 1 })).affix caller fd id args,
        .opened fd)
  | some none =>
    match mq_new with
    | none => some (w, .failed .enoent)
    | some mq =>
      let w := w.setCount caller.proc (w.p_mqueue_cnt caller.proc + 1)
      if limits.mq_open_max < w.p_mqueue_cnt caller.proc then
        some (w.setCount caller.proc (w.p_mqueue_cnt caller.proc - 1), .failed .emfile)
      else
        let id := w.allocated
        let w := { w.setQueue id (some mq) with
          allocated := w.allocated + 1
          mqueue_head := id :: w.mqueue_head }
        some (w.affix caller fd id args, .opened fd)

def mqHandleOpen (w : MqWorld) (caller : Caller) (attr : Option MqAttrArg) (args : OpenArgs) :
    Option (MqWorld × OpenAnswer) :=
  match args.name with
  | .error error => some (w, .failed error)
  | .ok name =>
    match args.fd with
    | .error error => some (w, .failed error)
    | .ok fd =>
      if args.creat then
        match mqueueCreate limits w caller name attr args with
        | .error error => some (w, .failed error)
        | .ok mq => openLookup limits policy w caller name fd args (some mq)
      else openLookup limits policy w caller name fd args none

def sysMqOpen (w : MqWorld) (caller : Caller) (args : OpenArgs) : Option (MqWorld × OpenAnswer) :=
  if args.creat then
    match args.attr with
    | some (.error error) => some (w, .failed error)
    | some (.ok attr) => mqHandleOpen limits policy w caller (some attr) args
    | none => mqHandleOpen limits policy w caller none args
  else mqHandleOpen limits policy w caller none args

def mqCloseFop (w : MqWorld) (proc id : Nat) : Option (MqWorld × OpenAnswer) :=
  match w.queues id with
  | none => none
  | some mq =>
    if mq.mq_refcnt = 0 then none
    else
      let mq := { mq with mq_refcnt := mq.mq_refcnt - 1 }
      let w := w.setQueue id (some mq)
      let destroy := decide (mq.mq_refcnt = 0) && mq.mq_attrib.unlinked
      let w? := if destroy then mqueueDestroy w id else some w
      w?.map fun w => (w.setCount proc (w.p_mqueue_cnt proc - 1), .closed)

/-- `sys_mq_close`; `EBADF` for what is no descriptor of a queue changes nothing. -/
def sysMqClose (w : MqWorld) (proc fd : Nat) : Option (MqWorld × OpenAnswer) :=
  match w.files.find? (fun file => decide (file.proc = proc ∧ file.fd = fd)) with
  | none => some (w, .failed .ebadf)
  | some file =>
    mqCloseFop { w with files := w.files.erase file } proc file.queue

def sysMqUnlink (w : MqWorld) (caller : Caller) (name : Except Errno (List UInt8)) :
    Option (MqWorld × OpenAnswer) :=
  match name with
  | .error error => some (w, .failed error)
  | .ok name =>
    match mqueueLookup w name w.mqueue_head with
    | none => none
    | some none => some (w, .failed .enoent)
    | some (some (id, mq)) =>
      if policy.kauth_authorize_system caller mq then some (w, .failed .eacces)
      else
        let w := { w with mqueue_head := w.mqueue_head.erase id }
        if mq.mq_refcnt = 0 then
          (mqueueDestroy w id).map fun w => (w, .unlinked)
        else some (w.setQueue id (some mq.markUnlinked), .unlinked)

inductive OpenAction where
  | open (caller : Caller) (args : OpenArgs)
  | close (proc fd : Nat)
  | unlink (caller : Caller) (name : Except Errno (List UInt8))

/-- `fd_allocfile` gives a descriptor that the process does not use. -/
def freeDescriptor (w : MqWorld) (caller : Caller) (args : OpenArgs) : Bool :=
  match args.fd with
  | .error _ => true
  | .ok fd => w.files.all fun file => decide ¬ (file.proc = caller.proc ∧ file.fd = fd)

def MqWorld.call (w : MqWorld) : OpenAction → Option (MqWorld × OpenAnswer)
  | .open caller args =>
    if freeDescriptor w caller args then sysMqOpen limits policy w caller args
    else some (w, .failed .emfile)
  | .close proc fd => sysMqClose w proc fd
  | .unlink caller name => sysMqUnlink policy w caller name

def MqWorld.step (w : MqWorld) (action : OpenAction) : Option MqWorld :=
  (w.call limits policy action).map Prod.fst

def mqueueSysinit : MqWorld := ⟨[], fun _ => none, 0, [], fun _ => 0, []⟩

end World

end NetBSD.Kern.SysMqueue
