import NetBSD.Arith.WordBits

/-!
Owns the message side of `sys/kern/sys_mqueue.c`: a message queue, and
`mq_send1`, `mq_recv1`, `sys_mq_notify` and `sys_mq_setattr` on it. A call runs
in critical sections of `mq_mtx`: the one it enters with, and one more each time
it wakes up from a condition variable. A failed `KASSERT` has no next state.
-/

namespace NetBSD.Kern.SysMqueue

open NetBSD.Arith

def mqPqsize : Nat := 32
def mqPqresq : Nat := 0

inductive Errno where
  | eagain | einval | emsgsize | ebusy | eintr | etimedout | emfile | enfile | efault
  | enametoolong | ebadf | eexist | eacces | enoent | erestart
deriving DecidableEq, Repr

/-- The bits of `mq_flags` that the code uses, and the other attributes. -/
structure MqAttr where
  /-- `O_NONBLOCK`. -/
  nonblock : Bool
  /-- `MQ_UNLINKED`. -/
  unlinked : Bool
  /-- `MQ_RECEIVE`. -/
  receive : Bool
  mq_maxmsg : Nat
  mq_msgsize : Nat
  mq_curmsgs : Nat
deriving DecidableEq, Repr

/-- `struct mq_msg`; `msg_len` is the length of the data. -/
structure MqMsg where
  msg_prio : Nat
  msg_ptr : List UInt8
deriving DecidableEq, Repr

/-- The members of `struct sigevent` that `mq_send1` reads. -/
structure Sigevent where
  /-- `sigev_notify` is `SIGEV_SIGNAL`. -/
  signal : Bool
  sigev_signo : Nat
  sigev_value : Nat
deriving DecidableEq, Repr

structure Mqueue where
  mq_name : List UInt8
  mq_attrib : MqAttr
  mq_sig_notify : Sigevent
  mq_notify_proc : Option Nat
  mq_mode : UInt32
  mq_euid : Nat
  mq_egid : Nat
  mq_refcnt : Nat
  mq_head : Nat → List MqMsg
  mq_bitmap : UInt32

/-- The system-wide limits, and the size of a message without data. -/
structure MqLimits where
  mq_open_max : UInt32
  mq_prio_max : Nat
  mq_max_msgsize : Nat
  mq_def_maxmsg : Nat
  mq_max_maxmsg : Nat
  /-- `MQ_DEF_MSGSIZE`. -/
  def_msgsize : Nat
  /-- `sizeof(struct mq_msg)`. -/
  sizeof_msg : Nat

/-- What a condition variable wakes up with. -/
inductive Wake where
  | signalled | ewouldblock | eintr | erestart
deriving DecidableEq, Repr

/-- What a critical section ends with. -/
inductive Answer where
  | sent (msg : MqMsg) (notify : Option (Nat × Sigevent))
  | received (msg : MqMsg)
  | failed (error : Errno)
  /-- `mq_send1` returns 0 for a queue that was unlinked while it slept. -/
  | dropped
  | sleeping
  | done
deriving DecidableEq, Repr

section Queue

/-- A queue that `mqueue_create` has just filled in. -/
def newMqueue (name : List UInt8) (attrib : MqAttr) (mode : UInt32) (euid egid : Nat) : Mqueue where
  mq_name := name
  mq_attrib := attrib
  mq_sig_notify := ⟨false, 0, 0⟩
  mq_notify_proc := none
  mq_mode := mode
  mq_euid := euid
  mq_egid := egid
  mq_refcnt := 1
  mq_head _ := []
  mq_bitmap := 0

def Mqueue.setAttrib (mq : Mqueue) (attrib : MqAttr) : Mqueue := { mq with mq_attrib := attrib }

def Mqueue.setHead (mq : Mqueue) (idx : Nat) (msgs : List MqMsg) : Mqueue :=
  { mq with mq_head := Function.update mq.mq_head idx msgs }

def Mqueue.setCurmsgs (mq : Mqueue) (curmsgs : Nat) : Mqueue :=
  mq.setAttrib { mq.mq_attrib with mq_curmsgs := curmsgs }

def Mqueue.setReceive (mq : Mqueue) (receive : Bool) : Mqueue :=
  mq.setAttrib { mq.mq_attrib with receive := receive }

def mqueueLinearInsert (msg : MqMsg) : List MqMsg → List MqMsg
  | [] => [msg]
  | mit :: rest =>
    if mit.msg_prio < msg.msg_prio then msg :: mit :: rest
    else mit :: mqueueLinearInsert msg rest

def Mqueue.insert (mq : Mqueue) (msg : MqMsg) : Option Mqueue :=
  if msg.msg_prio < mqPqsize then
    let idx := mqPqsize - msg.msg_prio
    if idx = mqPqresq then none
    else
      some { mq.setHead idx (mq.mq_head idx ++ [msg]) with
        mq_bitmap := mq.mq_bitmap ||| bitMask (idx - 1) }
  else some (mq.setHead mqPqresq (mqueueLinearInsert msg (mq.mq_head mqPqresq)))

def Mqueue.remove (mq : Mqueue) : Option (Mqueue × MqMsg) :=
  match mq.mq_head mqPqresq with
  | msg :: rest => some (mq.setHead mqPqresq rest, msg)
  | [] =>
    let idx := ffs32 mq.mq_bitmap
    match mq.mq_head idx with
    | [] => none
    | msg :: rest =>
      let mq := mq.setHead idx rest
      if idx ≠ 0 ∧ mq.mq_head idx = [] then
        if mqPqsize - idx = msg.msg_prio then
          some ({ mq with mq_bitmap := mq.mq_bitmap &&& ~~~bitMask (idx - 1) }, msg)
        else none
      else some (mq, msg)

/-- The process to notify of a message in an empty queue; it is unregistered. -/
def Mqueue.takeNotify (mq : Mqueue) : Mqueue × Option (Nat × Sigevent) :=
  match mq.mq_notify_proc with
  | some proc =>
    if mq.mq_attrib.mq_curmsgs = 0 ∧ mq.mq_attrib.receive = false ∧ mq.mq_sig_notify.signal = true
    then ({ mq with mq_notify_proc := none }, some (proc, mq.mq_sig_notify))
    else (mq, none)
  | none => (mq, none)

/-- `mq_send1` from the test for a full queue on. `timo` is the error of
`ts2timo`, where a timeout is given and it fails. -/
def Mqueue.sendLoop (mq : Mqueue) (msg : MqMsg) (timo : Option Errno) : Option (Mqueue × Answer) :=
  if mq.mq_attrib.mq_maxmsg ≤ mq.mq_attrib.mq_curmsgs then
    if mq.mq_attrib.nonblock then some (mq, .failed .eagain)
    else
      match timo with
      | some error => some (mq, .failed error)
      | none => some (mq, .sleeping)
  else
    (mq.insert msg).map fun mq =>
      let (mq, notify) := mq.takeNotify
      (mq.setCurmsgs (mq.mq_attrib.mq_curmsgs + 1), .sent msg notify)

def mqSend1 (limits : MqLimits) (mq : Mqueue) (msg : MqMsg) (timo : Option Errno) :
    Option (Mqueue × Answer) :=
  let size := (limits.sizeof_msg + msg.msg_ptr.length) % 2 ^ 64
  if limits.mq_prio_max ≤ msg.msg_prio then some (mq, .failed .einval)
  else if limits.mq_max_msgsize < size then some (mq, .failed .emsgsize)
  else if msg.msg_ptr.length = 0 ∨ mq.mq_attrib.mq_msgsize < msg.msg_ptr.length then
    some (mq, .failed .emsgsize)
  else mq.sendLoop msg timo

/-- `mq_send1` after `cv_timedwait_sig`. -/
def Mqueue.sendWake (mq : Mqueue) (msg : MqMsg) (wake : Wake) (timo : Option Errno) :
    Option (Mqueue × Answer) :=
  match wake with
  | .ewouldblock => some (mq, .failed .etimedout)
  | .eintr => some (mq, .failed .eintr)
  | .erestart => some (mq, .failed .erestart)
  | .signalled => if mq.mq_attrib.unlinked then some (mq, .dropped) else mq.sendLoop msg timo

def Mqueue.recvLoop (mq : Mqueue) (timo : Option Errno) : Option (Mqueue × Answer) :=
  if mq.mq_attrib.mq_curmsgs = 0 then
    if mq.mq_attrib.nonblock then some (mq, .failed .eagain)
    else
      match timo with
      | some error => some (mq, .failed error)
      | none => some (mq.setReceive true, .sleeping)
  else
    mq.remove.map fun (mq, msg) =>
      (mq.setCurmsgs (mq.mq_attrib.mq_curmsgs - 1), .received msg)

def mqRecv1 (mq : Mqueue) (msgLen : Nat) (timo : Option Errno) : Option (Mqueue × Answer) :=
  if msgLen < mq.mq_attrib.mq_msgsize then some (mq, .failed .emsgsize) else mq.recvLoop timo

/-- `mq_recv1` after `cv_timedwait_sig`. -/
def Mqueue.recvWake (mq : Mqueue) (wake : Wake) (timo : Option Errno) : Option (Mqueue × Answer) :=
  let mq := mq.setReceive false
  if wake ≠ .signalled ∨ mq.mq_attrib.unlinked = true then
    some (mq, .failed (if wake = .ewouldblock then .etimedout else .eintr))
  else mq.recvLoop timo

def sysMqNotify (mq : Mqueue) (proc : Nat) : Option Sigevent → Mqueue × Answer
  | some sig =>
    match mq.mq_notify_proc with
    | none => ({ mq with mq_sig_notify := sig, mq_notify_proc := some proc }, .done)
    | some _ => (mq, .failed .ebusy)
  | none => ({ mq with mq_notify_proc := none }, .done)

def sysMqSetattr (mq : Mqueue) (nonblock : Bool) : Mqueue :=
  mq.setAttrib { mq.mq_attrib with nonblock := nonblock }

/-- What `sys_mq_unlink` does to a queue with references. -/
def Mqueue.markUnlinked (mq : Mqueue) : Mqueue :=
  mq.setAttrib { mq.mq_attrib with unlinked := true }

end Queue

/-! ### Callers -/

/-- What a sleeping thread waits for. -/
inductive Sleeper where
  | sending (msg : MqMsg)
  | receiving

structure MqSystem where
  mq : Mqueue
  sleepers : Nat → Option Sleeper

inductive Action where
  | send (thread : Nat) (msg : MqMsg) (timo : Option Errno)
  | recv (thread msgLen : Nat) (timo : Option Errno)
  | wakeup (thread : Nat) (wake : Wake) (timo : Option Errno)
  | notify (proc : Nat) (sig : Option Sigevent)
  | setattr (nonblock : Bool)
  | unlink

/-- The queue after a critical section, and its thread asleep where it waits. -/
def MqSystem.finish (system : MqSystem) (thread : Nat) (sleeper : Sleeper)
    (ended : Option (Mqueue × Answer)) : Option (MqSystem × Answer) :=
  ended.map fun (mq, answer) =>
    (⟨mq, Function.update system.sleepers thread
      (if answer = .sleeping then some sleeper else none)⟩, answer)

/-- One critical section. A thread that sleeps calls nothing, and only such a
thread wakes up. -/
def MqSystem.step (limits : MqLimits) (system : MqSystem) : Action → Option (MqSystem × Answer)
  | .send thread msg timo =>
    match system.sleepers thread with
    | some _ => some (system, .done)
    | none => system.finish thread (.sending msg) (mqSend1 limits system.mq msg timo)
  | .recv thread msgLen timo =>
    match system.sleepers thread with
    | some _ => some (system, .done)
    | none => system.finish thread .receiving (mqRecv1 system.mq msgLen timo)
  | .wakeup thread wake timo =>
    match system.sleepers thread with
    | some (.sending msg) =>
      system.finish thread (.sending msg) (system.mq.sendWake msg wake timo)
    | some .receiving => system.finish thread .receiving (system.mq.recvWake wake timo)
    | none => some (system, .done)
  | .notify proc sig =>
    let (mq, answer) := sysMqNotify system.mq proc sig
    some ({ system with mq := mq }, answer)
  | .setattr nonblock => some ({ system with mq := sysMqSetattr system.mq nonblock }, .done)
  | .unlink => some ({ system with mq := system.mq.markUnlinked }, .done)

end NetBSD.Kern.SysMqueue
