import NetBSD.Kern.SysvSemSets
import Mathlib.Data.List.Count

/-!
Owns what one vector says about processes that wait. A vector that goes through without a
wakeup has raised no semaphore that is waited on for more, and brought none to zero that
is waited on for zero. A vector that is stuck at one of its operations does not go
through, whatever the semaphores of its other operations are.
-/

namespace NetBSD.Kern.SysvSem

open List Option

/-- A vector has to wait at an operation: that there is not enough, also with all that the
operations in front of it do to the semaphore, or that the semaphore is not zero and they change it
by nothing. -/
def Stuck (val : Nat → Int) (sops : List Sembuf) (sop : Sembuf) : Prop :=
  ∃ front back, sops = front ++ sop :: back ∧ ((sop.sem_op < 0 ∧
        val sop.sem_num + sumOn Sembuf.sem_op sop.sem_num front + sop.sem_op < 0) ∨
      (sop.sem_op = 0 ∧ sumOn Sembuf.sem_op sop.sem_num front = 0 ∧ 0 < val sop.sem_num))

section Vector

variable {base : Nat} {sop : Sembuf} {sops : List Sembuf} {pass s' : Pass}

theorem Full.front {pre back : List Sembuf} (full : Full base (pre ++ back) pass) :
    Full base pre pass ∧ Full base back (applyLoop base pre pass).2 := by
  induction pre generalizing pass with
  | nil => exact ⟨rfl, full⟩
  | cons fst tl ih =>
    obtain ⟨next, done, fullRest, _⟩ := full.cons
    obtain ⟨fullFront, fullBack⟩ := ih fullRest
    have isLoop : applyLoop base (fst :: tl) pass =
        ((applyLoop base tl next).1 + 1, (applyLoop base tl next).2) := by
      rw [applyLoop, done]
    rw [isLoop]
    refine ⟨?_, fullBack⟩
    unfold Full
    rw [isLoop, fullFront]
    rfl

theorem Stuck.not_full (stuck : Stuck (valOf pass.sem base) sops sop) (inRange : InRange pass.sem) :
    ¬ Full base sops pass := by
  intro full
  obtain ⟨pre, back, rfl, waits⟩ := stuck
  obtain ⟨fullFront, fullBack⟩ := full.front
  obtain ⟨next, done, _⟩ := fullBack.cons
  have inRangeFront := inRange_applyLoop base pre inRange
  obtain ⟨_, nn, eq0, _⟩ := applyOp_some inRangeFront done
  obtain ⟨wraps, isLost⟩ := fullFront.lost inRange sop.sem_num
  have bnds := inRange (base + sop.sem_num)
  rcases waits with ⟨neg, less⟩ | ⟨zero, noSum, pos⟩
  · have := nn neg
    omega
  · have := eq0 zero
    unfold valOf at *
    omega

theorem countsOf_applyOp (done : applyOp base sop pass = some s') (j : Nat) :
    (s'.sem j).semncnt = (pass.sem j).semncnt ∧ (s'.sem j).semzcnt = (pass.sem j).semzcnt := by
  have same : ∀ x, (addVal pass.sem (base + sop.sem_num) x j).semncnt = (pass.sem j).semncnt ∧
      (addVal pass.sem (base + sop.sem_num) x j).semzcnt = (pass.sem j).semzcnt := by
    intro x
    unfold addVal setVal
    split <;> exact ⟨rfl, rfl⟩
  unfold applyOp at done
  dsimp only at done
  split at done
  · split at done
    · cases done
    · obtain rfl := some.inj done
      exact same _
  split at done
  · split at done
    · cases done
    · obtain rfl := some.inj done
      exact ⟨rfl, rfl⟩
  · obtain rfl := some.inj done
    exact same _

theorem applyOp_quiet (done : applyOp base sop pass = some s')
    (quiet : s'.do_wakeup = false) : pass.do_wakeup = false ∧
      (0 < sop.sem_op → (pass.sem (base + sop.sem_num)).semncnt = 0) ∧
      (sop.sem_op < 0 → valOf s'.sem base sop.sem_num = 0 →
        (pass.sem (base + sop.sem_num)).semzcnt = 0) := by
  unfold applyOp at done
  dsimp only at done
  split at done
  · rename_i neg
    split at done
    · cases done
    · obtain rfl := some.inj done
      obtain ⟨prev, nz⟩ := Bool.or_eq_false_iff.mp quiet
      refine ⟨prev, fun pos => by omega, fun _ zero => ?_⟩
      by_contra wait
      exact of_decide_eq_false nz ⟨zero, Nat.pos_of_ne_zero wait⟩
  rename_i nn
  split at done
  · rename_i zero
    split at done
    · cases done
    · obtain rfl := some.inj done
      exact ⟨quiet, fun pos => by omega, fun neg => absurd neg nn⟩
  · obtain rfl := some.inj done
    obtain ⟨prev, notWaiting⟩ := Bool.or_eq_false_iff.mp quiet
    refine ⟨prev, fun _ => ?_, fun neg => absurd neg nn⟩
    have := of_decide_eq_false notWaiting
    omega

theorem Full.quiet_start (full : Full base sops pass)
    (quiet : (applyLoop base sops pass).2.do_wakeup = false) : pass.do_wakeup = false := by
  induction sops generalizing pass with
  | nil => exact quiet
  | cons fst tl ih =>
    obtain ⟨next, done, fullRest, same⟩ := full.cons
    rw [same] at quiet
    exact (applyOp_quiet done (ih fullRest quiet)).1

/-- Without a wakeup no operation gives to a semaphore with a process that waits for more. -/
theorem Full.quiet_ncnt (full : Full base sops pass)
    (quiet : (applyLoop base sops pass).2.do_wakeup = false) :
    ∀ sop ∈ sops, 0 < sop.sem_op → (pass.sem (base + sop.sem_num)).semncnt = 0 := by
  induction sops generalizing pass with
  | nil => exact fun sop isIn => by cases isIn
  | cons fst tl ih =>
    obtain ⟨next, done, fullRest, same⟩ := full.cons
    rw [same] at quiet
    have here := (applyOp_quiet done (fullRest.quiet_start quiet)).2.1
    refine forall_mem_cons.mpr ⟨here, fun sop isIn pos => ?_⟩
    rw [← (countsOf_applyOp done _).1]
    exact ih fullRest quiet sop isIn pos

section

variable (full : Full base sops pass) (inRange : InRange pass.sem)
  (fits : SumsFit base sops pass.sem) (quiet : (applyLoop base sops pass).2.do_wakeup = false)

include full inRange fits quiet

theorem Full.quiet_zcnt {n : Nat} (wait : 0 < (pass.sem (base + n)).semzcnt)
    (pos : 0 < valOf pass.sem base n) : 0 < valOf (applyLoop base sops pass).2.sem base n := by
  induction sops generalizing pass with
  | nil => exact pos
  | cons fst tl ih =>
    obtain ⟨next, done, fullRest, same⟩ := full.cons
    rw [same] at quiet ⊢
    obtain ⟨isVal, fitsRest⟩ := fits.cons inRange done fullRest
    obtain ⟨_, _, noZero⟩ := applyOp_quiet done (fullRest.quiet_start quiet)
    obtain ⟨next', nn, _⟩ := applyOp_some inRange done
    have inRangeNext : InRange next.sem := by
      rw [next']
      exact inRange.addVal _ _
    refine ih fullRest inRangeNext fitsRest quiet ?_ ?_
    · rw [(countsOf_applyOp done _).2]
      exact wait
    have v := congrFun isVal n
    by_cases here : n = fst.sem_num
    · rw [if_pos here] at v
      by_cases neg : fst.sem_op < 0
      · have low := nn neg
        by_contra notPositive
        have zero : valOf next.sem base n = 0 := by
          rw [← here] at low
          omega
        have := noZero neg (here ▸ zero)
        rw [← here] at this
        omega
      · omega
    · rw [if_neg here] at v
      omega

/-- A vector that goes through without a wakeup leaves a process stuck that is counted. -/
theorem Full.stuck {wait : List Sembuf} (stuck : Stuck (valOf pass.sem base) wait sop)
    (ncnt : sop.sem_op ≠ 0 → 0 < (pass.sem (base + sop.sem_num)).semncnt)
    (zcnt : sop.sem_op = 0 → 0 < (pass.sem (base + sop.sem_num)).semzcnt) :
    Stuck (valOf (applyLoop base sops pass).2.sem base) wait sop := by
  obtain ⟨pre, back, split, waits⟩ := stuck
  refine ⟨pre, back, split, ?_⟩
  rcases waits with ⟨neg, less⟩ | ⟨zero, noSum, pos⟩
  · refine .inl ⟨neg, ?_⟩
    -- nothing was given to the semaphore
    have notGiven : ∀ given ∈ sops, given.sem_num = sop.sem_num → given.sem_op ≤ 0 := by
      intro given isIn same
      by_contra pos
      have eq0 := full.quiet_ncnt quiet given isIn (by omega)
      rw [same] at eq0
      omega
    have noMore : sumOn Sembuf.sem_op sop.sem_num sops ≤ 0 := by
      clear full fits quiet
      induction sops with
      | nil => exact Int.le_refl _
      | cons fst tl ih =>
        obtain ⟨notHere, notRest⟩ := forall_mem_cons.mp notGiven
        have := ih notRest
        rw [sumOn]
        split
        · rename_i same
          omega
        · omega
    have v := (full.goes inRange fits).2 sop.sem_num
    omega
  · exact .inr ⟨zero, noSum, full.quiet_zcnt inRange fits quiet (zcnt zero) pos⟩

end

end Vector

/-!
### Sleepers

The processes that sleep in `sys_semop`, and who wakes them. A process sleeps on the
condition variable of its set until there is a broadcast on it or a signal. Only the
counts of a semaphore tell a later call that it is worth a broadcast.
-/

open NetBSD.Machine

/-- A process asleep in `sys_semop`; `woken` when there was a broadcast since. -/
structure Waiter where
  lwp : Nat
  sleep : Sleep
  woken : Bool

structure Sleepers where
  state : State
  waiters : List Waiter

def broadcast (sets : List Nat) (waiters : List Waiter) : List Waiter :=
  waiters.map fun waiter =>
    { waiter with woken := waiter.woken || decide (waiter.sleep.semid ∈ sets) }

/-- What becomes of a section of `sys_semop`, with the other processes that sleep. -/
def settle (waiters : List Waiter) (lwp p semid seq : Nat) (sops : List Sembuf) : Outcome → Sleepers
  | .done after do_wakeup =>
    ⟨after, if do_wakeup then broadcast [semid] waiters else waiters⟩
  | .failed _ after => ⟨after, waiters⟩
  | .sleeps after sop do_undos =>
    ⟨after, ⟨lwp, ⟨p, semid, seq, sops, sop, do_undos⟩, false⟩ :: waiters⟩

/-- A sleep that ends, and the others. -/
def takeWaiter (lwp : Nat) : List Waiter → Option (Waiter × List Waiter)
  | [] => none
  | waiter :: rest =>
    if waiter.lwp = lwp then some (waiter, rest)
    else (takeWaiter lwp rest).map fun (found, others) => (found, waiter :: others)

/-- A call, or the end of a sleep after a broadcast or by a signal. -/
inductive Happening where
  | call (lwp : Nat) (request : Request)
  | resume (lwp : Nat) (interrupted : Bool)
  | setval (semid semnum val : Int) (ipcperm : Option Errno)
  | setall (semid : Int) (array : Nat → Option Nat) (ipcperm : Option Errno)
  | rmid (semid : Int) (ipcperm : Option Errno)
  | exit (p : Nat)

/-- One section under `semlock`; `none` for what cannot happen and for a panic. -/
def next (sleepers : Sleepers) : Happening → Option Sleepers
  | .call lwp request =>
    if lwp ∈ sleepers.waiters.map Waiter.lwp then none
    else
      (sysSemop sleepers.state request).map
        (settle sleepers.waiters lwp request.proc (ipcidToIx request.semid)
          (ipcidToSeq request.semid) request.sops)
  | .resume lwp interrupted =>
    match takeWaiter lwp sleepers.waiters with
    | none => none
    | some (waiter, others) =>
      if interrupted = false ∧ waiter.woken = false then none
      else
        (semopWake sleepers.state waiter.sleep interrupted).map
          (settle others lwp waiter.sleep.proc waiter.sleep.semid waiter.sleep.seq
            waiter.sleep.sops)
  | .setval semid semnum val ipcperm =>
    match semctlSetval sleepers.state semid semnum val ipcperm with
    | .error _ => some sleepers
    | .ok after => some ⟨after, broadcast [ipcidToIx semid] sleepers.waiters⟩
  | .setall semid array ipcperm =>
    match semctlSetall sleepers.state semid array ipcperm with
    | .error _ => some sleepers
    | .ok (after, _) => some ⟨after, broadcast [ipcidToIx semid] sleepers.waiters⟩
  | .rmid semid ipcperm =>
    match semctlRmid sleepers.state semid ipcperm with
    | .error _ => some sleepers
    | .ok after => some ⟨after, broadcast [ipcidToIx semid] sleepers.waiters⟩
  | .exit p =>
    (semexit sleepers.state p).map fun (after, sets) =>
      ⟨after, broadcast sets sleepers.waiters⟩

/-- Whoever was not woken since it went to sleep would sleep again. -/
def StillBlocks (sleepers : Sleepers) : Prop :=
  ∀ waiter ∈ sleepers.waiters, waiter.woken = false →
    (sleepers.state.sema waiter.sleep.semid).alloc = true ∧
      ¬ Full (sleepers.state.base waiter.sleep.semid) waiter.sleep.sops
        (sleepers.state.pass waiter.sleep.do_undos)

/-- What the counts are enough for: no value wraps, and a vector that waits for zero does not change
that semaphore before. -/
structure Plain (before : State) (p semid : Nat) (sops : List Sembuf) (do_undos : Bool) : Prop where
  goes : Through before p semid sops do_undos → SumsFit (before.base semid) sops before.sem
  waits : ∀ front sop back, sops = front ++ sop :: back →
    Full (before.base semid) front (before.pass do_undos) → sop.nowait = false →
    Waits (shift Sembuf.sem_op (before.base semid) front before.sem) (before.base semid) sop →
    (sop.sem_op = 0 → sumOn Sembuf.sem_op sop.sem_num front = 0) ∧
      (sop.sem_op < 0 → valOf before.sem (before.base semid) sop.sem_num +
        sumOn Sembuf.sem_op sop.sem_num front ≤ 65535)

def Fine (sleepers : Sleepers) : Happening → Prop
  | .call _ request => semopCheck sleepers.state request = none → sleepers.waiters.length < 65535 ∧
        Plain sleepers.state request.proc (ipcidToIx request.semid) request.sops false
  | .resume lwp interrupted => ∀ waiter others,
      takeWaiter lwp sleepers.waiters = some (waiter, others) →
      (Section.resume waiter.sleep interrupted).Enters sleepers.state →
      Plain (resumed sleepers.state waiter.sleep) waiter.sleep.proc waiter.sleep.semid
        waiter.sleep.sops waiter.sleep.do_undos
  | _ => True

/-- The processes that wait at a semaphore, for zero or for more. -/
def queued (waiters : List Waiter) (i n : Nat) (zero : Bool) : Nat :=
  waiters.countP fun waiter => decide (waiter.sleep.semid = i ∧ waiter.sleep.sop.sem_num = n ∧
    decide (waiter.sleep.sop.sem_op = 0) = zero)

/-- The invariant. -/
structure Waiting (sleepers : Sleepers) : Prop where
  layout : Layout sleepers.state
  few : sleepers.waiters.length ≤ 65535
  seqs : ∀ waiter ∈ sleepers.waiters,
    (sleepers.state.sema waiter.sleep.semid).seq = waiter.sleep.seq
  inside : ∀ waiter ∈ sleepers.waiters, (sleepers.state.sema waiter.sleep.semid).alloc = true →
    ∀ sop ∈ waiter.sleep.sop :: waiter.sleep.sops,
      sop.sem_num < (sleepers.state.sema waiter.sleep.semid).sem_nsems
  counts : ∀ i, (sleepers.state.sema i).alloc = true → ∀ n, n < (sleepers.state.sema i).sem_nsems →
    (sleepers.state.sem (sleepers.state.base i + n)).semncnt = queued sleepers.waiters i n false ∧
      (sleepers.state.sem (sleepers.state.base i + n)).semzcnt = queued sleepers.waiters i n true
  stuck : ∀ waiter ∈ sleepers.waiters, waiter.woken = false →
    (sleepers.state.sema waiter.sleep.semid).alloc = true ∧
      Stuck (valOf sleepers.state.sem (sleepers.state.base waiter.sleep.semid))
        waiter.sleep.sops waiter.sleep.sop

section Lists

variable {waiters : List Waiter}

theorem queued_broadcast (sets : List Nat) (i n : Nat) (zero : Bool) :
    queued (broadcast sets waiters) i n zero = queued waiters i n zero := by
  unfold queued broadcast
  rw [countP_map]
  rfl

variable {waiter : Waiter}

theorem mem_broadcast {sets : List Nat} (isIn : waiter ∈ broadcast sets waiters) :
    ∃ old ∈ waiters, old.sleep = waiter.sleep ∧
      (waiter.woken = false → old.woken = false ∧ waiter.sleep.semid ∉ sets) := by
  obtain ⟨old, isOld, rfl⟩ := mem_map.mp isIn
  refine ⟨old, isOld, rfl, fun zz => ?_⟩
  obtain ⟨prev, notIn⟩ := Bool.or_eq_false_iff.mp zz
  exact ⟨prev, of_decide_eq_false notIn⟩

theorem takeWaiter_perm {lwp : Nat} {oths : List Waiter}
    (taken : takeWaiter lwp waiters = some (waiter, oths)) : waiters.Perm (waiter :: oths) := by
  induction waiters generalizing oths with
  | nil => cases taken
  | cons fst tl ih =>
    rw [takeWaiter] at taken
    split at taken
    · obtain ⟨rfl, rfl⟩ := Prod.mk.inj (some.inj taken)
      exact .refl _
    · obtain ⟨⟨fnd, more⟩, hit, same⟩ := map_eq_some_iff.mp taken
      obtain ⟨rfl, rfl⟩ := Prod.mk.inj same
      exact ((ih hit).cons fst).trans (List.Perm.swap _ _ _)

theorem queued_cons (waiter : Waiter) (i n : Nat) (zero : Bool) :
    queued (waiter :: waiters) i n zero = queued waiters i n zero +
      if waiter.sleep.semid = i ∧ waiter.sleep.sop.sem_num = n ∧
        decide (waiter.sleep.sop.sem_op = 0) = zero then 1 else 0 := by
  unfold queued
  rw [countP_cons]
  simp only [decide_eq_true_eq]

variable (waiters) in
theorem queued_le (i n : Nat) (zero : Bool) : queued waiters i n zero ≤ waiters.length :=
  countP_le_length

theorem queued_pos (isIn : waiter ∈ waiters) :
    0 < queued waiters waiter.sleep.semid waiter.sleep.sop.sem_num
      (decide (waiter.sleep.sop.sem_op = 0)) :=
  countP_pos_iff.mpr ⟨waiter, isIn, decide_eq_true ⟨rfl, rfl, rfl⟩⟩

end Lists

section Counts

variable {sem : Nat → Sem}

theorem countUp {n : Nat} (few : n < 65535) : (ushort (n + 1)).toNat = n + 1 := by
  unfold ushort
  omega

theorem countDown {n : Nat}
    (few : n ≤ 65535) : (ushort (((n + 1 : Nat) : Int) + -1)).toNat = n := by
  unfold ushort
  omega

theorem counts_countWaiter {i : Nat} {sop : Sembuf} {chg : Int} :
    (countWaiter sem i sop chg i).semncnt = (if sop.sem_op = 0 then (sem i).semncnt
        else (ushort ((sem i).semncnt + chg)).toNat) ∧
      (countWaiter sem i sop chg i).semzcnt =
        (if sop.sem_op = 0 then (ushort ((sem i).semzcnt + chg)).toNat
        else (sem i).semzcnt) := by
  unfold countWaiter
  rw [if_pos rfl]
  split <;> exact ⟨rfl, rfl⟩

theorem counts_setVal (i : Nat) (x : Int) (j : Nat) : (setVal sem i x j).semncnt = (sem j).semncnt ∧
      (setVal sem i x j).semzcnt = (sem j).semzcnt := by
  unfold setVal
  split <;> exact ⟨rfl, rfl⟩

theorem counts_setallLoop (base i : Nat) (array : List (Option Nat)) (j : Nat) :
    ((setallLoop base i array sem).1 j).semncnt = (sem j).semncnt ∧
      ((setallLoop base i array sem).1 j).semzcnt = (sem j).semzcnt := by
  induction array generalizing i sem with
  | nil => exact ⟨rfl, rfl⟩
  | cons fst tl ih =>
    cases fst with
    | none => exact ⟨rfl, rfl⟩
    | some semval =>
      rw [setallLoop]
      split
      · exact ⟨rfl, rfl⟩
      · obtain ⟨ncnt, zcnt⟩ := @ih (setVal sem (base + i) semval) (i + 1)
        obtain ⟨ncntHere, zcntHere⟩ := @counts_setVal sem (base + i) semval j
        exact ⟨ncnt.trans ncntHere, zcnt.trans zcntHere⟩

theorem counts_exitLoop {sema : Nat → Semid} {ents : List UndoEntry} {s' : Nat → Sem}
    (exits : exitLoop sema ents sem = some s') (j : Nat) :
    (s' j).semncnt = (sem j).semncnt ∧ (s' j).semzcnt = (sem j).semzcnt := by
  induction ents generalizing sem with
  | nil =>
    obtain rfl := some.inj exits
    exact ⟨rfl, rfl⟩
  | cons ent tl ih =>
    rw [exitLoop] at exits
    split at exits
    · cases exits
    · obtain ⟨ncnt, zcnt⟩ := ih exits
      rw [ncnt, zcnt]
      split
      · exact counts_setVal _ _ _
      · exact counts_setVal _ _ _

end Counts

end NetBSD.Kern.SysvSem
