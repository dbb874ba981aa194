import NetBSD.Kern.SysvSemWait

/-!
Owns the runs of processes that sleep in `sys_semop`. In a run whose vectors are plain
every process that was not woken would sleep again.
-/

namespace NetBSD.Kern.SysvSem

open NetBSD.Machine List Option

variable {waiter : Waiter}

section Keep

variable {st : State} {waiters oths : List Waiter}

theorem Waiting.stillBlocks {sls : Sleepers} (wait : Waiting sls) :
    StillBlocks sls := by
  intro waiter isIn zz
  obtain ⟨isAt, stuck⟩ := wait.stuck waiter isIn zz
  exact ⟨isAt, Stuck.not_full stuck wait.layout.right.values⟩

/-- Sleepers stay counted over a wakeup of whole sets. -/
theorem Waiting.broadcast (wait : Waiting ⟨st, waiters⟩) {s' : State} {sets : List Nat}
    (layout : Layout s') (seqs : ∀ i, (s'.sema i).seq = (st.sema i).seq)
    (counts : ∀ i, (s'.sema i).alloc = true → (st.sema i).alloc = true ∧
      (s'.sema i).sem_nsems = (st.sema i).sem_nsems ∧
      ∀ n, n < (st.sema i).sem_nsems →
        (s'.sem (s'.base i + n)).semncnt = (st.sem (st.base i + n)).semncnt ∧
        (s'.sem (s'.base i + n)).semzcnt = (st.sem (st.base i + n)).semzcnt)
    (stuck : ∀ waiter ∈ waiters, waiter.woken = false → waiter.sleep.semid ∉ sets →
      (s'.sema waiter.sleep.semid).alloc = true ∧
        Stuck (valOf s'.sem (s'.base waiter.sleep.semid)) waiter.sleep.sops
          waiter.sleep.sop) :
    Waiting ⟨s', broadcast sets waiters⟩ where
  layout := layout
  few := by
    unfold SysvSem.broadcast
    rw [length_map]
    exact wait.few
  seqs := by
    intro waiter isIn
    obtain ⟨old, isOld, same, _⟩ := mem_broadcast isIn
    rw [← same, seqs]
    exact wait.seqs old isOld
  inside := by
    intro waiter isIn used sop isSop
    obtain ⟨old, isOld, same, _⟩ := mem_broadcast isIn
    rw [← same] at used isSop ⊢
    obtain ⟨wasUsed, sameSize, _⟩ := counts _ used
    rw [sameSize]
    exact wait.inside old isOld wasUsed sop isSop
  counts := by
    intro i used n less
    obtain ⟨wasUsed, sameSize, sameCounts⟩ := counts i used
    rw [sameSize] at less
    rw [queued_broadcast, queued_broadcast, (sameCounts n less).1, (sameCounts n less).2]
    exact wait.counts i wasUsed n less
  stuck := by
    intro waiter isIn zz
    obtain ⟨old, isOld, same, ge⟩ := mem_broadcast isIn
    obtain ⟨wasAsleep, notIn⟩ := ge zz
    rw [← same] at notIn ⊢
    exact stuck old isOld wasAsleep notIn

theorem broadcast_nil (waiters : List Waiter) : broadcast [] waiters = waiters := by
  refine (map_congr_left fun waiter _ => ?_).trans (map_id waiters)
  rw [decide_eq_false not_mem_nil, Bool.or_false]
  rfl

theorem Waiting.values (wait : Waiting ⟨st, waiters⟩) {s' : State} {sets : List Nat}
    (lay : Layout s') (sameSema : s'.sema = st.sema)
    (cnts : ∀ j, (s'.sem j).semncnt = (st.sem j).semncnt ∧
      (s'.sem j).semzcnt = (st.sem j).semzcnt)
    (stuck : ∀ waiter ∈ waiters, waiter.woken = false → waiter.sleep.semid ∉ sets →
      Stuck (valOf s'.sem (st.base waiter.sleep.semid)) waiter.sleep.sops waiter.sleep.sop) :
    Waiting ⟨s', SysvSem.broadcast sets waiters⟩ := by
  have sameBase : ∀ i, s'.base i = st.base i := fun i => by
    unfold State.base
    rw [sameSema]
  refine wait.broadcast lay (fun i => by rw [sameSema]) (fun i isUsed => ?_)
    fun waiter isIn zz notIn => ?_
  · rw [sameSema] at isUsed ⊢
    refine ⟨isUsed, rfl, fun n _ => ?_⟩
    rw [sameBase]
    exact cnts _
  · rw [sameSema, sameBase]
    exact ⟨(wait.stuck waiter isIn zz).1, stuck waiter isIn zz notIn⟩

theorem Stuck.of_val {val val' : Nat → Int} {sops : List Sembuf} {sop : Sembuf}
    (stuck : Stuck val sops sop) (same : val' sop.sem_num = val sop.sem_num) :
    Stuck val' sops sop := by
  unfold Stuck
  rw [same]
  exact stuck

theorem Waiting.stuck_keeps (wait : Waiting ⟨st, waiters⟩) {s' : State} (isIn : waiter ∈ waiters)
    (zz : waiter.woken = false)
    (keeps : Keeps st.sema st.sem s'.sema s'.sem waiter.sleep.semid) :
    Stuck (valOf s'.sem (s'.base waiter.sleep.semid)) waiter.sleep.sops waiter.sleep.sop := by
  obtain ⟨used, stuck⟩ := wait.stuck waiter isIn zz
  refine stuck.of_val ?_
  exact congrArg Sem.semval
    (keeps.same _ (wait.inside waiter isIn used waiter.sleep.sop mem_cons_self))

theorem Layout.index_inj (lay : Layout st) {i k n m : Nat}
    (usedI : (st.sema i).alloc = true) (usedK : (st.sema k).alloc = true)
    (lessN : n < (st.sema i).sem_nsems) (lessM : m < (st.sema k).sem_nsems)
    (same : st.base i + n = st.base k + m) : i = k ∧ n = m := by
  by_cases eq : i = k
  · subst eq
    exact ⟨rfl, by omega⟩
  · have apart := lay.packed.apart i k usedI usedK eq
    unfold State.base at same
    omega

/-- A woken call is counted no longer. -/
theorem Waiting.resumed (wait : Waiting ⟨st, waiter :: oths⟩)
    (isAt : (st.sema waiter.sleep.semid).alloc = true) :
    Waiting ⟨resumed st waiter.sleep, oths⟩ where
  layout := by
    have right := wait.layout.right.resumed waiter.sleep
    exact wait.layout.of_same right rfl rfl rfl fun q i n owed => .inl owed
  few := Nat.le_of_succ_le wait.few
  seqs := (forall_mem_cons.mp wait.seqs).2
  inside := (forall_mem_cons.mp wait.inside).2
  counts := by
    intro i used n less
    obtain ⟨ncnt, zcnt⟩ := wait.counts i used n less
    have inside := wait.inside waiter mem_cons_self isAt waiter.sleep.sop
      mem_cons_self
    have fewNcnt := queued_le oths i n false
    have fewZcnt := queued_le oths i n true
    have few := wait.few
    rw [queued_cons] at ncnt zcnt
    rw [length_cons] at few
    by_cases here : waiter.sleep.semid = i ∧ waiter.sleep.sop.sem_num = n
    · obtain ⟨rfl, rfl⟩ := here
      obtain ⟨ncntHere, zcntHere⟩ := @counts_countWaiter st.sem
        (st.base waiter.sleep.semid + waiter.sleep.sop.sem_num) waiter.sleep.sop (-1)
      refine ⟨ncntHere.trans ?_, zcntHere.trans ?_⟩
      · rw [ncnt]
        by_cases zero : waiter.sleep.sop.sem_op = 0
        · rw [if_pos zero, if_neg (by simp [zero]), Nat.add_zero]
        · rw [if_neg zero, if_pos (by simp [zero])]
          exact countDown (le_trans fewNcnt (by omega))
      · rw [zcnt]
        by_cases zero : waiter.sleep.sop.sem_op = 0
        · rw [if_pos zero, if_pos (by simp [zero])]
          exact countDown (le_trans fewZcnt (by omega))
        · rw [if_neg zero, if_neg (by simp [zero]), Nat.add_zero]
    · have notHere : st.base i + n ≠
          st.base waiter.sleep.semid + waiter.sleep.sop.sem_num := by
        intro same
        obtain ⟨rfl, rfl⟩ := wait.layout.index_inj used isAt less inside same
        exact here ⟨rfl, rfl⟩
      rw [if_neg fun all => here ⟨all.1, all.2.1⟩] at ncnt zcnt
      have same := @countWaiter_outside _ st.sem _ _ notHere (-1)
      exact ⟨(congrArg Sem.semncnt same).trans ncnt, (congrArg Sem.semzcnt same).trans zcnt⟩
  stuck := by
    intro oth isIn zz
    obtain ⟨used, stuck⟩ := wait.stuck oth (mem_cons_of_mem waiter isIn) zz
    exact ⟨used, stuck.of_val (semval_countWaiter _ _ _ _)⟩

/-- A stuck call sleeps with its waiter counted. -/
theorem Waiting.asleep (wait : Waiting ⟨st, waiters⟩) (few : waiters.length < 65535)
    (waiter : Waiter) (isAt : (st.sema waiter.sleep.semid).alloc = true)
    (isSeq : (st.sema waiter.sleep.semid).seq = waiter.sleep.seq)
    (inside : ∀ sop ∈ waiter.sleep.sop :: waiter.sleep.sops,
      sop.sem_num < (st.sema waiter.sleep.semid).sem_nsems)
    (stuck : Stuck (valOf st.sem (st.base waiter.sleep.semid)) waiter.sleep.sops
      waiter.sleep.sop) :
    Waiting ⟨{ st with
      sem := countWaiter st.sem (st.base waiter.sleep.semid + waiter.sleep.sop.sem_num)
        waiter.sleep.sop 1 }, waiter :: waiters⟩ where
  layout := by
    have right : Right { st with
        sem := countWaiter st.sem (st.base waiter.sleep.semid + waiter.sleep.sop.sem_num)
          waiter.sleep.sop 1 } :=
      ⟨Within.of_semval wait.layout.right.values (semval_countWaiter _ _ _),
        wait.layout.right.undos⟩
    exact wait.layout.of_same right rfl rfl rfl fun q i n owed => .inl owed
  few := few
  seqs := forall_mem_cons.mpr ⟨isSeq, wait.seqs⟩
  inside := forall_mem_cons.mpr ⟨fun _ => inside, wait.inside⟩
  counts := by
    intro i used n less
    obtain ⟨ncnt, zcnt⟩ := wait.counts i used n less
    have insideSop := inside waiter.sleep.sop mem_cons_self
    have fewNcnt := queued_le waiters i n false
    have fewZcnt := queued_le waiters i n true
    rw [queued_cons, queued_cons]
    dsimp only at ncnt zcnt
    by_cases here : waiter.sleep.semid = i ∧ waiter.sleep.sop.sem_num = n
    · obtain ⟨rfl, rfl⟩ := here
      obtain ⟨ncntHere, zcntHere⟩ := @counts_countWaiter st.sem
        (st.base waiter.sleep.semid + waiter.sleep.sop.sem_num) waiter.sleep.sop 1
      refine ⟨ncntHere.trans ?_, zcntHere.trans ?_⟩
      · rw [ncnt]
        by_cases zero : waiter.sleep.sop.sem_op = 0
        · rw [if_pos zero, if_neg (by simp [zero]), Nat.add_zero]
        · rw [if_neg zero, if_pos (by simp [zero])]
          exact countUp (lt_of_le_of_lt fewNcnt few)
      · rw [zcnt]
        by_cases zero : waiter.sleep.sop.sem_op = 0
        · rw [if_pos zero, if_pos (by simp [zero])]
          exact countUp (lt_of_le_of_lt fewZcnt few)
        · rw [if_neg zero, if_neg (by simp [zero]), Nat.add_zero]
    · have notHere : st.base i + n ≠
          st.base waiter.sleep.semid + waiter.sleep.sop.sem_num := by
        intro same
        obtain ⟨rfl, rfl⟩ := wait.layout.index_inj used isAt less insideSop same
        exact here ⟨rfl, rfl⟩
      rw [if_neg fun all => here ⟨all.1, all.2.1⟩, if_neg fun all => here ⟨all.1, all.2.1⟩]
      have same := @countWaiter_outside _ st.sem _ _ notHere 1
      exact ⟨(congrArg Sem.semncnt same).trans ncnt, (congrArg Sem.semzcnt same).trans zcnt⟩
  stuck := by
    refine forall_mem_cons.mpr ⟨fun _ => ⟨isAt, ?_⟩, fun other isIn notWoken => ?_⟩
    · exact stuck.of_val (semval_countWaiter _ _ _ _)
    · obtain ⟨used, stuck⟩ := wait.stuck other isIn notWoken
      exact ⟨used, stuck.of_val (semval_countWaiter _ _ _ _)⟩

theorem Waiting.dropped (wait : Waiting ⟨st, waiter :: oths⟩)
    (gone : (st.sema waiter.sleep.semid).alloc = false) : Waiting ⟨st, oths⟩ where
  layout := wait.layout
  few := Nat.le_of_succ_le wait.few
  seqs := (forall_mem_cons.mp wait.seqs).2
  inside := (forall_mem_cons.mp wait.inside).2
  counts := by
    intro i used n less
    have counts := wait.counts i used n less
    have oth : waiter.sleep.semid ≠ i := by
      rintro rfl
      rw [gone] at used
      cases used
    rw [queued_cons, queued_cons, if_neg fun all => oth all.1, if_neg fun all => oth all.1]
      at counts
    exact counts
  stuck := (forall_mem_cons.mp wait.stuck).2

theorem Waiting.perm (wait : Waiting ⟨st, waiters⟩) (same : waiters.Perm oths) :
    Waiting ⟨st, oths⟩ where
  layout := wait.layout
  few := same.length_eq ▸ wait.few
  seqs := fun waiter isIn => wait.seqs waiter (same.mem_iff.mpr isIn)
  inside := fun waiter isIn => wait.inside waiter (same.mem_iff.mpr isIn)
  counts := by
    intro i used n less
    have counts := wait.counts i used n less
    unfold queued at counts ⊢
    rw [same.countP_eq, same.countP_eq] at counts
    exact counts
  stuck := fun waiter isIn => wait.stuck waiter (same.mem_iff.mpr isIn)

/-- What a try did decides who sleeps and who wakes. -/
theorem Waiting.settle (wait : Waiting ⟨st, waiters⟩) (few : waiters.length < 65535)
    {p semid : Nat} {sops : List Sembuf} {do_undos : Bool}
    (isAt : (st.sema semid).alloc = true)
    (lt : ∀ sop ∈ sops, sop.sem_num < (st.sema semid).sem_nsems)
    (plain : Plain st p semid sops do_undos) {outcome : Outcome}
    (tried : Tried st p semid sops do_undos outcome) (lwp : Nat) :
    Waiting (settle waiters lwp p semid (st.sema semid).seq sops outcome) := by
  have right := tried.right wait.layout.right
  have debts := fun q i n owed => tried.owed (q := q) (i := i) (n := n) owed
  have rng : InRange (st.pass do_undos).sem := wait.layout.right.values
  cases tried with
  | @done semu_list thru undos owed =>
    have lay : Layout _ := wait.layout.of_same right rfl rfl rfl fun q i n owed => by
      rcases debts q i n owed with prev | ⟨rfl, sop, isIn, rfl⟩
      · exact .inl prev
      · exact .inr ⟨isAt, lt sop isIn⟩
    have fits := plain.goes thru
    have cnts : ∀ j, (setPids (st.base semid) p sops
        (applyLoop (st.base semid) sops (st.pass do_undos)).2.sem j).semncnt =
          (st.sem j).semncnt ∧ (setPids (st.base semid) p sops
        (applyLoop (st.base semid) sops (st.pass do_undos)).2.sem j).semzcnt =
          (st.sem j).semzcnt := by
      intro j
      obtain ⟨ncnt, zcnt⟩ := counts_setPids
        (applyLoop (st.base semid) sops (st.pass do_undos)).2.sem
        (st.base semid) p sops j
      rw [ncnt, zcnt, thru.1.sem_eq rng]
      exact counts_shift Sembuf.sem_op (st.base semid) sops j
    -- a set that another process waits on is left as it was
    have stuck : ∀ waiter ∈ waiters, waiter.woken = false → (waiter.sleep.semid = semid →
          (applyLoop (st.base semid) sops (st.pass do_undos)).2.do_wakeup = false) →
        Stuck (valOf (setPids (st.base semid) p sops
          (applyLoop (st.base semid) sops (st.pass do_undos)).2.sem)
            (st.base waiter.sleep.semid)) waiter.sleep.sops waiter.sleep.sop := by
      intro waiter isIn zz quiet
      obtain ⟨used, stuck⟩ := wait.stuck waiter isIn zz
      have insideWaiter := wait.inside waiter isIn used waiter.sleep.sop mem_cons_self
      by_cases here : waiter.sleep.semid = semid
      · have pos := queued_pos isIn
        obtain ⟨ncnt, zcnt⟩ := wait.counts _ used _ insideWaiter
        rw [here] at stuck pos ncnt zcnt ⊢
        refine (thru.1.stuck rng fits (quiet here) stuck (fun more => ?_)
          fun zero => ?_).of_val (semval_setPids _ _ _ _)
        · rw [decide_eq_false more] at pos
          show 0 < (st.sem _).semncnt
          rw [ncnt]
          exact pos
        · rw [decide_eq_true zero] at pos
          show 0 < (st.sem _).semzcnt
          rw [zcnt]
          exact pos
      · refine stuck.of_val ?_
        have out : ∀ sop ∈ sops, st.base waiter.sleep.semid + waiter.sleep.sop.sem_num ≠
            st.base semid + sop.sem_num := fun sop isSop same =>
          here (wait.layout.index_inj used isAt insideWaiter (lt sop isSop) same).1
        show (setPids _ _ _ _ _).semval = (st.sem _).semval
        rw [semval_setPids, thru.1.sem_eq rng]
        exact congrArg Sem.semval (shift_outside wait.layout.right.values _ out)
    cases wakes : (applyLoop (st.base semid) sops (st.pass do_undos)).2.do_wakeup with
    | true =>
      refine wait.values lay rfl cnts fun waiter isIn zz notIn => ?_
      exact stuck waiter isIn zz fun here =>
        absurd (mem_singleton.mpr here) notIn
    | false =>
      rw [← broadcast_nil waiters]
      exact wait.values lay rfl cnts fun waiter isIn zz _ =>
        stuck waiter isIn zz fun _ => wakes
  | @failed error semu_list undos same stop =>
    have lay : Layout { st with semu_list := semu_list } :=
      wait.layout.of_same right rfl rfl rfl fun q i n owed =>
        .inl fun eq0 => owed ((same q i n).trans eq0)
    exact { wait with layout := lay }
  | sleeps pre sop back undoing split done maySleep waits stop =>
    have insideSop := lt sop (by
      rw [split]
      exact mem_append_right pre mem_cons_self)
    obtain ⟨noSum, sml⟩ := plain.waits pre sop back split done maySleep waits
    have isStuck : Stuck (valOf st.sem (st.base semid)) sops sop := by
      refine ⟨pre, back, split, ?_⟩
      unfold Waits at waits
      rw [valOf_shift] at waits
      have bnds := wait.layout.right.values (st.base semid + sop.sem_num)
      rcases waits with ⟨neg, less⟩ | ⟨zero, pos'⟩
      · refine .inl ⟨neg, ?_⟩
        have noWrap := sml neg
        by_cases low : 0 ≤ valOf st.sem (st.base semid) sop.sem_num +
            sumOn Sembuf.sem_op sop.sem_num pre
        · rw [ushort_eq low noWrap] at less
          exact less
        · omega
      · refine .inr ⟨zero, noSum zero, ?_⟩
        rw [noSum zero, Int.add_zero] at pos'
        unfold valOf at pos' ⊢
        rw [ushort_eq bnds.1 bnds.2] at pos'
        exact pos'
    exact wait.asleep few ⟨lwp, ⟨p, semid, (st.sema semid).seq, sops, sop, undoing⟩, false⟩
      isAt rfl
      (forall_mem_cons.mpr ⟨insideSop, lt⟩) isStuck

end Keep

section Run

variable {sls : Sleepers}

theorem seq_removeSet (st : State) (ix i : Nat) :
    ((removeSet st ix).sema i).seq = (st.sema i).seq := by
  unfold removeSet
  dsimp only
  split <;> split <;> rfl

theorem Waiting.call (wait : Waiting sls) {lwp : Nat} {rq : Request}
    (fine : Fine sls (.call lwp rq)) :
    ∃ outcome, sysSemop sls.state rq = some outcome ∧
      Waiting (SysvSem.settle sls.waiters lwp rq.proc (ipcidToIx rq.semid)
        (ipcidToSeq rq.semid) rq.sops outcome) := by
  rcases (Section.start rq).run_spec wait.layout.right with
    ⟨enters, outcome, out, tried⟩ | ⟨_, error, fail, _⟩ | ⟨sleep, isResume, _⟩
  · obtain ⟨few, plain⟩ := fine enters
    obtain ⟨isAt, lt⟩ := enters.inside trivial
    have isSeq := (semopCheck_none enters).2.1
    refine ⟨outcome, out, ?_⟩
    rw [← isSeq]
    exact wait.settle few isAt lt plain tried lwp
  · exact ⟨_, fail, wait⟩
  · cases isResume

/-- A resumed call tries again, or ends without its set. -/
theorem Waiting.resume (wait : Waiting sls) {lwp : Nat} {intr : Bool}
    {oths : List Waiter} (taken : takeWaiter lwp sls.waiters = some (waiter, oths))
    (fine : Fine sls (.resume lwp intr)) :
    ∃ outcome, semopWake sls.state waiter.sleep intr = some outcome ∧
      Waiting (SysvSem.settle oths lwp waiter.sleep.proc waiter.sleep.semid waiter.sleep.seq
        waiter.sleep.sops outcome) := by
  have moved : Waiting ⟨sls.state, waiter :: oths⟩ := wait.perm (takeWaiter_perm taken)
  have isSeq := moved.seqs waiter mem_cons_self
  have few : oths.length < 65535 := moved.few
  rcases (Section.resume waiter.sleep intr).run_spec wait.layout.right with
    ⟨enters, outcome, isOutcome, tried⟩ | ⟨out, error, fail, _⟩ | ⟨sleep, same, isThere, fail⟩
  · have res := moved.resumed enters.1.1
    have lt := moved.inside waiter mem_cons_self enters.1.1
    refine ⟨outcome, isOutcome, ?_⟩
    rw [← isSeq]
    exact res.settle few enters.1.1 (forall_mem_cons.mp lt).2
      (fine waiter oths taken enters) tried lwp
  · refine ⟨_, fail, ?_⟩
    cases isUsed : (sls.state.sema waiter.sleep.semid).alloc with
    | false => exact moved.dropped isUsed
    | true =>
      cases intr with
      | false => exact absurd ⟨⟨isUsed, isSeq⟩, rfl⟩ out
      | true =>
        have isEnd : semopWake sls.state waiter.sleep true =
            some (.failed .eintr (SysvSem.resumed sls.state waiter.sleep)) := by
          unfold semopWake
          rw [if_neg (by rw [isUsed, isSeq]; simp)]
          rfl
        have isState := fail.symm.trans isEnd
        injection isState with isState
        rw [isState]
        exact moved.resumed isUsed
  · obtain ⟨rfl, rfl⟩ := Section.resume.inj same
    exact ⟨_, fail, moved.resumed isThere.1⟩

section Happenings

variable {s' : Sleepers} {semid semnum val : Int} {array : Nat → Option Nat}
  {ipcperm : Option Errno} {p : Nat}

theorem Waiting.setval (wait : Waiting sls)
    (moved : next sls (.setval semid semnum val ipcperm) = some s') :
    Waiting s' := by
  unfold SysvSem.next at moved
  dsimp only at moved
  split at moved
  · obtain rfl := some.inj moved
    exact wait
  rename_i st ok
  obtain rfl := some.inj moved
  obtain ⟨chk, nn, lt, low, high, aft⟩ := semctlSetval_ok ok
  have fresh : Fresh sls.state (.setval semid semnum val ipcperm) := trivial
  have moves : Moves sls.state (.setval semid semnum val ipcperm) st :=
    .setval ok chk (by omega) low high aft
  refine wait.values (wait.layout.moves fresh moves) (by rw [aft])
    (fun j => ?_) fun waiter isIn zz notIn => ?_
  · rw [aft]
    exact counts_setVal _ _ _
  have keeps := moves.keeps wait.layout fresh
    (wait.stuck waiter isIn zz).1 fun same => notIn (mem_singleton.mpr same)
  have stays := wait.stuck_keeps isIn zz keeps
  rw [aft] at stays ⊢
  exact stays

theorem Waiting.setall (wait : Waiting sls)
    (moved : next sls (.setall semid array ipcperm) = some s') :
    Waiting s' := by
  unfold SysvSem.next at moved
  dsimp only at moved
  split at moved
  · obtain rfl := some.inj moved
    exact wait
  rename_i st error ok
  obtain rfl := some.inj moved
  obtain ⟨chk, aft⟩ := semctlSetall_ok ok
  have fresh : Fresh sls.state (.setall semid array ipcperm) := trivial
  have moves : Moves sls.state (.setall semid array ipcperm) st :=
    .setall ok chk aft
  refine wait.values (wait.layout.moves fresh moves) (by rw [aft])
    (fun j => ?_) fun waiter isIn zz notIn => ?_
  · rw [aft]
    exact counts_setallLoop _ _ _ _
  have keeps := moves.keeps wait.layout fresh
    (wait.stuck waiter isIn zz).1 fun same => notIn (mem_singleton.mpr same)
  have stays := wait.stuck_keeps isIn zz keeps
  rw [aft] at stays ⊢
  exact stays

theorem Waiting.rmid (wait : Waiting sls) (moved : next sls (.rmid semid ipcperm) = some s') :
    Waiting s' := by
  unfold SysvSem.next at moved
  dsimp only at moved
  split at moved
  · obtain rfl := some.inj moved
    exact wait
  rename_i st ok
  obtain rfl := some.inj moved
  obtain ⟨chk, rfl⟩ := semctlRmid_ok ok
  have fresh : Fresh sls.state (.rmid semid ipcperm) := trivial
  have moves : Moves sls.state (.rmid semid ipcperm)
    (removeSet sls.state (ipcidToIx semid)) := .rmid ok chk
  refine wait.broadcast (wait.layout.moves fresh moves)
    (seq_removeSet _ _) (fun i used => ?_) fun waiter isIn zz notIn => ?_
  · obtain ⟨oth, wasUsed, _⟩ := sema_removeSet wait.layout.packed used
    have keeps := moves.keeps wait.layout fresh wasUsed oth
    refine ⟨wasUsed, keeps.nsems, fun n less => ?_⟩
    have same := keeps.same n less
    exact ⟨congrArg Sem.semncnt same, congrArg Sem.semzcnt same⟩
  · have keeps := moves.keeps wait.layout fresh
      (wait.stuck waiter isIn zz).1 fun same => notIn (mem_singleton.mpr same)
    exact ⟨keeps.alloc, wait.stuck_keeps isIn zz keeps⟩

theorem Waiting.exit (wait : Waiting sls) (moved : next sls (.exit p) = some s') :
    Waiting s' := by
  obtain ⟨⟨st, sets⟩, exits, rfl⟩ := map_eq_some_iff.mp moved
  rcases semexit_some exits with ⟨miss, rfl, rfl⟩ | ⟨ents, sem, fnd, isSem, rfl, rfl⟩
  · show Waiting ⟨sls.state, SysvSem.broadcast [] sls.waiters⟩
    rw [broadcast_nil]
    exact wait
  have fresh : Fresh sls.state (.exit p) := trivial
  have moves : Moves sls.state (.exit p) { sls.state with
      sem := sem, semu_list := removeUndo p sls.state.semu_list } := .exit fnd isSem
  refine wait.values (wait.layout.moves fresh moves) rfl
    (counts_exitLoop isSem) fun waiter isIn zz notIn => ?_
  have keeps := moves.keeps wait.layout fresh
    (wait.stuck waiter isIn zz).1 fun tgt => ?_
  · exact wait.stuck_keeps isIn zz keeps
  · obtain ⟨n, owed⟩ := tgt
    obtain ⟨ent, isEnt, same⟩ := entry_of_owed fnd owed
    exact notIn (mem_map.mpr ⟨ent, isEnt, same⟩)

end Happenings

/-- Every section under `semlock` that is fine keeps what is known of the sleepers. -/
theorem Waiting.next (wait : Waiting sls) {happening : Happening} {s' : Sleepers}
    (fine : Fine sls happening) (moved : next sls happening = some s') :
    Waiting s' := by
  cases happening with
  | call lwp rq =>
    unfold SysvSem.next at moved
    dsimp only at moved
    split at moved
    · cases moved
    · obtain ⟨outcome, out, kept⟩ := wait.call fine
      rw [out] at moved
      obtain rfl := some.inj moved
      exact kept
  | resume lwp intr =>
    unfold SysvSem.next at moved
    dsimp only at moved
    split at moved
    · cases moved
    rename_i waiter oths taken
    split at moved
    · cases moved
    · obtain ⟨outcome, out, kept⟩ := wait.resume taken fine
      rw [out] at moved
      obtain rfl := some.inj moved
      exact kept
  | setval semid semnum val ipcperm => exact wait.setval moved
  | setall semid array ipcperm => exact wait.setall moved
  | rmid semid ipcperm => exact wait.rmid moved
  | exit p => exact wait.exit moved

/-- No process sleeps. -/
structure Idle (state : State) : Prop where
  layout : Layout state
  counts : ∀ i, (state.sema i).alloc = true → ∀ n, n < (state.sema i).sem_nsems →
    (state.sem (state.base i + n)).semncnt = 0 ∧ (state.sem (state.base i + n)).semzcnt = 0

theorem Idle.waiting {st : State} (idle : Idle st) : Waiting ⟨st, []⟩ where
  __ := idle
  few := Nat.zero_le _
  seqs := fun waiter isIn => by cases isIn
  inside := fun waiter isIn => by cases isIn
  stuck := fun waiter isIn => by cases isIn

end Run

/-- In a run whose vectors are plain every process that was not woken would sleep again. -/
theorem semop_wakeup {st : State} (idle : Idle st) (happenings : List Happening)
    (fine : AllFine next Fine happenings ⟨st, []⟩) :
    ∀ front, front <+: happenings → ∀ reached, consume next front ⟨st, []⟩ = some reached →
      StillBlocks reached := by
  intro front pre reached eaten
  have wait : Waiting reached := by
    refine consume_safe next Waiting Fine (fun _ _ _ wait fine moved => wait.next fine moved)
      front idle.waiting (fun early happening isEarly mid isBetween => ?_) eaten
    exact fine.along (isEarly.trans pre) isBetween
  exact wait.stillBlocks

def oneSem : State := addSet seminit 0 0 1

theorem idle_oneSem : Idle oneSem where
  layout := layout_seminit.addSet 0 (by decide) rfl Nat.one_pos
  counts := by
    intro i used n less
    have fst : i = 0 := by
      by_contra oth
      have free : (oneSem.sema i).alloc = false := congrArg Semid.alloc (if_neg oth)
      rw [free] at used
      cases used
    subst fst
    obtain rfl : n = 0 := Nat.lt_one_iff.mp less
    exact ⟨rfl, rfl⟩

/-- A process takes one and waits for zero, where there are two; another one takes one. -/
theorem semop_wakeup_lost : ∃ reached, consume next [.setval 65536 0 2 none,
      .call 1 ⟨1, 65536, [sembuf 0 (-1) false, sembuf 0 0 false], none, none⟩,
      .call 2 ⟨2, 65536, [sembuf 0 (-1) false], none, none⟩] ⟨oneSem, []⟩ = some reached ∧
      ¬ StillBlocks reached := by
  refine ⟨_, rfl, fun blks => ?_⟩
  exact absurd (show Full _ _ _ by decide) (blks _ mem_cons_self rfl).2

/-- A process waits for more than zero. -/
theorem semop_wakeup_wait : ∃ reached,
    consume next [.call 1 ⟨1, 65536, [sembuf 0 (-1) false], none, none⟩] ⟨oneSem, []⟩ =
      some reached ∧ reached.waiters.length = 1 ∧ StillBlocks reached := by
  refine ⟨_, rfl, rfl, ?_⟩
  refine semop_wakeup idle_oneSem [.call 1 ⟨1, 65536, [sembuf 0 (-1) false], none, none⟩]
    ⟨fun _ => ⟨by decide, ?_⟩, fun _ _ => trivial⟩ _ (prefix_refl _) _ rfl
  refine ⟨fun thru => absurd thru.1 (by decide), fun front sop back split _ _ _ => ?_⟩
  obtain rfl : front = [] := by
    cases front with
    | nil => rfl
    | cons fst tl =>
      have short := congrArg List.length split
      simp at short
  obtain ⟨rfl, _⟩ := cons.inj split
  exact ⟨fun zero => absurd zero (by decide), fun _ => by decide⟩

end NetBSD.Kern.SysvSem
