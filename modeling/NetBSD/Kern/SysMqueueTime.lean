import NetBSD.Kern.SysMqueue

/-!
Owns the absolute timeouts of `mq_send1` and `mq_recv1`: what `ts2timo` makes of the caller's
`timespec` and leaves there, and when a call that waits round after round gives up.
-/

namespace NetBSD.Kern.SysMqueue

open Option MqSystem

section Model

structure Timespec where
  tv_sec : Int
  tv_nsec : Int
deriving DecidableEq, Repr

def Timespec.ns (ts : Timespec) : Int := ts.tv_sec * 1000000000 + ts.tv_nsec

/-- `hz` ticks a second, of `tick` microseconds each. -/
structure Hardclock where
  hz : Nat
  tick : Nat

def intMax : Int := 2 ^ 31 - 1
def longMax : Int := 2 ^ 63 - 1

def timespecsub (tsp usp : Timespec) : Timespec :=
  if tsp.tv_nsec - usp.tv_nsec < 0 then
    ⟨tsp.tv_sec - usp.tv_sec - 1, tsp.tv_nsec - usp.tv_nsec + 1000000000⟩
  else ⟨tsp.tv_sec - usp.tv_sec, tsp.tv_nsec - usp.tv_nsec⟩

def itimespecfix (hc : Hardclock) (ts : Timespec) : Except Errno Timespec :=
  if ts.tv_nsec < 0 ∨ 1000000000 ≤ ts.tv_nsec then .error .einval
  else if ts.tv_sec < 0 then .error .etimedout
  else if ts.tv_sec = 0 ∧ ts.tv_nsec ≠ 0 ∧ ts.tv_nsec < hc.tick * 1000 then
    .ok ⟨ts.tv_sec, hc.tick * 1000⟩
  else .ok ts

def tvtohz (hc : Hardclock) (sec usec : Int) : Int :=
  if intMax < sec then intMax
  else if sec < 0 then 0
  else
    let ticks :=
      if sec = 0 ∧ usec = 0 then 0
      else if sec ≤ longMax / 1000000 then (sec * 1000000 + usec + (hc.tick - 1)) / hc.tick + 1
      else if sec ≤ longMax / hc.hz then sec * hc.hz + (usec + (hc.tick - 1)) / hc.tick + 1
      else longMax
    if intMax < ticks then intMax else ticks

def tstohz (hc : Hardclock) (ts : Timespec) : Int := tvtohz hc ts.tv_sec (ts.tv_nsec / 1000)

/-- `ts2timo` with `TIMER_ABSTIME` at the time `start`, and what it leaves in `*ts`. -/
def ts2timo (hc : Hardclock) (start ts : Timespec) : Except Errno Int × Timespec :=
  let ts := timespecsub ts start
  match itimespecfix hc ts with
  | .error error => (.error error, ts)
  | .ok ts =>
    if ts.tv_sec = 0 ∧ ts.tv_nsec = 0 then (.error .etimedout, ts) else (.ok (tstohz hc ts), ts)

/-- A call with a timeout, asleep: the time the user passed, the caller's copy as it is by now, and
the first moment at which the timeout of the sleep may fire. -/
structure Timed where
  user : Timespec
  ts : Timespec
  expires : Int

structure TimedSystem where
  system : MqSystem
  /-- `CLOCK_REALTIME`. -/
  realtime : Timespec
  timed : Nat → Option Timed

inductive Entry where
  | send (msg : MqMsg)
  | recv (msgLen : Nat)

def Entry.action (thread : Nat) (timo : Option Errno) : Entry → Action
  | .send msg => .send thread msg timo
  | .recv msgLen => .recv thread msgLen timo

inductive TimedAction where
  | clock (now : Timespec)
  | enter (thread : Nat) (entry : Entry) (ts : Option Timespec)
  | wakeup (thread : Nat) (wake : Wake)

/-- The error of `ts2timo` for what `*ts` holds, or the sleep that it allows. A sleep of `t` ticks
lasts more than `t - 1` of them, as the first one has begun already. -/
def TimedSystem.timeout (hc : Hardclock) (state : TimedSystem) :
    Option (Timespec × Timespec) → Option Errno × Option Timed
  | none => (none, none)
  | some (user, ts) =>
    match ts2timo hc state.realtime ts with
    | (.error error, _) => (some error, none)
    | (.ok timo, ts) => (none, some ⟨user, ts, state.realtime.ns + (timo - 1) * hc.tick * 1000⟩)

/-- The user's time and the caller's copy of it that a call begins with, or goes on with. -/
def TimedSystem.times (state : TimedSystem) : TimedAction → Option (Timespec × Timespec)
  | .clock _ => none
  | .enter _ _ ts => ts.map fun ts => (ts, ts)
  | .wakeup thread _ => (state.timed thread).map fun timed => (timed.user, timed.ts)

def TimedSystem.critical (limits : MqLimits) (hc : Hardclock) (state : TimedSystem) (thread : Nat)
    (times : Option (Timespec × Timespec)) (action : Option Errno → Action) :
    Option (TimedSystem × Answer) :=
  (state.system.step limits (action (state.timeout hc times).1)).map fun (system, answer) =>
    ({ state with
        system := system
        timed := Function.update state.timed thread
          (if answer = .sleeping then (state.timeout hc times).2 else none) }, answer)

/-- The clock does not go backwards; a thread that sleeps does not call, and only such a thread
wakes up, by its timeout when that is over. -/
def TimedSystem.step (limits : MqLimits) (hc : Hardclock) (state : TimedSystem)
    (action : TimedAction) : Option (TimedSystem × Answer) :=
  match action with
  | .clock now =>
    some (if state.realtime.ns ≤ now.ns then { state with realtime := now } else state, .done)
  | .enter thread entry _ =>
    match state.system.sleepers thread with
    | some _ => some (state, .done)
    | none => state.critical limits hc thread (state.times action) (entry.action thread)
  | .wakeup thread wake =>
    if wake = .ewouldblock ∧
        (state.timed thread).all (fun timed => state.realtime.ns < timed.expires) then
      some (state, .done)
    else state.critical limits hc thread (state.times action) (.wakeup thread wake)

end Model

variable {waits : Prop}

section Rounds

variable {limits : MqLimits} {hc : Hardclock} {mq mq' : Mqueue} {timo : Option Errno}
  {answer : Answer}

/-- The loop of a call would wait: its queue is full, or empty. -/
def Waits (mq : Mqueue) : Sleeper → Prop
  | .sending _ => mq.mq_attrib.mq_maxmsg ≤ mq.mq_attrib.mq_curmsgs ∧ mq.mq_attrib.nonblock = false
  | .receiving => mq.mq_attrib.mq_curmsgs = 0 ∧ mq.mq_attrib.nonblock = false

def Entry.sleeper : Entry → Sleeper
  | .send msg => .sending msg
  | .recv _ => .receiving

/-- What the end of a critical section says of a round of the loop: only a call that waits goes to
sleep, and where it has timed out in the round that is what `ts2timo` says. -/
def Round (waits : Prop) (timo : Option Errno) (answer : Option Answer) : Prop :=
  (answer = some .sleeping → waits) ∧
    (answer = some (.failed .etimedout) → waits ∧ timo = some .etimedout)

theorem Round.loop (isWait : waits) {sleeps : Mqueue} :
    Round waits timo (Option.map (·.2) (match timo with
      | some error => some (mq, .failed error)
      | none => some (sleeps, .sleeping))) := by
  cases timo with
  | none => exact ⟨fun _ => isWait, nofun⟩
  | some error =>
    exact ⟨nofun, fun same => ⟨isWait, congrArg some (Answer.failed.inj (some.inj same))⟩⟩

variable {st : TimedSystem} {td : Nat}

/-- The loop of the call is to wait, for the first time or once more. -/
def TimedSystem.Waits (state : TimedSystem) : TimedAction → Prop
  | .clock _ => False
  | .enter _ entry _ => SysMqueue.Waits state.system.mq entry.sleeper
  | .wakeup thread wake => wake = .signalled ∧ state.system.mq.mq_attrib.unlinked = false ∧
    ∃ sleeper, state.system.sleepers thread = some sleeper ∧ SysMqueue.Waits state.system.mq sleeper

theorem Round.mono {waits' : Prop} (implies : waits → waits') {answer : Option Answer}
    (round : Round waits timo answer) : Round waits' timo answer :=
  ⟨implies ∘ round.1, fun same => (round.2 same).imp_left implies⟩

end Rounds

/-! ### Runs with a clock -/

section Runs

variable {limits : MqLimits} {hc : Hardclock} {st s' : TimedSystem} {answer : Answer}
  {times : Option (Timespec × Timespec)}

/-- The clock has reached the user's time, or the caller's copy is that time still and the ticks of
what is left last until then. -/
def Covers (hc : Hardclock) (now user ts : Timespec) : Prop :=
  user.ns ≤ now.ns ∨ ts = user ∧ ∀ left, itimespecfix hc (timespecsub user now) = .ok left →
    user.ns ≤ now.ns + (tstohz hc left - 1) * hc.tick * 1000

def Timely (state : TimedSystem) : Prop := ∀ thread timed, state.timed thread = some timed →
    timed.user.ns ≤ timed.expires ∨ timed.user.ns ≤ state.realtime.ns

theorem ns_timespecsub (tsp usp : Timespec) : (timespecsub tsp usp).ns = tsp.ns - usp.ns := by
  unfold timespecsub Timespec.ns
  split <;> simp only <;> omega

/-- The ticks for a time left do not last that long: they are cut at `INT_MAX`, or a fraction of a
microsecond was dropped and the rest is a whole number of ticks. -/
def FallsShort (hc : Hardclock) (left : Int) : Prop :=
  (intMax - 1) * hc.tick * 1000 < left ∨
    hc.tick * 1000 ≤ left ∧ left % 1000 ≠ 0 ∧ (hc.tick : Int) ∣ left / 1000

section Ticks

variable (positive : 0 < hc.tick)

include positive

theorem roundUp_ticks (us : Int) : us ≤ (us + (hc.tick - 1)) / hc.tick * hc.tick ∧
    (us + (hc.tick - 1)) / hc.tick * hc.tick < us + hc.tick ∧
    ((us + (hc.tick - 1)) / hc.tick * hc.tick = us ↔ (hc.tick : Int) ∣ us) := by
  have pos : (0 : Int) < hc.tick := by exact_mod_cast positive
  have parts := Int.mul_ediv_add_emod (us + (hc.tick - 1)) hc.tick
  have low := Int.emod_nonneg (us + (hc.tick - 1)) (Int.ne_of_gt pos)
  have high := Int.emod_lt_of_pos (us + (hc.tick - 1)) pos
  rw [Int.mul_comm] at parts
  refine ⟨by omega, by omega, fun same => ⟨_, (Int.mul_comm _ _).trans same |>.symm⟩, ?_⟩
  rintro ⟨c, rfl⟩
  have quo : (hc.tick * c + (hc.tick - 1)) / hc.tick = c := by
    rw [Int.add_comm, Int.add_mul_ediv_left _ _ (Int.ne_of_gt pos),
      Int.ediv_eq_zero_of_lt (by omega) (by omega), Int.zero_add]
  rw [quo, Int.mul_comm]

variable (second : hc.tick ≤ 1000000)

include second

/-- `tstohz` rounds up to whole ticks, and adds one for the tick that has begun. -/
theorem tstohz_short_iff {ts : Timespec} (proper : 0 ≤ ts.tv_nsec ∧ ts.tv_nsec < 1000000000)
    (later : hc.tick * 1000 ≤ ts.ns) :
    (tstohz hc ts - 1) * hc.tick * 1000 < ts.ns ↔ FallsShort hc ts.ns := by
  unfold Timespec.ns at later
  have isUs : ts.ns / 1000 = ts.tv_sec * 1000000 + ts.tv_nsec / 1000 := by
    unfold Timespec.ns
    omega
  obtain ⟨enough, few, exact⟩ := roundUp_ticks positive (ts.ns / 1000)
  unfold FallsShort tstohz tvtohz intMax longMax
  by_cases isLong : 2 ^ 31 - 1 < ts.tv_sec
  · rw [if_pos isLong]
    refine iff_of_true ?_ (.inl ?_) <;> (unfold Timespec.ns; omega)
  rw [if_neg isLong, if_neg (show ¬ ts.tv_sec < 0 by omega)]
  dsimp only
  rw [if_neg (show ¬ (ts.tv_sec = 0 ∧ ts.tv_nsec / 1000 = 0) by omega),
    if_pos (show ts.tv_sec ≤ (2 ^ 63 - 1) / 1000000 by omega), ← isUs]
  generalize (ts.ns / 1000 + (hc.tick - 1)) / hc.tick = ticks at *
  have least : (2 ^ 31 - 1 ≤ ticks → (2 ^ 31 - 1) * hc.tick ≤ ticks * hc.tick) ∧
      (ticks ≤ 2 ^ 31 - 2 → ticks * hc.tick ≤ (2 ^ 31 - 2) * hc.tick) :=
    ⟨fun le => Int.mul_le_mul_of_nonneg_right le (by omega),
      fun le => Int.mul_le_mul_of_nonneg_right le (by omega)⟩
  rw [← exact]
  change hc.tick * 1000 ≤ ts.ns at later
  split_ifs with isCut
  · refine iff_of_true ?_ (.inl ?_) <;> omega
  · rw [Int.add_sub_cancel]
    omega

/-- A call waits long enough in its first round unless the ticks for the time left fall short. -/
theorem covers_first_iff {now user : Timespec}
    (isNow : 0 ≤ now.tv_nsec ∧ now.tv_nsec < 1000000000)
    (isUser : 0 ≤ user.tv_nsec ∧ user.tv_nsec < 1000000000) :
    Covers hc now user user ↔ ¬ FallsShort hc (user.ns - now.ns) := by
  rw [← ns_timespecsub]
  have proper : 0 ≤ (timespecsub user now).tv_nsec ∧
      (timespecsub user now).tv_nsec < 1000000000 := by
    unfold timespecsub
    split <;> (dsimp only; omega)
  have isLeft := ns_timespecsub user now
  unfold Covers
  generalize timespecsub user now = ts at *
  have notShort (early : ts.ns < hc.tick * 1000) : ¬ FallsShort hc ts.ns := by
    unfold FallsShort intMax
    omega
  by_cases due : ts.ns ≤ 0
  · exact iff_of_true (.inl (by omega)) (notShort (by omega))
  have full : 0 < ts.tv_sec * 1000000000 + ts.tv_nsec := by
    unfold Timespec.ns at due
    omega
  by_cases raised : ts.tv_sec = 0 ∧ ts.tv_nsec ≠ 0 ∧ ts.tv_nsec < hc.tick * 1000
  · have early : ts.ns < hc.tick * 1000 := by
      unfold Timespec.ns
      omega
    refine iff_of_true (.inr ⟨rfl, fun left isFixed => ?_⟩) (notShort early)
    rw [itimespecfix, if_neg (by omega), if_neg (by omega), if_pos raised] at isFixed
    obtain rfl := Except.ok.inj isFixed
    have ticks : tstohz hc ⟨ts.tv_sec, hc.tick * 1000⟩ = 2 := by
      have quo : ((hc.tick : Int) + (hc.tick - 1)) / hc.tick = 1 := by
        rw [Int.add_ediv_of_dvd_left (Int.dvd_refl _), Int.ediv_self (by omega),
          Int.ediv_eq_zero_of_lt (by omega) (by omega)]
        rfl
      have isTick : hc.tick ≠ 0 := by omega
      simp [tstohz, tvtohz, raised.1, quo, intMax, longMax, isTick]
    rw [ticks]
    omega
  · have isFixed : itimespecfix hc ts = .ok ts := by
      rw [itimespecfix, if_neg (by omega), if_neg (by omega), if_neg raised]
    have short := tstohz_short_iff positive second proper (by unfold Timespec.ns; omega)
    rw [← short, isFixed, not_lt]
    constructor
    · rintro (past | ⟨-, lasts⟩)
      · omega
      · have := lasts ts rfl
        omega
    · intro lasts
      refine .inr ⟨rfl, fun left same => ?_⟩
      obtain rfl := Except.ok.inj same
      omega

end Ticks

theorem itimespecfix_etimedout {ts : Timespec} (isError : itimespecfix hc ts = .error .etimedout) :
    ts.ns < 0 := by
  unfold itimespecfix at isError
  unfold Timespec.ns
  split_ifs at isError with isNsec isSec
  · cases isError
  · omega

theorem itimespecfix_zero {ts fixed : Timespec} (isFixed : itimespecfix hc ts = .ok fixed)
    (zero : fixed.tv_sec = 0 ∧ fixed.tv_nsec = 0) : ts.ns ≤ 0 := by
  unfold itimespecfix at isFixed
  unfold Timespec.ns
  split_ifs at isFixed with _ _ isShort <;> cases isFixed
  · have : (hc.tick : Int) * 1000 = 0 := zero.2
    omega
  · omega

/-- The sleep ends no earlier than the user's time. -/
theorem timeout_spec (cov : ∀ time ∈ times, Covers hc st.realtime time.1 time.2) :
    (∀ timed ∈ (st.timeout hc times).2,
      timed.user.ns ≤ timed.expires ∨ timed.user.ns ≤ st.realtime.ns) ∧
    ((st.timeout hc times).1 = some .etimedout →
      ∃ time ∈ times, time.1.ns ≤ st.realtime.ns) := by
  cases times with
  | none => exact ⟨nofun, nofun⟩
  | some time =>
    obtain ⟨user, ts⟩ := time
    have cov : Covers hc st.realtime user ts := cov _ rfl
    have left (isUser : ts = user) :
        (timespecsub ts st.realtime).ns = user.ns - st.realtime.ns := by
      rw [isUser, ns_timespecsub]
    cases isFixed : itimespecfix hc (timespecsub ts st.realtime) with
    | error error =>
      simp only [TimedSystem.timeout, ts2timo, isFixed]
      refine ⟨nofun, fun same => ⟨(user, ts), rfl, cov.elim id fun fst => ?_⟩⟩
      cases same
      change user.ns ≤ _
      have := itimespecfix_etimedout isFixed
      have := left fst.1
      omega
    | ok fixed =>
      simp only [TimedSystem.timeout, ts2timo, isFixed]
      by_cases zero : fixed.tv_sec = 0 ∧ fixed.tv_nsec = 0
      · simp only [if_pos zero]
        refine ⟨nofun, fun _ => ⟨(user, ts), rfl, cov.elim id fun fst => ?_⟩⟩
        change user.ns ≤ _
        have := itimespecfix_zero isFixed zero
        have := left fst.1
        omega
      · simp only [if_neg zero]
        refine ⟨?_, nofun⟩
        rintro _ ⟨⟩
        exact (cov.imp_right fun fst => fst.2 fixed (fst.1 ▸ isFixed)).symm

variable {action : Option Errno → Action}

theorem critical_answer {td : Nat}
    (ended : st.critical limits hc td times action = some (s', answer)) :
    (st.system.step limits (action (st.timeout hc times).1)).map (·.2) = some answer := by
  obtain ⟨_, isStep, same⟩ := map_eq_some_iff.mp ended
  cases same
  exact congrArg _ isStep

theorem Timely.critical {td : Nat} (timely : Timely st)
    (cov : waits → ∀ time ∈ times, Covers hc st.realtime time.1 time.2)
    (ended : st.critical limits hc td times action = some (s', answer))
    (sleeps : answer = .sleeping → waits) : Timely s' := by
  obtain ⟨_, _, same⟩ := map_eq_some_iff.mp ended
  cases same
  intro oth timed isTimed
  simp only [Function.update_apply] at isTimed
  split_ifs at isTimed with isThread isSleeping
  · exact (timeout_spec (cov (sleeps isSleeping))).1 timed isTimed
  · exact timely oth timed isTimed

/-- A round keeps what is known of the sleeps, and it times out only in time. -/
theorem Timely.round {td : Nat} (timely : Timely st)
    (cov : waits → ∀ time ∈ times, Covers hc st.realtime time.1 time.2)
    (round : ∀ timo, Round waits timo ((st.system.step limits (action timo)).map (·.2)))
    (ended : st.critical limits hc td times action = some (s', answer)) :
    Timely s' ∧ (answer = .failed .etimedout →
      ∃ time ∈ times, time.1.ns ≤ st.realtime.ns) := by
  have round := round (st.timeout hc times).1
  rw [critical_answer ended] at round
  refine ⟨timely.critical cov ended fun same => round.1 (congrArg some same), fun same => ?_⟩
  obtain ⟨isWait, isError⟩ := round.2 (congrArg some same)
  exact (timeout_spec (cov isWait)).2 isError

/-- A call that is to wait has its timeout covered. -/
def Covered (hc : Hardclock) (state : TimedSystem) (action : TimedAction) : Prop :=
  state.Waits action → ∀ time ∈ state.times action, Covers hc state.realtime time.1 time.2

def TimedSystem.idle (mq : Mqueue) (now : Timespec) : TimedSystem :=
  ⟨⟨mq, fun _ => none⟩, now, fun _ => none⟩

end Runs

section Instances

end Instances

end NetBSD.Kern.SysMqueue
