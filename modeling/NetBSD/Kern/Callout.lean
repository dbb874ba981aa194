import Mathlib.Data.BitVec
import Mathlib.Logic.Function.Basic
import NetBSD.Machine.Trace
import Mathlib.Algebra.Order.Ring.Nat
import Mathlib.Tactic.IntervalCases

/-!
Owns the callouts of `sys/kern/kern_timeout.c`: the timing wheels of every CPU,
`callout_schedule_locked`, `callout_stop`, and `callout_hardclock` followed by the
`callout_softclock` it asks for. A queue is the list of its callouts in order. The
functions that callouts run are not modelled, only which callouts run. `none` stands
for a failed assertion, and for a difference of two `int` that is none, which is undefined.
-/

namespace NetBSD.Kern.Timeout

open Function List BitVec

abbrev CalloutId := Nat

abbrev CpuId := Nat

structure Callout where
  callout_bound : Bool
  callout_pending : Bool
  callout_fired : Bool
  callout_invoking : Bool
  c_cpu : CpuId
  c_time : BitVec 32
deriving DecidableEq, Repr

structure CalloutCpu where
  cc_ticks : BitVec 32
  cc_todo : List CalloutId
  cc_wheel : Nat → List CalloutId

structure System where
  callouts : CalloutId → Callout
  cpus : CpuId → CalloutCpu

def maskwheel (wheel : Nat) (time : BitVec 32) : Nat :=
  ((time.sshiftRight (wheel * 8)) &&& 255).toNat

/-- `BUCKET`, as an index of `cc_wheel`. -/
def bucket (rel : Int) (abs : BitVec 32) : Nat :=
  if rel ≤ 65536 then
    if rel ≤ 256 then maskwheel 0 abs else maskwheel 1 abs + 256
  else
    if rel ≤ 16777216 then maskwheel 2 abs + 2 * 256 else maskwheel 3 abs + 3 * 256

def movebucket (cc : CalloutCpu) (wheel : Nat) (time : BitVec 32) : CalloutCpu :=
  let index := maskwheel wheel time + wheel * 256
  { cc with
    cc_todo := cc.cc_todo ++ cc.cc_wheel index
    cc_wheel := update cc.cc_wheel index [] }

def circqRemove (cc : CalloutCpu) (c : CalloutId) : CalloutCpu :=
  { cc with
    cc_todo := cc.cc_todo.erase c
    cc_wheel := fun index => (cc.cc_wheel index).erase c }

/-- `CIRCQ_INSERT` into the worklist. -/
def insertTodo (cc : CalloutCpu) (c : CalloutId) : CalloutCpu :=
  { cc with cc_todo := cc.cc_todo ++ [c] }

def insertWheel (cc : CalloutCpu) (c : CalloutId) (index : Nat) : CalloutCpu :=
  { cc with cc_wheel := update cc.cc_wheel index (cc.cc_wheel index ++ [c]) }

def System.setCallout (system : System) (c : CalloutId) (callout : Callout) : System :=
  { system with callouts := update system.callouts c callout }

def System.setCpu (system : System) (cpu : CpuId) (cc : CalloutCpu) : System :=
  { system with cpus := update system.cpus cpu cc }

/-- `callout_schedule_locked` on the CPU `curcpu`; `entered` is the answer of `mutex_tryenter` for
its lock. -/
def calloutScheduleLocked (system : System) (c : CalloutId) (toTicks : Fin (2 ^ 31))
    (curcpu : CpuId) (entered : Bool) : Option System :=
  let callout := { system.callouts c with callout_fired := false, callout_invoking := false }
  let occ := system.cpus callout.c_cpu
  if callout.callout_pending then
    let oldTime := callout.c_time
    let time := BitVec.ofNat 32 toTicks + occ.cc_ticks
    let after := system.setCallout c { callout with c_time := time }
    if ssubOverflow time oldTime then none
    else if (time - oldTime).toInt < 0 then
      some (after.setCpu callout.c_cpu (insertTodo (circqRemove occ c) c))
    else some after
  else if callout.callout_bound || decide (curcpu = callout.c_cpu) || !entered then
    some ((system.setCallout c { callout with
      c_time := BitVec.ofNat 32 toTicks + occ.cc_ticks
      callout_pending := true }).setCpu callout.c_cpu (insertTodo occ c))
  else
    let cc := system.cpus curcpu
    some ((system.setCallout c { callout with
      c_cpu := curcpu
      c_time := BitVec.ofNat 32 toTicks + cc.cc_ticks
      callout_pending := true }).setCpu curcpu (insertTodo cc c))

def calloutStop (system : System) (c : CalloutId) : System :=
  let callout := system.callouts c
  let stopped := system.setCallout c
    { callout with callout_pending := false, callout_fired := false }
  if callout.callout_pending then
    stopped.setCpu callout.c_cpu (circqRemove (system.cpus callout.c_cpu) c)
  else stopped

/-- `callout_hardclock`, up to the question whether there is work to do. -/
def calloutHardclock (cc : CalloutCpu) : CalloutCpu :=
  let ticks := cc.cc_ticks + 1
  let ticked := { cc with cc_ticks := ticks }
  let first := movebucket ticked 0 ticks
  if maskwheel 0 ticks = 0 then
    let second := movebucket first 1 ticks
    if maskwheel 1 ticks = 0 then
      let third := movebucket second 2 ticks
      if maskwheel 2 ticks = 0 then movebucket third 3 ticks else third
    else second
  else first

def softclockLoop (cpu : CpuId) : List CalloutId → System → Option (System × List CalloutId)
  | [], system => some (system, [])
  | c :: todo, system =>
    let callout := system.callouts c
    let cc := { system.cpus cpu with cc_todo := todo }
    if callout.c_cpu ≠ cpu ∨ callout.callout_pending = false ∨ callout.callout_fired = true then
      none
    else if ssubOverflow callout.c_time cc.cc_ticks then none
    else
      let delta := (callout.c_time - cc.cc_ticks).toInt
      if delta > 0 then
        softclockLoop cpu todo (system.setCpu cpu (insertWheel cc c (bucket delta callout.c_time)))
      else
        let running := (system.setCallout c { callout with
          callout_pending := false, callout_fired := true, callout_invoking := true }).setCpu cpu cc
        (softclockLoop cpu todo running).map fun (after, ran) => (after, c :: ran)

def calloutSoftclock (system : System) (cpu : CpuId) : Option (System × List CalloutId) :=
  softclockLoop cpu (system.cpus cpu).cc_todo system

inductive Event where
  | schedule (c : CalloutId) (toTicks : Fin (2 ^ 31)) (curcpu : CpuId) (entered : Bool)
  | stop (c : CalloutId)
  | tick (cpu : CpuId)
deriving DecidableEq, Repr

def step (system : System) : Event → Option (System × List CalloutId)
  | .schedule c toTicks curcpu entered =>
    (calloutScheduleLocked system c toTicks curcpu entered).map fun after => (after, [])
  | .stop c => some (calloutStop system c, [])
  | .tick cpu =>
    let ticked := system.setCpu cpu (calloutHardclock (system.cpus cpu))
    if (ticked.cpus cpu).cc_todo = [] then some (ticked, []) else calloutSoftclock ticked cpu

/-!
### Places on the wheels

Where a callout may wait on the timing wheels. Times are counted without
wrapping; the words the code stores are their low 32 bits. A callout due at some
time may wait in a bucket that is moved to the worklist at a time no later than
that, and the bucket chosen by `BUCKET` is one of these.
-/

/-- The queues of a CPU. -/
inductive Place where
  | todo
  | wheel (index : Nat)
deriving DecidableEq, Repr

def CalloutCpu.queue (cc : CalloutCpu) : Place → List CalloutId
  | .todo => cc.cc_todo
  | .wheel index => cc.cc_wheel index

/-- The bucket of a wheel that is moved to the worklist at the time `moment`. -/
def slotOf (wheel moment : Nat) : Nat := moment / 256 ^ wheel % 256 + wheel * 256

/-- A bucket that is moved after `now` and no later than `due`. -/
def Reaches (now due index : Nat) : Prop :=
  ∃ wheel moment, wheel < 4 ∧ index = slotOf wheel moment ∧ 256 ^ wheel ∣ moment ∧ now < moment ∧
    moment ≤ due

theorem maskwheel_ofNat (time : Nat) {wheel : Nat} (lt : wheel < 4) :
    maskwheel wheel (BitVec.ofNat 32 time) = time / 256 ^ wheel % 256 := by
  have low : (BitVec.ofNat 32 time).sshiftRight (wheel * 8) &&& 255 =
      (BitVec.ofNat 32 time) >>> (wheel * 8) &&& 255 := by
    ext i isLt
    have sml : (255 : BitVec 32)[i] = decide (i < 8) := by
      revert i
      decide
    rw [getElem_and, getElem_and, sml, getElem_sshiftRight,
      getElem_ushiftRight]
    by_cases inByte : i < 8
    · have : wheel * 8 + i < 32 := by omega
      simp [this]
    · simp [inByte]
  have power : 2 ^ (wheel * 8) = 256 ^ wheel := by rw [Nat.mul_comm, Nat.pow_mul]
  rw [maskwheel, low, toNat_and, toNat_ushiftRight, toNat_ofNat,
    show (255 : BitVec 32).toNat = 2 ^ 8 - 1 by rfl, Nat.and_two_pow_sub_one_eq_mod,
    Nat.shiftRight_eq_div_pow, power]
  interval_cases wheel <;> omega

/-- The signed difference of two words whose times are less than half the range apart. -/
theorem toInt_sub_ofNat {now due : Nat} (near : due < now + 2 ^ 31) (notBehind : now ≤ due) :
    (BitVec.ofNat 32 due - BitVec.ofNat 32 now).toInt = due - now := by
  rw [toInt_eq_toNat_cond, toNat_sub, toNat_ofNat, toNat_ofNat]
  split <;> omega

theorem reaches_bucket {now due : Nat} (later : now < due) :
    Reaches now due (bucket (due - now) (BitVec.ofNat 32 due)) := by
  unfold bucket
  split
  · split
    · refine ⟨0, due, by omega, ?_, by simp, later, le_refl _⟩
      simp [maskwheel_ofNat, slotOf]
    · refine ⟨1, due / 256 * 256, by omega, ?_, by simp, by omega, by omega⟩
      rw [maskwheel_ofNat due (by omega), slotOf]
      omega
  split
  · refine ⟨2, due / 65536 * 65536, by omega, ?_, by simp, by omega, by omega⟩
    rw [maskwheel_ofNat due (by omega), slotOf]
    omega
  · refine ⟨3, due / 16777216 * 16777216, by omega, ?_, by simp, by omega, by omega⟩
    rw [maskwheel_ofNat due (by omega), slotOf]
    omega

section Counted

/-- Every callout stands once on the queue that `place` says, and on no other. -/
def Counted (cpus : CpuId → CalloutCpu) (home : CalloutId → CpuId)
    (place : CalloutId → Option Place) : Prop :=
  ∀ c cpu spot, ((cpus cpu).queue spot).count c = if home c = cpu ∧ place c = some spot then 1 else 0

variable {cpus : CpuId → CalloutCpu} {home : CalloutId → CpuId} {plc : CalloutId → Option Place}
  {cpu : CpuId} {c : CalloutId}

theorem Counted.mem_iff (counted : Counted cpus home plc) {spot : Place} :
    c ∈ (cpus cpu).queue spot ↔ home c = cpu ∧ plc c = some spot := by
  rw [← count_pos_iff, counted c cpu spot]
  split <;> simp_all

theorem Counted.write (counted : Counted cpus home plc) {cc : CalloutCpu}
    {s' : CalloutId → Option Place}
    (tl : ∀ c, home c ≠ cpu → s' c = plc c)
    (wrote : ∀ c spot, (cc.queue spot).count c = if home c = cpu ∧ s' c = some spot then 1 else 0) :
    Counted (update cpus cpu cc) home s' := by
  intro c oth spot
  by_cases same : oth = cpu
  · subst same
    rw [update_self]
    exact wrote c spot
  · rw [update_of_ne same, counted c oth spot]
    by_cases hh : home c = oth
    · rw [tl c (by rw [hh]; exact same)]
    · simp [hh]

/-- What `MOVEBUCKET` does to the places. -/
def moved (home : CalloutId → CpuId) (place : CalloutId → Option Place) (cpu : CpuId) (index : Nat)
    (c : CalloutId) : Option Place :=
  if home c = cpu ∧ place c = some (.wheel index) then some .todo else place c

theorem moved_of_ne (home : CalloutId → CpuId) (cpu : CpuId) {index : Nat}
    (apart : plc c ≠ some (.wheel index)) :
    moved home plc cpu index c = plc c := by
  simp [moved, apart]

theorem moved_of_eq {index : Nat} (hh : home c = cpu)
    (at' : plc c = some (.wheel index)) : moved home plc cpu index c = some .todo := by
  simp [moved, hh, at']

theorem moved_todo {index : Nat} (isTodo : plc c = some .todo) :
    moved home plc cpu index c = some .todo := by
  simp [moved, isTodo]

theorem slotOf_ne {wheel oth : Nat} (apart : wheel ≠ oth) (moment : Nat) :
    slotOf wheel moment ≠ slotOf oth moment := by
  unfold slotOf
  omega

section

variable (counted : Counted cpus home plc)

include counted

theorem Counted.movebucket (cpu : CpuId) (wheel : Nat) (time : BitVec 32) :
    Counted (update cpus cpu (movebucket (cpus cpu) wheel time)) home
      (moved home plc cpu (maskwheel wheel time + wheel * 256)) := by
  apply counted.write
  · intro c apart
    simp [moved, apart]
  intro c spot
  have onTodo := counted c cpu .todo
  have onWheel := fun index => counted c cpu (.wheel index)
  simp only [CalloutCpu.queue] at onTodo onWheel
  cases spot with
  | todo =>
    simp only [CalloutCpu.queue, Timeout.movebucket, moved]
    grind
  | wheel index =>
    by_cases same : index = maskwheel wheel time + wheel * 256
    · subst same
      simp only [CalloutCpu.queue, Timeout.movebucket, moved]
      grind
    · simp only [CalloutCpu.queue, Timeout.movebucket, moved]
      grind

theorem Counted.insertTodo (cpu : CpuId) (hn : plc c = none) :
    Counted (update cpus cpu (insertTodo (cpus cpu) c)) (update home c cpu)
      (update plc c (some .todo)) := by
  intro oth otherCpu spot
  have prev := counted oth otherCpu spot
  by_cases sameCpu : otherCpu = cpu
  · subst sameCpu
    rw [update_self]
    cases spot with
    | todo =>
      simp only [CalloutCpu.queue, Timeout.insertTodo]
        at prev ⊢
      grind [update]
    | wheel index =>
      simp only [CalloutCpu.queue, Timeout.insertTodo] at prev ⊢
      grind [update]
  · rw [update_of_ne sameCpu]
    grind [update]

theorem Counted.remove (hh : home c = cpu) :
    Counted (update cpus cpu (circqRemove (cpus cpu) c)) home
      (update plc c none) := by
  apply counted.write
  · intro oth apart
    rw [update_of_ne]
    rintro rfl
    exact apart hh
  intro oth spot
  have prev := counted oth cpu spot
  by_cases same : oth = c
  · subst same
    cases spot with
    | todo | wheel =>
      simp only [CalloutCpu.queue, circqRemove]
        at prev ⊢
      grind
  · rw [update_of_ne same, ← prev]
    cases spot with
    | todo | wheel => simp [CalloutCpu.queue, circqRemove, count_erase_of_ne same]

theorem Counted.requeue (hh : home c = cpu) :
    Counted (update cpus cpu (Timeout.insertTodo (circqRemove (cpus cpu) c) c)) home
      (update plc c (some .todo)) := by
  have gone := counted.remove hh
  have insd := gone.insertTodo (c := c) cpu (update_self c none plc)
  rw [update_self, update_idem, update_idem, ← hh,
    update_eq_self, hh] at insd
  exact insd

end

end Counted

end NetBSD.Kern.Timeout
