import NetBSD.Kern.Callout

/-!
Owns the exactness of the timing wheels: a clock that counts without wrapping and
a due time for each callout say which callouts every tick runs, and the wheels run
exactly these.
-/

namespace NetBSD.Kern.Timeout

open NetBSD.Machine Function Option BitVec CalloutCpu

/-- The callouts that a tick looks at: those on the worklist and in the buckets that it moves. -/
def examined (cc : CalloutCpu) : List CalloutId :=
  let ticks := cc.cc_ticks + 1
  let wheels := (List.range 4).filter fun wheel =>
    (List.range wheel).all fun lower => maskwheel lower ticks = 0
  cc.cc_todo ++ wheels.flatMap fun wheel => cc.cc_wheel (maskwheel wheel ticks + wheel * 256)

/-- No difference of times that a step takes leaves `int`: the one from the old time of a pending
callout to its new one, and those from the new time of a CPU to the callouts that its tick looks
at. -/
def Defined (system : System) : Event → Prop
  | .schedule c toTicks _ _ => (system.callouts c).callout_pending = true →
      ssubOverflow (BitVec.ofNat 32 toTicks + (system.cpus (system.callouts c).c_cpu).cc_ticks)
        (system.callouts c).c_time = false
  | .stop _ => True
  | .tick cpu => ∀ c ∈ examined (system.cpus cpu),
      ssubOverflow (system.callouts c).c_time ((system.cpus cpu).cc_ticks + 1) = false

instance decidableDefined (system : System) : (event : Event) → Decidable (Defined system event)
  | .schedule _ _ _ _ => inferInstanceAs (Decidable (_ → _))
  | .stop _ => inferInstanceAs (Decidable True)
  | .tick _ => inferInstanceAs (Decidable (∀ c ∈ _, _ = false))

/-- What callouts are for: the time of every CPU, the CPU of every callout and the time at which it
is due there. -/
structure Schedule where
  clock : CpuId → Nat
  home : CalloutId → CpuId
  due : CalloutId → Option Nat

def Schedule.runs (ideal : Schedule) (cpu : CpuId) (now : Nat) (c : CalloutId) : Prop :=
  ideal.home c = cpu ∧ ideal.due c = some now

instance (ideal : Schedule) (cpu : CpuId) (now : Nat) (c : CalloutId) :
    Decidable (ideal.runs cpu now c) :=
  inferInstanceAs (Decidable (_ ∧ _))

/-- The callouts due are taken off. -/
def Schedule.run (ideal : Schedule) (cpu : CpuId) (now : Nat) : Schedule :=
  { ideal with due := fun c => if ideal.runs cpu now c then none else ideal.due c }

def Schedule.target (ideal : Schedule) (bound : CalloutId → Bool) (c : CalloutId) (curcpu : CpuId)
    (entered : Bool) : CpuId :=
  if (ideal.due c).isSome || (bound c || decide (curcpu = ideal.home c) || !entered) then
    ideal.home c
  else curcpu

/-- A callout is due `max 1 to_ticks` after the present time of its CPU. -/
def Schedule.step (bound : CalloutId → Bool) (ideal : Schedule) :
    Event → Schedule × (CalloutId → Prop)
  | .schedule c toTicks curcpu entered =>
    let cpu := ideal.target bound c curcpu entered
    ({ ideal with
        home := update ideal.home c cpu
        due := update ideal.due c (some (ideal.clock cpu + max 1 (toTicks : Nat))) },
      fun _ => False)
  | .stop c => ({ ideal with due := update ideal.due c none }, fun _ => False)
  | .tick cpu =>
    let now := ideal.clock cpu + 1
    ({ ideal with clock := update ideal.clock cpu now }.run cpu now, ideal.runs cpu now)

/-- The word stored for a callout and the queue it is on agree with its due time. A callout
scheduled with no ticks at all is one tick late on the worklist; `ahead` is the number of ticks the
worklist still waits for. -/
def Agrees (now ahead due : Nat) (time : BitVec 32) : Place → Prop
  | .todo => time = BitVec.ofNat 32 due ∨ (time + 1 = BitVec.ofNat 32 due ∧ due ≤ now + ahead)
  | .wheel index => time = BitVec.ofNat 32 due ∧ Reaches now due index

/-- The queues represent the schedule. `ticked` is the CPU whose clock has advanced and whose
worklist is not empty yet. -/
structure Mirrors (bound : CalloutId → Bool) (ticked : Option CpuId) (system : System)
    (ideal : Schedule) (place : CalloutId → Option Place) : Prop where
  ticks : ∀ cpu, (system.cpus cpu).cc_ticks = BitVec.ofNat 32 (ideal.clock cpu)
  home : ∀ c, (system.callouts c).c_cpu = ideal.home c
  bound : ∀ c, (system.callouts c).callout_bound = bound c
  pending : ∀ c, (system.callouts c).callout_pending = (ideal.due c).isSome
  fired : ∀ c, ideal.due c ≠ none → (system.callouts c).callout_fired = false
  soon : ∀ c due, ideal.due c = some due → ideal.clock (ideal.home c) ≤ due ∧
    due < ideal.clock (ideal.home c) + 2 ^ 31 ∧
    (due = ideal.clock (ideal.home c) → ticked = some (ideal.home c) ∧ place c = some .todo)
  counted : Counted system.cpus ideal.home place
  placed : ∀ c, (place c).isSome = (ideal.due c).isSome
  agrees : ∀ c due spot, ideal.due c = some due → place c = some spot →
    Agrees (ideal.clock (ideal.home c)) (if ticked = some (ideal.home c) then 0 else 1) due
      (system.callouts c).c_time spot

/-- A system in which no callout was scheduled yet. -/
def System.Fresh (system : System) : Prop :=
  (∀ c, (system.callouts c).callout_pending = false) ∧
    ∀ cpu, (system.cpus cpu).cc_todo = [] ∧ ∀ index, (system.cpus cpu).cc_wheel index = []

def System.schedule (system : System) : Schedule where
  clock := fun cpu => (system.cpus cpu).cc_ticks.toNat
  home := fun c => (system.callouts c).c_cpu
  due := fun _ => none

def System.bound (system : System) (c : CalloutId) : Bool := (system.callouts c).callout_bound

variable {sys : System}

theorem mirrors_schedule (fresh : sys.Fresh) :
    Mirrors sys.bound none sys sys.schedule (fun _ => none) where
  ticks := by simp [System.schedule]
  home := by simp [System.schedule]
  bound := by simp [System.bound]
  pending := by simp [System.schedule, fresh.1]
  fired := by simp [System.schedule]
  soon := by simp [System.schedule]
  counted := by
    intro c cpu spot
    cases spot <;> simp [queue, fresh.2]
  placed := by simp [System.schedule]
  agrees := by simp [System.schedule]

variable {due : Nat}

section Hardclock

variable {bound : CalloutId → Bool} {sys : System} {ideal : Schedule}
  {plc : CalloutId → Option Place} {cpu : CpuId}

def ticked (home : CalloutId → CpuId) (place : CalloutId → Option Place) (cpu : CpuId)
    (now : Nat) : CalloutId → Option Place :=
  let first := moved home place cpu (slotOf 0 now)
  if now % 256 = 0 then
    let second := moved home first cpu (slotOf 1 now)
    if now / 256 % 256 = 0 then
      let third := moved home second cpu (slotOf 2 now)
      if now / 65536 % 256 = 0 then moved home third cpu (slotOf 3 now) else third
    else second
  else first

theorem counted_calloutHardclock {cpus : CpuId → CalloutCpu} {home : CalloutId → CpuId} {now : Nat}
    (cnt : Counted cpus home plc) (ticks : (cpus cpu).cc_ticks = BitVec.ofNat 32 now) :
    Counted (update cpus cpu (calloutHardclock (cpus cpu))) home
      (ticked home plc cpu (now + 1)) := by
  have isNow : (cpus cpu).cc_ticks + 1 = BitVec.ofNat 32 (now + 1) := by
    rw [ticks, ofNat_add]
    rfl
  have beg : Counted (update cpus cpu
      { cpus cpu with cc_ticks := BitVec.ofNat 32 (now + 1) }) home plc := by
    apply cnt.write (fun _ _ => rfl)
    intro c spot
    have := cnt c cpu spot
    cases spot <;> exact this
  have mask : ∀ wheel, wheel < 4 →
      maskwheel wheel (BitVec.ofNat 32 (now + 1)) + wheel * 256 = slotOf wheel (now + 1) := by
    intro wheel lt
    rw [maskwheel_ofNat _ lt, slotOf]
  have fst := beg.movebucket cpu 0 (BitVec.ofNat 32 (now + 1))
  rw [mask 0 (by omega), update_idem, update_self] at fst
  have snd := fst.movebucket cpu 1 (BitVec.ofNat 32 (now + 1))
  rw [mask 1 (by omega), update_idem, update_self] at snd
  have third := snd.movebucket cpu 2 (BitVec.ofNat 32 (now + 1))
  rw [mask 2 (by omega), update_idem, update_self] at third
  have fourth := third.movebucket cpu 3 (BitVec.ofNat 32 (now + 1))
  rw [mask 3 (by omega), update_idem, update_self] at fourth
  unfold calloutHardclock ticked
  simp only [isNow, maskwheel_ofNat _ (show 0 < 4 by omega), maskwheel_ofNat _ (show 1 < 4 by omega),
    maskwheel_ofNat _ (show 2 < 4 by omega), Nat.pow_zero, Nat.div_one, Nat.pow_one, Nat.reducePow]
  split
  · split
    · split
      · exact fourth
      · exact third
    · exact snd
  · exact fst

/-- A callout either stays where it is, in a bucket that is moved later, or gets to the worklist. -/
theorem ticked_cases (home : CalloutId → CpuId) (plc : CalloutId → Option Place) (cpu : CpuId)
    (now : Nat) (c : CalloutId) :
    (ticked home plc cpu now c = plc c ∧ (home c = cpu → ∀ wheel < 4, 256 ^ wheel ∣ now →
      plc c ≠ some (.wheel (slotOf wheel now)))) ∨
    (home c = cpu ∧ (∃ index, plc c = some (.wheel index)) ∧
      ticked home plc cpu now c = some .todo) := by
  by_cases hh : home c = cpu
  · by_cases hit : ∃ wheel < 4, 256 ^ wheel ∣ now ∧ plc c = some (.wheel (slotOf wheel now))
    · right
      obtain ⟨wheel, lt, dvd, at'⟩ := hit
      refine ⟨hh, ⟨_, at'⟩, ?_⟩
      have apart : ∀ oth, wheel ≠ oth → plc c ≠ some (.wheel (slotOf oth now)) := by
        intro oth diff same
        rw [at'] at same
        exact slotOf_ne diff now (Place.wheel.inj (some.inj same))
      unfold ticked
      interval_cases wheel
      · have fst := moved_of_eq hh at'
        split
        · split
          · split
            · exact moved_todo (moved_todo (moved_todo fst))
            · exact moved_todo (moved_todo fst)
          · exact moved_todo fst
        · exact fst
      · have fst := moved_of_ne home cpu (apart 0 (by omega))
        have snd := moved_of_eq hh (fst.trans at')
        rw [if_pos (show now % 256 = 0 by omega)]
        split
        · split
          · exact moved_todo (moved_todo snd)
          · exact moved_todo snd
        · exact snd
      · have fst := moved_of_ne home cpu (apart 0 (by omega))
        have snd := moved_of_ne home cpu (fst.trans_ne (apart 1 (by omega)))
        have third := moved_of_eq hh (snd.trans (fst.trans at'))
        rw [if_pos (show now % 256 = 0 by omega), if_pos (show now / 256 % 256 = 0 by omega)]
        split
        · exact moved_todo third
        · exact third
      · have fst := moved_of_ne home cpu (apart 0 (by omega))
        have snd := moved_of_ne home cpu (fst.trans_ne (apart 1 (by omega)))
        have third := moved_of_ne home cpu ((snd.trans fst).trans_ne (apart 2 (by omega)))
        rw [if_pos (show now % 256 = 0 by omega), if_pos (show now / 256 % 256 = 0 by omega),
          if_pos (show now / 65536 % 256 = 0 by omega)]
        exact moved_of_eq hh (third.trans (snd.trans (fst.trans at')))
    · left
      have misses : ∀ wheel < 4, 256 ^ wheel ∣ now → plc c ≠ some (.wheel (slotOf wheel now)) :=
        fun wheel lt dvd at' => hit ⟨wheel, lt, dvd, at'⟩
      refine ⟨?_, fun _ => misses⟩
      have zero := misses 0 (by omega) (by simp)
      by_cases low : now % 256 = 0
      · have one := misses 1 (by omega) (by omega)
        by_cases middle : now / 256 % 256 = 0
        · have two := misses 2 (by omega) (by omega)
          by_cases high : now / 65536 % 256 = 0
          · have three := misses 3 (by omega) (by omega)
            simp [ticked, moved, low, middle, high, zero, one, two, three]
          · simp [ticked, moved, low, middle, high, zero, one, two]
        · simp [ticked, moved, low, middle, zero, one]
      · simp [ticked, moved, low, zero]
  · left
    refine ⟨?_, fun same => (hh same).elim⟩
    have stays : ∀ (places : CalloutId → Option Place) (index : Nat),
        moved home places cpu index c = places c := by
      simp [moved, hh]
    unfold ticked
    split
    · split
      · split <;> simp [stays]
      · simp [stays]
    · simp [stays]

theorem Mirrors.exists_place {ticked : Option CpuId} {c : CalloutId}
    (mirrors : Mirrors bound ticked sys ideal plc) (isDue : ideal.due c = some due) :
    ∃ spot, plc c = some spot := by
  apply isSome_iff_exists.mp
  rw [mirrors.placed c, isDue]
  rfl

theorem calloutHardclock_ticks (cc : CalloutCpu) :
    (calloutHardclock cc).cc_ticks = cc.cc_ticks + 1 := by
  unfold calloutHardclock movebucket
  simp only
  split
  · split
    · split <;> rfl
    · rfl
  · rfl

/-- A tick puts the callouts of the slots it reaches on the todo list. -/
theorem Mirrors.hardclock (mirrors : Mirrors bound none sys ideal plc) (cpu : CpuId) :
    Mirrors bound (some cpu) (sys.setCpu cpu (calloutHardclock (sys.cpus cpu)))
      { ideal with clock := update ideal.clock cpu (ideal.clock cpu + 1) }
      (ticked ideal.home plc cpu (ideal.clock cpu + 1)) := by
  have cnt := counted_calloutHardclock mirrors.counted (mirrors.ticks cpu)
  have cases_at := ticked_cases ideal.home plc cpu (ideal.clock cpu + 1)
  refine ⟨?_, mirrors.home, mirrors.bound, mirrors.pending, mirrors.fired, ?_, cnt, ?_, ?_⟩
  · intro oth
    by_cases same : oth = cpu
    · subst same
      simp only [System.setCpu, update_self, calloutHardclock_ticks, mirrors.ticks, ofNat_add]
      rfl
    · simpa [System.setCpu, same] using mirrors.ticks oth
  · intro c due isDue
    obtain ⟨atLeast, near, isNow⟩ := mirrors.soon c due isDue
    by_cases hh : ideal.home c = cpu
    · subst hh
      simp only [update_self]
      have later : due ≠ ideal.clock (ideal.home c) := fun same => by simpa using (isNow same).1
      refine ⟨by omega, by omega, fun same => ⟨trivial, ?_⟩⟩
      obtain ⟨spot, at'⟩ := mirrors.exists_place isDue
      have agree := mirrors.agrees c due spot isDue at'
      rcases cases_at c with ⟨stays, misses⟩ | ⟨_, _, isTodo⟩
      · rw [stays]
        cases spot with
        | todo => exact at'
        | wheel index =>
          obtain ⟨_, wheel, moment, lt, idx, dvd, s', prev⟩ := agree
          obtain rfl : moment = ideal.clock (ideal.home c) + 1 := by omega
          exact (misses rfl wheel lt dvd (idx ▸ at')).elim
      · exact isTodo
    · simp only [update_of_ne hh]
      exact ⟨atLeast, near, fun same => absurd (isNow same).1 (by simp)⟩
  · intro c
    rcases cases_at c with ⟨stays, _⟩ | ⟨_, ⟨index, at'⟩, isTodo⟩
    · rw [stays]
      exact mirrors.placed c
    · rw [isTodo, ← mirrors.placed c, at']
      rfl
  · intro c due spot isDue at'
    by_cases hh : ideal.home c = cpu
    · subst hh
      simp only [update_self]
      rcases cases_at c with ⟨stays, misses⟩ | ⟨_, ⟨index, wasPlace⟩, isTodo⟩
      · rw [stays] at at'
        have agree := mirrors.agrees c due spot isDue at'
        cases spot with
        | todo =>
          rcases agree with exact_ | ⟨late, bnd⟩
          · exact Or.inl exact_
          · exact Or.inr ⟨late, by simpa using bnd⟩
        | wheel index =>
          obtain ⟨isTime, wheel, moment, lt, idx, dvd, s', prev⟩ := agree
          refine ⟨isTime, wheel, moment, lt, idx, dvd, ?_, prev⟩
          have : moment ≠ ideal.clock (ideal.home c) + 1 := by
            rintro rfl
            exact misses rfl wheel lt dvd (idx ▸ at')
          omega
      · obtain rfl : spot = .todo := by simpa [isTodo, eq_comm] using at'
        have agree := mirrors.agrees c due (.wheel index) isDue wasPlace
        exact Or.inl agree.1
    · have stays : ticked ideal.home plc cpu (ideal.clock cpu + 1) c = plc c := by
        rcases cases_at c with ⟨stays, _⟩ | ⟨same, _⟩
        · exact stays
        · exact (hh same).elim
      rw [stays] at at'
      have agree := mirrors.agrees c due spot isDue at'
      have notTicked : ¬ some cpu = some (ideal.home c) := by simpa [eq_comm] using hh
      simp only [update_of_ne hh, notTicked]
      exact agree

end Hardclock

section Softclock

variable {bound : CalloutId → Bool} {sys : System} {ideal : Schedule}
  {plc : CalloutId → Option Place} {cpu : CpuId} {c : CalloutId} {todo : List CalloutId}

section

variable (mirrors : Mirrors bound (some cpu) sys ideal plc)

include mirrors

theorem Mirrors.head (isTodo : (sys.cpus cpu).cc_todo = c :: todo) :
    ideal.home c = cpu ∧ plc c = some .todo ∧ ∃ due, ideal.due c = some due ∧
      (due = ideal.clock cpu ∧ ((sys.callouts c).c_time - (sys.cpus cpu).cc_ticks).toInt ≤ 0 ∨
      ideal.clock cpu < due ∧ (sys.callouts c).c_time = BitVec.ofNat 32 due ∧
        ((sys.callouts c).c_time - (sys.cpus cpu).cc_ticks).toInt = due - ideal.clock cpu) := by
  have isIn : c ∈ (sys.cpus cpu).queue .todo := by simp [queue, isTodo]
  obtain ⟨rfl, at'⟩ := mirrors.counted.mem_iff.mp isIn
  refine ⟨rfl, at', ?_⟩
  have hsome : (ideal.due c).isSome = true := by rw [← mirrors.placed c, at']; rfl
  obtain ⟨due, isDue⟩ := isSome_iff_exists.mp hsome
  obtain ⟨atLeast, near, _⟩ := mirrors.soon c due isDue
  have agree := mirrors.agrees c due .todo isDue at'
  refine ⟨due, isDue, ?_⟩
  rw [mirrors.ticks]
  simp only [↓reduceIte, Agrees] at agree
  rcases agree with onTime | ⟨late, bnd⟩
  · rw [onTime, toInt_sub_ofNat near atLeast]
    by_cases isNow : due = ideal.clock (ideal.home c)
    · exact Or.inl ⟨isNow, by omega⟩
    · exact Or.inr ⟨by omega, rfl, rfl⟩
  left
  obtain rfl : due = ideal.clock (ideal.home c) := by omega
  refine ⟨rfl, ?_⟩
  have tail : (sys.callouts c).c_time - BitVec.ofNat 32 (ideal.clock (ideal.home c)) = -1 := by
    bv_omega
  rw [tail]
  decide

/-- A callout not yet due goes back from the todo list to the wheel. -/
theorem Mirrors.insertWheel (isTodo : (sys.cpus cpu).cc_todo = c :: todo)
    (isDue : ideal.due c = some due) (hh : ideal.home c = cpu) (at' : plc c = some .todo)
    (later : ideal.clock cpu < due) (isTime : (sys.callouts c).c_time = BitVec.ofNat 32 due)
    {index : Nat} (path : Reaches (ideal.clock cpu) due index) : Mirrors bound (some cpu)
      (sys.setCpu cpu (insertWheel { sys.cpus cpu with cc_todo := todo } c index)) ideal
      (update plc c (some (.wheel index))) := by
  refine ⟨?_, mirrors.home, mirrors.bound, mirrors.pending, mirrors.fired, ?_, ?_, ?_, ?_⟩
  · intro oth
    by_cases same : oth = cpu
    · subst same
      simpa [System.setCpu, Timeout.insertWheel] using mirrors.ticks oth
    · simpa [System.setCpu, same] using mirrors.ticks oth
  · intro oth due' isDue'
    obtain ⟨atLeast, near, isNow⟩ := mirrors.soon oth due' isDue'
    refine ⟨atLeast, near, fun same => ⟨(isNow same).1, ?_⟩⟩
    have apart : oth ≠ c := by
      rintro rfl
      obtain rfl := some.inj (isDue.symm.trans isDue')
      rw [hh] at same
      omega
    rw [update_of_ne apart]
    exact (isNow same).2
  · apply mirrors.counted.write
    · intro oth apart
      rw [update_of_ne]
      rintro rfl
      exact apart hh
    intro oth spot
    have onTodo := mirrors.counted oth cpu .todo
    have onWheel := fun i => mirrors.counted oth cpu (.wheel i)
    simp only [queue] at onTodo onWheel
    cases spot with
    | todo =>
      simp only [queue, Timeout.insertWheel]
      grind [update]
    | wheel i =>
      by_cases same : i = index
      · subst same
        simp only [queue, Timeout.insertWheel, update_self,
          List.count_append, List.count_singleton, onWheel]
        grind [update]
      · simp only [queue, Timeout.insertWheel]
        grind [update]
  · intro oth
    by_cases same : oth = c
    · subst same
      rw [update_self, isDue]
      rfl
    · rw [update_of_ne same]
      exact mirrors.placed oth
  · intro oth due' spot isDue' isPlace'
    by_cases same : oth = c
    · subst same
      rw [update_self] at isPlace'
      obtain rfl := some.inj isPlace'
      obtain rfl := some.inj (isDue.symm.trans isDue')
      rw [hh]
      exact ⟨isTime, path⟩
    · rw [update_of_ne same] at isPlace'
      exact mirrors.agrees oth due' spot isDue' isPlace'

/-- The head of the todo list runs, and is pending no longer. -/
theorem Mirrors.runHead (isTodo : (sys.cpus cpu).cc_todo = c :: todo)
    (hh : ideal.home c = cpu) (at' : plc c = some .todo) :
    Mirrors bound (some cpu) ((sys.setCallout c { sys.callouts c with
        callout_pending := false, callout_fired := true, callout_invoking := true }).setCpu cpu
          { sys.cpus cpu with cc_todo := todo })
      { ideal with due := update ideal.due c none } (update plc c none) := by
  refine ⟨?_, ?_, ?_, ?_, ?_, ?_, ?_, ?_, ?_⟩
  · intro oth
    by_cases same : oth = cpu
    · subst same
      simpa [System.setCpu] using mirrors.ticks oth
    · simpa [System.setCpu, System.setCallout, same] using mirrors.ticks oth
  · intro oth
    by_cases same : oth = c
    · subst same
      simpa [System.setCpu, System.setCallout] using mirrors.home oth
    · simpa [System.setCpu, System.setCallout, same] using mirrors.home oth
  · intro oth
    by_cases same : oth = c
    · subst same
      simpa [System.setCpu, System.setCallout] using mirrors.bound oth
    · simpa [System.setCpu, System.setCallout, same] using mirrors.bound oth
  · intro oth
    by_cases same : oth = c
    · subst same
      simp [System.setCpu, System.setCallout]
    · simpa [System.setCpu, System.setCallout, same] using mirrors.pending oth
  · intro oth isDue
    have apart : oth ≠ c := by
      rintro rfl
      simp at isDue
    simp only [update_of_ne apart] at isDue
    simpa [System.setCpu, System.setCallout, apart] using mirrors.fired oth isDue
  · intro oth due isDue
    have apart : oth ≠ c := by
      rintro rfl
      simp at isDue
    simp only [update_of_ne apart] at isDue ⊢
    exact mirrors.soon oth due isDue
  · apply mirrors.counted.write
    · intro oth apart
      rw [update_of_ne]
      rintro rfl
      exact apart hh
    intro oth spot
    have onTodo := mirrors.counted oth cpu .todo
    have onWheel := fun i => mirrors.counted oth cpu (.wheel i)
    simp only [queue] at onTodo onWheel ⊢
    cases spot with
    | todo => grind [update]
    | wheel i =>
      grind [update]
  · intro oth
    by_cases same : oth = c
    · subst same
      simp
    · simpa [same] using mirrors.placed oth
  · intro oth due spot isDue isPlace'
    have apart : oth ≠ c := by
      rintro rfl
      simp at isDue
    simp only [update_of_ne apart] at isDue isPlace'
    simpa [System.setCpu, System.setCallout, apart] using
      mirrors.agrees oth due spot isDue isPlace'

theorem Mirrors.settle (empty : (sys.cpus cpu).cc_todo = []) :
    (∀ c, ¬ ideal.runs cpu (ideal.clock cpu) c) ∧ Mirrors bound none sys ideal plc := by
  have notTodo : ∀ c, ideal.home c = cpu → plc c ≠ some .todo := by
    intro c hh at'
    have isIn := mirrors.counted.mem_iff.mpr ⟨hh, at'⟩
    simp [queue, empty] at isIn
  constructor
  · rintro c ⟨hh, isDue⟩
    obtain ⟨_, _, isNow⟩ := mirrors.soon c _ isDue
    exact notTodo c hh (isNow (by rw [hh])).2
  refine { mirrors with soon := ?_, agrees := ?_ }
  · intro c due isDue
    obtain ⟨atLeast, near, isNow⟩ := mirrors.soon c due isDue
    refine ⟨atLeast, near, fun same => ?_⟩
    obtain ⟨isTicked, at'⟩ := isNow same
    exact (notTodo c (some.inj isTicked).symm at').elim
  intro c due spot isDue at'
  have agrees := mirrors.agrees c due spot isDue at'
  by_cases hh : ideal.home c = cpu
  · cases spot with
    | todo => exact (notTodo c hh at').elim
    | wheel index => exact agrees
  · have notTicked : ¬ some cpu = some (ideal.home c) := by simpa [eq_comm] using hh
    simp only [notTicked] at agrees
    exact agrees

/-- `callout_softclock` runs exactly the callouts that are due now, each of them once. -/
theorem Mirrors.softclock (isTodo : (sys.cpus cpu).cc_todo = todo)
    (defined : ∀ c ∈ todo,
      ssubOverflow (sys.callouts c).c_time (sys.cpus cpu).cc_ticks = false) :
    ∃ s' ran places, softclockLoop cpu todo sys = some (s', ran) ∧
      Mirrors bound none s' (ideal.run cpu (ideal.clock cpu)) places ∧ ran.Nodup ∧
      ∀ c, c ∈ ran ↔ ideal.runs cpu (ideal.clock cpu) c := by
  induction todo generalizing sys ideal plc with
  | nil =>
    obtain ⟨no, done⟩ := mirrors.settle isTodo
    have same : ideal.run cpu (ideal.clock cpu) = ideal := by
      unfold Schedule.run
      simp [no]
    exact ⟨sys, [], plc, rfl, by rwa [same], by simp, by simpa using no⟩
  | cons c todo ih =>
    obtain ⟨isDefined, definedTail⟩ := List.forall_mem_cons.mp defined
    obtain ⟨hh, at', due, isDue, now | ⟨later, isTime, delta⟩⟩ := mirrors.head isTodo
    · obtain ⟨rfl, notLater⟩ := now
      have running := mirrors.runHead isTodo hh at'
      obtain ⟨s', ran, places, loop, got, nodup, mem⟩ :=
        ih running (by simp [System.setCpu]) (by
          intro oth isIn
          have isSame : (update sys.callouts c { sys.callouts c with
              callout_pending := false, callout_fired := true, callout_invoking := true }
              oth).c_time = (sys.callouts oth).c_time := by
            by_cases same : oth = c
            · rw [same, update_self]
            · rw [update_of_ne same]
          simp only [System.setCpu, System.setCallout, update_self, isSame]
          exact definedTail oth isIn)
      have same : Schedule.run { ideal with due := update ideal.due c none } cpu
          (ideal.clock cpu) = ideal.run cpu (ideal.clock cpu) := by
        unfold Schedule.run Schedule.runs
        simp only [Schedule.mk.injEq, true_and]
        funext oth
        by_cases isCon : oth = c
        · subst isCon
          simp [hh, isDue]
        · simp only [update_of_ne isCon]
          congr
      have notAgain : c ∉ ran := by
        rw [mem]
        simp [Schedule.runs]
      refine ⟨s', c :: ran, places, ?_, same ▸ got, ?_, ?_⟩
      · have alive : ¬ ((sys.callouts c).c_cpu ≠ cpu ∨
            (sys.callouts c).callout_pending = false ∨
            (sys.callouts c).callout_fired = true) := by
          rw [mirrors.home, hh, mirrors.pending, isDue, mirrors.fired c (by simp [isDue])]
          simp
        simp only [softclockLoop, alive, isDefined, ↓reduceIte, Bool.false_eq_true,
          not_lt.mpr notLater, loop, map_some]
      · exact List.nodup_cons.mpr ⟨notAgain, nodup⟩
      · intro oth
        rw [List.mem_cons, mem]
        by_cases isCon : oth = c
        · subst isCon
          simp [Schedule.runs, hh, isDue]
        · simp [Schedule.runs, isCon]
    · have path := reaches_bucket later
      have wait := mirrors.insertWheel isTodo isDue hh at' later isTime path
      obtain ⟨s', ran, places, loop, got, nodup, mem⟩ :=
        ih wait (by simp [System.setCpu, Timeout.insertWheel])
          (by simpa [System.setCpu, Timeout.insertWheel] using definedTail)
      refine ⟨s', ran, places, ?_, got, nodup, mem⟩
      have alive : ¬ ((sys.callouts c).c_cpu ≠ cpu ∨
          (sys.callouts c).callout_pending = false ∨
          (sys.callouts c).callout_fired = true) := by
        rw [mirrors.home, hh, mirrors.pending, isDue, mirrors.fired c (by simp [isDue])]
        simp
      have pos : (0 : Int) < due - ideal.clock cpu := by omega
      rw [isTime] at delta isDefined
      simp only [softclockLoop, alive, isTime, isDefined, Bool.false_eq_true, ↓reduceIte, delta, pos]
      exact loop

end

theorem mem_examined {cc : CalloutCpu} (isIn : c ∈ (calloutHardclock cc).cc_todo) :
    c ∈ examined cc := by
  have up : ∀ (moved : CalloutCpu) (wheel : Nat), wheel < 4 →
      (∀ lower < wheel, maskwheel lower (cc.cc_ticks + 1) = 0) →
      (c ∈ moved.cc_todo → c ∈ examined cc) ∧
        (∀ index, c ∈ moved.cc_wheel index → c ∈ cc.cc_wheel index) →
      (c ∈ (movebucket moved wheel (cc.cc_ticks + 1)).cc_todo → c ∈ examined cc) ∧
        ∀ index, c ∈ (movebucket moved wheel (cc.cc_ticks + 1)).cc_wheel index →
          c ∈ cc.cc_wheel index := by
    rintro moved wheel isWheel zeros ⟨onTodo, onWheel⟩
    unfold movebucket
    constructor
    · intro isIn
      rcases List.mem_append.mp isIn with isTodo | isMoved
      · exact onTodo isTodo
      refine List.mem_append_right _ (List.mem_flatMap.mpr ⟨wheel, List.mem_filter.mpr
        ⟨List.mem_range.mpr isWheel, ?_⟩, onWheel _ isMoved⟩)
      exact List.all_eq_true.mpr fun lower isLower =>
        decide_eq_true (zeros lower (List.mem_range.mp isLower))
    · intro index isIn
      by_cases same : index = maskwheel wheel (cc.cc_ticks + 1) + wheel * 256
      · simp [same] at isIn
      · simp only [update_of_ne same] at isIn
        exact onWheel index isIn
  have fst := up { cc with cc_ticks := cc.cc_ticks + 1 } 0 (by omega) (by omega)
    ⟨List.mem_append_left _, fun _ isIn => isIn⟩
  unfold calloutHardclock at isIn
  dsimp only at isIn
  split at isIn
  · rename_i zero
    have snd := up _ 1 (by omega) (by simpa using zero) fst
    split at isIn
    · rename_i one
      have third := up _ 2 (by omega) (by
        intro lower isLower
        interval_cases lower
        · exact zero
        · exact one) snd
      split at isIn
      · rename_i two
        exact (up _ 3 (by omega) (by
          intro lower isLower
          interval_cases lower
          · exact zero
          · exact one
          · exact two) third).1 isIn
      · exact third.1 isIn
    · exact snd.1 isIn
  · exact fst.1 isIn

theorem Mirrors.tick (mirrors : Mirrors bound none sys ideal plc) {cpu : CpuId}
    (defined : Defined sys (.tick cpu)) :
    ∃ s' ran places, step sys (.tick cpu) = some (s', ran) ∧
      Mirrors bound none s' (ideal.step bound (.tick cpu)).1 places ∧ ran.Nodup ∧
      ∀ c, c ∈ ran ↔ (ideal.step bound (.tick cpu)).2 c := by
  have hard := mirrors.hardclock cpu
  obtain ⟨s', ran, places, loop, got, nodup, mem⟩ := hard.softclock rfl (by
    intro c isIn
    simp only [System.setCpu, update_self] at isIn ⊢
    rw [calloutHardclock_ticks]
    exact defined c (mem_examined isIn))
  simp only [update_self] at got mem
  refine ⟨s', ran, places, ?_, got, nodup, mem⟩
  unfold step calloutSoftclock
  simp only
  split
  · rename_i empty
    simp only [empty, softclockLoop] at loop
    simp [loop]
  · exact loop

end Softclock

section Calls

theorem System.setCpu_self (sys : System) (cpu : CpuId) :
    sys.setCpu cpu (sys.cpus cpu) = sys := by
  simp [System.setCpu]

variable {bound : CalloutId → Bool} {sys : System} {ideal : Schedule}
  {plc : CalloutId → Option Place} {c : CalloutId}

/-- Moving a callout to another due time and place keeps the wheel right. -/
theorem Mirrors.reschedule (mirrors : Mirrors bound none sys ideal plc) {callout : Callout}
    {cpu : CpuId} {cc : CalloutCpu} {due : Option Nat} {spot : Option Place}
    (sameBound : callout.callout_bound = bound c) (isCpu : callout.c_cpu = cpu)
    (isPending : callout.callout_pending = due.isSome) (notFired : callout.callout_fired = false)
    (sameTicks : cc.cc_ticks = (sys.cpus cpu).cc_ticks)
    (soon : ∀ time, due = some time → ideal.clock cpu < time ∧ time < ideal.clock cpu + 2 ^ 31)
    (cnt : Counted (update sys.cpus cpu cc) (update ideal.home c cpu)
      (update plc c spot))
    (hpl : spot.isSome = due.isSome)
    (agree : ∀ time slot, due = some time → spot = some slot →
      Agrees (ideal.clock cpu) 1 time callout.c_time slot) :
    Mirrors bound none ((sys.setCallout c callout).setCpu cpu cc) { ideal with
        home := update ideal.home c cpu, due := update ideal.due c due }
      (update plc c spot) := by
  refine ⟨?_, ?_, ?_, ?_, ?_, ?_, cnt, ?_, ?_⟩
  · intro oth
    by_cases same : oth = cpu
    · subst same
      simpa [System.setCpu, sameTicks] using mirrors.ticks oth
    · simpa [System.setCpu, System.setCallout, same] using mirrors.ticks oth
  · intro oth
    by_cases same : oth = c
    · subst same
      simpa [System.setCpu, System.setCallout] using isCpu
    · simpa [System.setCpu, System.setCallout, same] using mirrors.home oth
  · intro oth
    by_cases same : oth = c
    · subst same
      simpa [System.setCpu, System.setCallout] using sameBound
    · simpa [System.setCpu, System.setCallout, same] using mirrors.bound oth
  · intro oth
    by_cases same : oth = c
    · subst same
      simpa [System.setCpu, System.setCallout] using isPending
    · simpa [System.setCpu, System.setCallout, same] using mirrors.pending oth
  · intro oth isDue
    by_cases same : oth = c
    · subst same
      simpa [System.setCpu, System.setCallout] using notFired
    · simp only [update_of_ne same] at isDue
      simpa [System.setCpu, System.setCallout, same] using mirrors.fired oth isDue
  · intro oth time isDue
    by_cases same : oth = c
    · subst same
      simp only [update_self] at isDue ⊢
      obtain ⟨s', near⟩ := soon time isDue
      exact ⟨by omega, near, fun now => by omega⟩
    · simp only [update_of_ne same] at isDue ⊢
      exact mirrors.soon oth time isDue
  · intro oth
    by_cases same : oth = c
    · subst same
      simpa using hpl
    · simpa [same] using mirrors.placed oth
  · intro oth time slot isDue at'
    by_cases same : oth = c
    · subst same
      simp only [update_self] at isDue at' ⊢
      simpa [System.setCpu, System.setCallout] using agree time slot isDue at'
    · simp only [update_of_ne same] at isDue at' ⊢
      simpa [System.setCpu, System.setCallout, same] using
        mirrors.agrees oth time slot isDue at'

theorem agrees_todo (now toTicks : Nat) :
    Agrees now 1 (now + max 1 toTicks) (BitVec.ofNat 32 toTicks + BitVec.ofNat 32 now) .todo := by
  by_cases zero : toTicks = 0
  · right
    subst zero
    simp [ofNat_add]
  · left
    rw [show max 1 toTicks = toTicks by omega, add_comm now, ofNat_add]

theorem exists_time {now : Nat} {time : BitVec 32} {slot : Place}
    (agree : Agrees now 1 due time slot) (later : now < due) (near : due < now + 2 ^ 31) :
    ∃ old, time = BitVec.ofNat 32 old ∧ now ≤ old ∧ old ≤ due ∧ old < now + 2 ^ 31 ∧
      (∀ index, slot = .wheel index → old = due) := by
  cases slot with
  | todo =>
    rcases agree with onTime | ⟨late, bnd⟩
    · exact ⟨due, onTime, by omega, by omega, near, fun _ _ => rfl⟩
    · obtain rfl : due = now + 1 := by omega
      refine ⟨now, ?_, by omega, by omega, by omega, by simp⟩
      bv_omega
  | wheel index => exact ⟨due, agree.1, by omega, by omega, near, fun _ _ => rfl⟩

section

variable (mirrors : Mirrors bound none sys ideal plc)

include mirrors

/-- Rescheduling a pending callout, where the difference fits an `int`. -/
theorem Mirrors.schedulePending {toTicks : Fin (2 ^ 31)} {curcpu : CpuId} {entered : Bool}
    (defined : Defined sys (.schedule c toTicks curcpu entered))
    (isDue : ideal.due c = some due) :
    ∃ s' places, calloutScheduleLocked sys c toTicks curcpu entered = some s' ∧
      Mirrors bound none s' (ideal.step bound (.schedule c toTicks curcpu entered)).1
        places := by
  obtain ⟨spot, at'⟩ := mirrors.exists_place isDue
  obtain ⟨atLeast, near, isNow⟩ := mirrors.soon c due isDue
  have later : ideal.clock (ideal.home c) < due := by
    by_contra notLater
    exact absurd (isNow (by omega)).1 (by simp)
  have agree := mirrors.agrees c due spot isDue at'
  obtain ⟨old, isOld, afterNow, beforeDue, oldNear, onWheel⟩ := exists_time agree later near
  have pending : (sys.callouts c).callout_pending = true := by simp [mirrors.pending, isDue]
  have tgt : ideal.target bound c curcpu entered = ideal.home c := by
    simp [Schedule.target, isDue]
  have difference : (BitVec.ofNat 32 toTicks + (sys.cpus (ideal.home c)).cc_ticks -
      (sys.callouts c).c_time).toInt < 0 ↔ ideal.clock (ideal.home c) + toTicks < old := by
    rw [mirrors.ticks, isOld, ← ofNat_add, toInt_eq_toNat_cond, toNat_sub,
      toNat_ofNat, toNat_ofNat]
    split <;> omega
  have sameHome : update ideal.home c (ideal.home c) = ideal.home :=
    update_eq_self c ideal.home
  have isDefined := defined pending
  rw [mirrors.home] at isDefined
  simp only [calloutScheduleLocked, pending, ↓reduceIte, mirrors.home, isDefined, Bool.false_eq_true,
    difference, Schedule.step, tgt]
  split
  · -- earlier than before: back to the worklist
    refine ⟨_, update plc c (some .todo), rfl, ?_⟩
    apply mirrors.reschedule
    · exact mirrors.bound c
    · rfl
    · rfl
    · rfl
    · rfl
    · intro time isTime
      obtain rfl := some.inj isTime
      omega
    · rw [sameHome]
      exact mirrors.counted.requeue rfl
    · rfl
    · intro time slot isTime isSlot
      obtain rfl := some.inj isTime
      obtain rfl := some.inj isSlot
      simp only [mirrors.ticks]
      exact agrees_todo _ _
  -- not earlier: the callout stays on its queue
  refine ⟨_, update plc c (some spot), rfl, ?_⟩
  rw [← System.setCpu_self (sys.setCallout c _) (ideal.home c)]
  apply mirrors.reschedule
  · exact mirrors.bound c
  · rfl
  · rfl
  · rfl
  · rfl
  · intro time isTime
    obtain rfl := some.inj isTime
    omega
  · have sameCpus : update sys.cpus (ideal.home c) (sys.cpus (ideal.home c)) =
        sys.cpus := update_eq_self _ _
    rw [sameHome, ← at', update_eq_self]
    exact sameCpus.symm ▸ mirrors.counted
  · rfl
  · intro time slot isTime isSlot
    obtain rfl := some.inj isTime
    obtain rfl := some.inj isSlot
    simp only [mirrors.ticks]
    cases spot with
    | todo => exact agrees_todo _ _
    | wheel index =>
      obtain ⟨_, wheel, moment, lt, idx, dvd, s', prev⟩ := agree
      have isOldDue := onWheel index rfl
      refine ⟨?_, wheel, moment, lt, idx, dvd, s', by omega⟩
      rw [show max 1 (toTicks : Nat) = toTicks by omega, add_comm _ (toTicks : Nat),
        ofNat_add]

/-- Scheduling an idle callout queues it for its due time. -/
theorem Mirrors.scheduleIdle (toTicks : Fin (2 ^ 31)) (curcpu : CpuId) (entered : Bool)
    (isDue : ideal.due c = none) :
    ∃ s' places, calloutScheduleLocked sys c toTicks curcpu entered = some s' ∧
      Mirrors bound none s' (ideal.step bound (.schedule c toTicks curcpu entered)).1
        places := by
  have hn : plc c = none := by
    have := mirrors.placed c
    rw [isDue] at this
    simpa using this
  have pending : (sys.callouts c).callout_pending = false := by simp [mirrors.pending, isDue]
  have scheduled : ∀ cpu, Mirrors bound none ((sys.setCallout c { sys.callouts c with
        callout_fired := false, callout_invoking := false, c_cpu := cpu
        c_time := BitVec.ofNat 32 toTicks + (sys.cpus cpu).cc_ticks
        callout_pending := true }).setCpu cpu (insertTodo (sys.cpus cpu) c))
      { ideal with
        home := update ideal.home c cpu
        due := update ideal.due c (some (ideal.clock cpu + max 1 (toTicks : Nat))) }
      (update plc c (some .todo)) := by
    intro cpu
    apply mirrors.reschedule
    · exact mirrors.bound c
    · rfl
    · rfl
    · rfl
    · rfl
    · intro time isTime
      obtain rfl := some.inj isTime
      omega
    · exact mirrors.counted.insertTodo cpu hn
    · rfl
    · intro time slot isTime isSlot
      obtain rfl := some.inj isTime
      obtain rfl := some.inj isSlot
      simp only [mirrors.ticks]
      exact agrees_todo _ _
  simp only [calloutScheduleLocked, pending, Bool.false_eq_true, ↓reduceIte, mirrors.home,
    mirrors.bound, Schedule.step, Schedule.target, isDue, isSome_none, Bool.false_or]
  simp only [mirrors.bound] at scheduled
  split
  · exact ⟨_, _, rfl, scheduled (ideal.home c)⟩
  · exact ⟨_, _, rfl, scheduled curcpu⟩

/-- A stopped callout is on no list and has no due time. -/
theorem Mirrors.stop (c : CalloutId) :
    ∃ places, Mirrors bound none (calloutStop sys c) (ideal.step bound (.stop c)).1 places := by
  have sameHome : update ideal.home c (ideal.home c) = ideal.home :=
    update_eq_self c ideal.home
  refine ⟨update plc c none, ?_⟩
  have stop : ∀ cc : CalloutCpu, cc.cc_ticks = (sys.cpus (ideal.home c)).cc_ticks →
      Counted (update sys.cpus (ideal.home c) cc) ideal.home
        (update plc c none) →
      Mirrors bound none ((sys.setCallout c { sys.callouts c with
        callout_pending := false, callout_fired := false }).setCpu (ideal.home c) cc)
        (ideal.step bound (.stop c)).1 (update plc c none) := by
    intro cc sameTicks cnt
    have wrote : Mirrors bound none ((sys.setCallout c { sys.callouts c with
        callout_pending := false, callout_fired := false }).setCpu (ideal.home c) cc)
        { ideal with
          home := update ideal.home c (ideal.home c)
          due := update ideal.due c none }
        (update plc c none) := by
      apply mirrors.reschedule
      · exact mirrors.bound c
      · exact mirrors.home c
      · rfl
      · rfl
      · exact sameTicks
      · simp
      · rwa [sameHome]
      · rfl
      · simp
    rwa [sameHome] at wrote
  unfold calloutStop
  simp only [mirrors.home] at stop ⊢
  simp only [mirrors.pending]
  split
  · apply stop
    · rfl
    · exact mirrors.counted.remove rfl
  rename_i notDue
  have hn : plc c = none := by
    have := mirrors.placed c
    simp only [not_isSome_iff_eq_none] at notDue
    rw [notDue] at this
    simpa using this
  have unch := stop (sys.cpus (ideal.home c)) rfl (by
    rw [update_eq_self, ← hn, update_eq_self]
    exact mirrors.counted)
  simpa [System.setCpu, System.setCallout] using unch

end

end Calls

theorem step_mirrors {bound : CalloutId → Bool} {ideal : Schedule}
    {plc : CalloutId → Option Place} (mirrors : Mirrors bound none sys ideal plc)
    {event : Event} (defined : Defined sys event) :
    ∃ s' ran, step sys event = some (s', ran) ∧
      (∃ places, Mirrors bound none s' (ideal.step bound event).1 places) ∧ ran.Nodup ∧
      ∀ c, c ∈ ran ↔ (ideal.step bound event).2 c := by
  cases event with
  | schedule c toTicks curcpu entered =>
    have scheduled : ∃ s' places, calloutScheduleLocked sys c toTicks curcpu entered =
        some s' ∧ Mirrors bound none s'
          (ideal.step bound (.schedule c toTicks curcpu entered)).1 places := by
      cases isDue : ideal.due c with
      | none => exact mirrors.scheduleIdle toTicks curcpu entered isDue
      | some due => exact mirrors.schedulePending defined isDue
    obtain ⟨s', places, aft, got⟩ := scheduled
    refine ⟨s', [], ?_, ⟨places, got⟩, by simp, by simp [Schedule.step]⟩
    rw [step, aft]
    rfl
  | stop c => exact ⟨_, [], rfl, mirrors.stop c, by simp, by simp [Schedule.step]⟩
  | tick cpu =>
    obtain ⟨s', ran, places, move, got, nodup, mem⟩ := mirrors.tick defined
    exact ⟨s', ran, move, ⟨places, got⟩, nodup, mem⟩

/-- A pending callout stands on exactly one queue, once; another one on none. -/
def OnOneQueue (system : System) : Prop :=
  ∀ c, if (system.callouts c).callout_pending then
      ∃ spot, ∀ cpu slot, ((system.cpus cpu).queue slot).count c =
        if cpu = (system.callouts c).c_cpu ∧ slot = spot then 1 else 0
    else ∀ cpu slot, c ∉ (system.cpus cpu).queue slot

theorem Mirrors.onOneQueue {bound : CalloutId → Bool} {ideal : Schedule}
    {plc : CalloutId → Option Place} (mirrors : Mirrors bound none sys ideal plc) :
    OnOneQueue sys := by
  intro c
  rw [mirrors.pending, ← mirrors.placed]
  cases isPlace : plc c with
  | none =>
    intro cpu slot isIn
    have := mirrors.counted.mem_iff.mp isIn
    simp [isPlace] at this
  | some spot =>
    refine ⟨spot, fun cpu slot => ?_⟩
    rw [mirrors.counted, mirrors.home, isPlace]
    simp [eq_comm]

/-- Whatever is scheduled and stopped and however the clocks tick, as long as all differences of
times are defined every tick of a CPU runs exactly the callouts that are due at its new time, each
of them once. -/
theorem callout_exact (sys : System) (fresh : sys.Fresh) (events : List Event)
    (defined : ∀ front event, front ++ [event] <+: events → ∀ reached ran,
      produce step front sys = some (reached, ran) → Defined reached event) :
    ∃ reached ran, produce step events sys = some (reached, ran) ∧ OnOneQueue reached ∧
      List.Forall₂ (fun given due => given.Nodup ∧ ∀ c, c ∈ given ↔ due c) ran
        (answers (Schedule.step sys.bound) events sys.schedule).2 := by
  obtain ⟨reached, ran, produced, ⟨places, mirrors⟩, agree⟩ := produce_simulates_of
    (fun system' ideal => ∃ places, Mirrors sys.bound none system' ideal places)
    (fun (given : List CalloutId) (due : CalloutId → Prop) => given.Nodup ∧ ∀ c, c ∈ given ↔ due c)
    Defined
    (fun st ideal event related isDefined => by
      obtain ⟨places, mirrors⟩ := related
      exact step_mirrors mirrors isDefined)
    events ⟨_, mirrors_schedule fresh⟩ defined
  exact ⟨reached, ran, produced, mirrors.onOneQueue, agree⟩

/-- A system without callouts at a time. -/
def System.idle (ticks : BitVec 32) : System where
  callouts := fun _ => ⟨false, false, true, false, 0, 0⟩
  cpus := fun _ => ⟨ticks, [], fun _ => []⟩

theorem idle_fresh (ticks : BitVec 32) : (System.idle ticks).Fresh :=
  ⟨fun _ => rfl, fun _ => ⟨rfl, fun _ => rfl⟩⟩

/-- A callout that is moved to an earlier time, across the end of the clocks. -/
def wrapping : List Event := [.schedule 7 3 0 true, .tick 0, .schedule 7 1 0 true, .tick 0]

theorem callout_exact_idle : ∃ reached ran,
    produce step wrapping (System.idle 4294967295) = some (reached, ran) ∧ OnOneQueue reached ∧
      List.Forall₂ (fun given due => given.Nodup ∧ ∀ c, c ∈ given ↔ due c) ran
        (answers (Schedule.step (System.idle 4294967295).bound) wrapping
          (System.idle 4294967295).schedule).2 := by
  apply callout_exact (System.idle 4294967295) (idle_fresh _) wrapping
  intro front event pre reached ran produced
  have hsh := pre.length_le
  obtain ⟨tl, lst⟩ := pre
  unfold wrapping at lst hsh
  match front with
  | [] =>
    cases lst
    cases produced
    decide
  | [first] =>
    cases lst
    cases produced
    decide
  | [first, snd] =>
    cases lst
    cases produced
    decide
  | [first, snd, third] =>
    cases lst
    cases produced
    decide
  | _ :: _ :: _ :: _ :: _ =>
    simp only [List.length_append, List.length_cons, List.length_nil] at hsh
    omega

/-- A pending callout that is moved from behind the largest `int` to in front of it. -/
theorem callout_exact_overflow : (System.idle 0x7fffff00).Fresh ∧
    produce step [.schedule 0 0x105 0 true, .schedule 0 0xf0 0 true] (System.idle 0x7fffff00) =
      none :=
  ⟨idle_fresh _, rfl⟩

end NetBSD.Kern.Timeout
