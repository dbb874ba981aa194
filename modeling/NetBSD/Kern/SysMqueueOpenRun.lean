import NetBSD.Kern.SysMqueueOpen

/-!
Owns what `mq_open`, `mq_close` and `mq_unlink` keep account of. The references
of a queue and its destruction are right in every run. The count of a process
is its number of descriptors as long as no process opens a queue that exists:
that open counts nothing, while its close counts down.
-/

namespace NetBSD.Kern.SysMqueue

open NetBSD.Machine Function List Option MqWorld

/-! ### Invariants -/

/-- The open files that refer to a queue. -/
def references (w : MqWorld) (id : Nat) : Nat :=
  w.files.countP fun file => decide (file.queue = id)

/-- The open message queue descriptors of a process. -/
def descriptors (w : MqWorld) (proc : Nat) : Nat :=
  w.files.countP fun file => decide (file.proc = proc)

/-- Queues in the list, queues in memory and references agree. -/
structure Alive (w : MqWorld) : Prop where
  listed : ∀ id ∈ w.mqueue_head, ∃ mq, w.queues id = some mq ∧ mq.mq_attrib.unlinked = false
  distinct : w.mqueue_head.Nodup
  counted : ∀ (id : Nat) (mq : Mqueue), w.queues id = some mq → mq.mq_refcnt = references w id
  held : ∀ (id : Nat) (mq : Mqueue), w.queues id = some mq → id ∉ w.mqueue_head →
    mq.mq_attrib.unlinked = true ∧ 0 < mq.mq_refcnt
  referred : ∀ file ∈ w.files, ∃ mq, w.queues file.queue = some mq
  below : ∀ (id : Nat) (mq : Mqueue), w.queues id = some mq → id < w.allocated
  ended : ∀ (id : Nat), id < w.allocated → (id ∈ w.destroyed ↔ w.queues id = none)
  past : ∀ id ∈ w.destroyed, id < w.allocated
  once : w.destroyed.Nodup

/-- What the life of every queue looks like from outside. -/
structure Lifetimes (w : MqWorld) : Prop where
  refcnt : ∀ (id : Nat) (mq : Mqueue), w.queues id = some mq → mq.mq_refcnt = references w id
  ended : ∀ (id : Nat), id < w.allocated →
    (id ∈ w.destroyed ↔ id ∉ w.mqueue_head ∧ references w id = 0)
  freed : ∀ (id : Nat), id < w.allocated → (id ∈ w.destroyed ↔ w.queues id = none)
  once : w.destroyed.Nodup

/-- The count of each process is exact. -/
def Exact (w : MqWorld) : Prop := ∀ proc, (w.p_mqueue_cnt proc).toNat = descriptors w proc

section Alive

variable {w : MqWorld}

variable {file : MqFile}

theorem references_pos (isIn : file ∈ w.files) : 0 < references w file.queue :=
  countP_pos_iff.mpr ⟨file, isIn, by simp⟩

theorem Alive.lifetimes (alive : Alive w) : Lifetimes w where
  refcnt := alive.counted
  ended := by
    intro id lt
    rw [alive.ended id lt]
    constructor
    · intro freed
      refine ⟨fun hls => ?_, ?_⟩
      · obtain ⟨mq, fnd, _⟩ := alive.listed id hls
        rw [freed] at fnd
        cases fnd
      · refine countP_eq_zero.mpr fun file isIn same => ?_
        obtain ⟨mq, fnd⟩ := alive.referred file isIn
        rw [decide_eq_true_eq] at same
        rw [same, freed] at fnd
        cases fnd
    · rintro ⟨notListed, noReference⟩
      cases fnd : w.queues id with
      | none => rfl
      | some mq =>
        have held := (alive.held id mq fnd notListed).2
        have cnt := alive.counted id mq fnd
        omega
  freed := alive.ended
  once := alive.once

theorem Alive.setCount (alive : Alive w) (proc : Nat) (cnt : UInt32) :
    Alive (w.setCount proc cnt) :=
  { alive with }

theorem mqueueLookup_spec (name : List UInt8) {ids : List Nat}
    (mem : ∀ id ∈ ids, ∃ mq, w.queues id = some mq ∧ mq.mq_attrib.unlinked = false) :
    ∃ fnd, mqueueLookup w name ids = some fnd ∧
      ∀ id mq, fnd = some (id, mq) → id ∈ ids ∧ w.queues id = some mq := by
  induction ids with
  | nil => exact ⟨none, rfl, nofun⟩
  | cons head tl ih =>
    obtain ⟨first, fst, _⟩ := mem head mem_cons_self
    rw [mqueueLookup, fst]
    by_cases same : first.mq_name = name
    · refine ⟨some (head, first), by simp only [if_pos same], ?_⟩
      intro id mq hit
      obtain ⟨rfl, rfl⟩ := Prod.mk.inj (some.inj hit)
      exact ⟨mem_cons_self, fst⟩
    obtain ⟨fnd, lookedUp, spec⟩ :=
      ih (forall_mem_cons.mp mem).2
    refine ⟨fnd, by simp only [if_neg same, lookedUp], ?_⟩
    intro id mq hit
    obtain ⟨isIn, isQueue⟩ := spec id mq hit
    exact ⟨mem_cons_of_mem _ isIn, isQueue⟩

theorem Alive.lookup (alive : Alive w) (name : List UInt8) :
    ∃ fnd, mqueueLookup w name w.mqueue_head = some fnd ∧
      ∀ id mq, fnd = some (id, mq) → id ∈ w.mqueue_head ∧ w.queues id = some mq :=
  mqueueLookup_spec name alive.listed

/-! ### Opening -/

theorem references_affix (clr : Caller) (fd id id' : Nat) (args : OpenArgs) :
    references (w.affix clr fd id args) id' = references w id' + if id = id' then 1 else 0 := by
  simp only [references, affix, countP_cons, decide_eq_true_eq]

theorem descriptors_affix (clr : Caller) (fd id proc : Nat) (args : OpenArgs) :
    descriptors (w.affix clr fd id args) proc =
      descriptors w proc + if clr.proc = proc then 1 else 0 := by
  simp only [descriptors, affix, countP_cons, decide_eq_true_eq]

variable {mq : Mqueue}

/-- An open of a listed queue adds the reference its file holds. -/
theorem Alive.addReference (alive : Alive w) {id : Nat} (hls : id ∈ w.mqueue_head)
    (fnd : w.queues id = some mq) (clr : Caller) (fd : Nat) (args : OpenArgs) :
    Alive ((w.setQueue id (some { mq with mq_refcnt := mq.mq_refcnt + 1 })).affix clr fd id
      args) where
  listed := by
    intro id' isIn
    by_cases same : id' = id
    · subst same
      obtain ⟨mq', hit', link⟩ := alive.listed id' hls
      obtain rfl := some.inj (fnd.symm.trans hit')
      exact ⟨_, update_self .., link⟩
    · obtain ⟨mq', hit', link⟩ := alive.listed id' isIn
      exact ⟨mq', (update_of_ne same ..).trans hit', link⟩
  __ := alive
  counted := by
    intro id' mq' hit'
    rw [references_affix]
    change mq'.mq_refcnt = references w id' + _
    by_cases same : id' = id
    · change update w.queues id _ id' = some mq' at hit'
      rw [same, update_self] at hit'
      rw [if_pos same.symm, same, ← alive.counted id mq fnd, ← some.inj hit']
    · rw [if_neg (Ne.symm same)]
      exact alive.counted id' mq' ((update_of_ne same ..).symm.trans hit')
  held := by
    intro id' mq' hit' notListed
    have oth : id' ≠ id := fun same => notListed (same ▸ hls)
    exact alive.held id' mq' ((update_of_ne oth ..).symm.trans hit') notListed
  referred := by
    intro file isIn
    by_cases same : file.queue = id
    · rw [same]
      exact ⟨_, update_self ..⟩
    · rcases mem_cons.mp isIn with rfl | old
      · exact absurd rfl same
      · obtain ⟨mq', hit'⟩ := alive.referred file old
        exact ⟨mq', (update_of_ne same ..).trans hit'⟩
  below := by
    intro id' mq' hit'
    by_cases same : id' = id
    · rw [same]
      exact alive.below id mq fnd
    · exact alive.below id' mq' ((update_of_ne same ..).symm.trans hit')
  ended := by
    intro id' lt
    change id' ∈ w.destroyed ↔ update w.queues id _ id' = none
    rw [alive.ended id' lt]
    by_cases same : id' = id
    · rw [same, update_self, fnd]
      exact ⟨nofun, nofun⟩
    · rw [update_of_ne same]

/-- A new queue starts linked, with one reference. -/
theorem Alive.addQueue (alive : Alive w) (fst : mq.mq_refcnt = 1)
    (link : mq.mq_attrib.unlinked = false) (clr : Caller) (fd : Nat) (args : OpenArgs) :
    Alive (affix { w.setQueue w.allocated (some mq) with
      allocated := w.allocated + 1
      mqueue_head := w.allocated :: w.mqueue_head } clr fd w.allocated args) := by
  have fresh : ∀ (id : Nat) (mq' : Mqueue), w.queues id = some mq' → id ≠ w.allocated := by
    intro id mq' fnd
    have sml := alive.below id mq' fnd
    omega
  have noReference : references w w.allocated = 0 := by
    refine countP_eq_zero.mpr fun file isIn same => ?_
    obtain ⟨mq', fnd⟩ := alive.referred file isIn
    exact fresh _ mq' fnd (of_decide_eq_true same)
  exact {
    listed := by
      intro id isIn
      rcases mem_cons.mp isIn with rfl | old
      · exact ⟨mq, update_self .., link⟩
      · obtain ⟨mq', fnd, isLinked⟩ := alive.listed id old
        exact ⟨mq', (update_of_ne (fresh id mq' fnd) ..).trans fnd, isLinked⟩
    distinct := by
      refine nodup_cons.mpr ⟨fun isIn => ?_, alive.distinct⟩
      obtain ⟨mq', fnd, _⟩ := alive.listed _ isIn
      exact fresh _ mq' fnd rfl
    counted := by
      intro id mq' fnd
      rw [references_affix]
      change mq'.mq_refcnt = references w id + _
      by_cases same : id = w.allocated
      · change update w.queues w.allocated _ id = some mq' at fnd
        rw [same, update_self] at fnd
        rw [if_pos same.symm, same, noReference, ← some.inj fnd, fst]
      · rw [if_neg (Ne.symm same)]
        exact alive.counted id mq' ((update_of_ne same ..).symm.trans fnd)
    held := by
      intro id mq' fnd notListed
      have oth : id ≠ w.allocated := fun same => notListed (same ▸ mem_cons_self)
      exact alive.held id mq' ((update_of_ne oth ..).symm.trans fnd)
        fun isIn => notListed (mem_cons_of_mem _ isIn)
    referred := by
      intro file isIn
      rcases mem_cons.mp isIn with rfl | old
      · exact ⟨mq, update_self ..⟩
      · obtain ⟨mq', fnd⟩ := alive.referred file old
        exact ⟨mq', (update_of_ne (fresh _ mq' fnd) ..).trans fnd⟩
    below := by
      intro id mq' fnd
      change id < w.allocated + 1
      by_cases same : id = w.allocated
      · omega
      · have sml := alive.below id mq' ((update_of_ne same ..).symm.trans fnd)
        omega
    ended := by
      intro id lt
      change id < w.allocated + 1 at lt
      change id ∈ w.destroyed ↔ update w.queues w.allocated (some mq) id = none
      by_cases same : id = w.allocated
      · rw [same, update_self]
        constructor
        · intro isIn
          exact absurd (alive.past _ isIn) (by omega)
        · exact nofun
      · rw [update_of_ne same]
        exact alive.ended id (by omega)
    past := by
      intro id isIn
      exact Nat.lt_succ_of_lt (alive.past id isIn)
    once := alive.once }

/-! ### Closing and unlinking -/

def MqWorld.dropFile (w : MqWorld) (file : MqFile) : MqWorld :=
  { w with files := w.files.erase file }

theorem references_dropFile (isIn : file ∈ w.files) (id : Nat) :
    references w id = references (w.dropFile file) id + if file.queue = id then 1 else 0 := by
  have cnt := (perm_cons_erase isIn).countP_eq fun file => decide (file.queue = id)
  simp only [countP_cons, decide_eq_true_eq] at cnt
  exact cnt

theorem descriptors_dropFile (isIn : file ∈ w.files) (proc : Nat) : descriptors w proc =
      descriptors (w.dropFile file) proc + if file.proc = proc then 1 else 0 := by
  have cnt := (perm_cons_erase isIn).countP_eq fun file => decide (file.proc = proc)
  simp only [countP_cons, decide_eq_true_eq] at cnt
  exact cnt

/-- A close drops the reference of its file. -/
theorem Alive.dropReference (alive : Alive w) (isIn : file ∈ w.files)
    (fnd : w.queues file.queue = some mq)
    (stays : mq.mq_attrib.unlinked = true → 0 < mq.mq_refcnt - 1) :
    Alive ((w.dropFile file).setQueue file.queue
      (some { mq with mq_refcnt := mq.mq_refcnt - 1 })) where
  listed := by
    intro id hls
    obtain ⟨mq', hit', link⟩ := alive.listed id hls
    by_cases same : id = file.queue
    · rw [same, fnd] at hit'
      rw [same]
      exact ⟨_, update_self .., some.inj hit' ▸ link⟩
    · exact ⟨mq', (update_of_ne same ..).trans hit', link⟩
  __ := alive
  counted := by
    intro id mq' hit'
    change update w.queues file.queue _ id = some mq' at hit'
    change mq'.mq_refcnt = references (w.dropFile file) id
    have dropped := references_dropFile isIn id
    by_cases same : id = file.queue
    · rw [same, update_self] at hit'
      have prev := alive.counted id mq (same ▸ fnd)
      rw [if_pos same.symm] at dropped
      rw [← some.inj hit']
      change mq.mq_refcnt - 1 = _
      omega
    · rw [update_of_ne same] at hit'
      rw [if_neg (Ne.symm same)] at dropped
      rw [alive.counted id mq' hit', dropped, add_zero]
  held := by
    intro id mq' hit' notListed
    change update w.queues file.queue _ id = some mq' at hit'
    by_cases same : id = file.queue
    · rw [same, update_self] at hit'
      have unl := (alive.held id mq (same ▸ fnd) notListed).1
      rw [← some.inj hit']
      exact ⟨unl, stays unl⟩
    · rw [update_of_ne same] at hit'
      exact alive.held id mq' hit' notListed
  referred := by
    intro oth isLeft
    by_cases same : oth.queue = file.queue
    · rw [same]
      exact ⟨_, update_self ..⟩
    · obtain ⟨mq', hit'⟩ := alive.referred oth (mem_of_mem_erase isLeft)
      exact ⟨mq', (update_of_ne same ..).trans hit'⟩
  below := by
    intro id mq' hit'
    change update w.queues file.queue _ id = some mq' at hit'
    by_cases same : id = file.queue
    · rw [same]
      exact alive.below _ mq fnd
    · rw [update_of_ne same] at hit'
      exact alive.below id mq' hit'
  ended := by
    intro id lt
    change id ∈ w.destroyed ↔ update w.queues file.queue _ id = none
    rw [alive.ended id lt]
    by_cases same : id = file.queue
    · rw [same, update_self, fnd]
      exact ⟨nofun, nofun⟩
    · rw [update_of_ne same]

/-- A queue goes once no file and no name refers to it. -/
theorem Alive.destroyQueue (alive : Alive w) {id : Nat} {mq : Mqueue}
    (fnd : w.queues id = some mq) {head : List Nat} {files : List MqFile}
    (shorter : head.Sublist w.mqueue_head) (notListed : id ∉ head)
    (tl : ∀ other ∈ w.mqueue_head, other ≠ id → other ∈ head)
    (fewer : ∀ file ∈ files, file ∈ w.files ∧ file.queue ≠ id)
    (cnts : ∀ (other : Nat), other ≠ id →
      files.countP (fun file => decide (file.queue = other)) = references w other) :
    Alive { w with
      mqueue_head := head
      queues := update w.queues id none
      files := files
      destroyed := id :: w.destroyed } where
  listed := by
    intro other isIn
    have oth : other ≠ id := fun same => notListed (same ▸ isIn)
    obtain ⟨mq', hit', link⟩ := alive.listed other (shorter.subset isIn)
    exact ⟨mq', (update_of_ne oth ..).trans hit', link⟩
  distinct := alive.distinct.sublist shorter
  counted := by
    intro other mq' hit'
    change update w.queues id none other = some mq' at hit'
    by_cases same : other = id
    · rw [same, update_self] at hit'
      cases hit'
    · rw [update_of_ne same] at hit'
      exact (alive.counted other mq' hit').trans (cnts other same).symm
  held := by
    intro other mq' hit' notIn
    change update w.queues id none other = some mq' at hit'
    by_cases same : other = id
    · rw [same, update_self] at hit'
      cases hit'
    · rw [update_of_ne same] at hit'
      exact alive.held other mq' hit' fun hls => notIn (tl other hls same)
  referred := by
    intro file isIn
    obtain ⟨isOld, oth⟩ := fewer file isIn
    obtain ⟨mq', hit'⟩ := alive.referred file isOld
    exact ⟨mq', (update_of_ne oth ..).trans hit'⟩
  below := by
    intro other mq' hit'
    change update w.queues id none other = some mq' at hit'
    by_cases same : other = id
    · rw [same, update_self] at hit'
      cases hit'
    · rw [update_of_ne same] at hit'
      exact alive.below other mq' hit'
  ended := by
    intro other lt
    change other ∈ id :: w.destroyed ↔ update w.queues id none other = none
    by_cases same : other = id
    · rw [same, update_self]
      exact ⟨fun _ => rfl, fun _ => mem_cons_self⟩
    · rw [update_of_ne same, mem_cons, alive.ended other lt]
      exact ⟨fun is => is.resolve_left same, Or.inr⟩
  past := by
    intro other isIn
    rcases mem_cons.mp isIn with rfl | old
    · exact alive.below other mq fnd
    · exact alive.past other old
  once := by
    refine nodup_cons.mpr ⟨fun isIn => ?_, alive.once⟩
    have freed := (alive.ended id (alive.past id isIn)).mp isIn
    rw [fnd] at freed
    cases freed

/-- Unlinking takes the name and leaves the queue to its files. -/
theorem Alive.unlinkQueue (alive : Alive w) {id : Nat} (fnd : w.queues id = some mq)
    (inUse : mq.mq_refcnt ≠ 0) :
    Alive (setQueue { w with mqueue_head := w.mqueue_head.erase id } id
      (some mq.markUnlinked)) where
  listed := by
    intro other isIn
    obtain ⟨oth, hls⟩ := (Nodup.mem_erase_iff alive.distinct).mp isIn
    obtain ⟨mq', hit', link⟩ := alive.listed other hls
    exact ⟨mq', (update_of_ne oth ..).trans hit', link⟩
  distinct := alive.distinct.erase id
  counted := by
    intro other mq' hit'
    change update w.queues id _ other = some mq' at hit'
    by_cases same : other = id
    · rw [same, update_self] at hit'
      rw [← some.inj hit', same]
      exact alive.counted id mq fnd
    · rw [update_of_ne same] at hit'
      exact alive.counted other mq' hit'
  held := by
    intro other mq' hit' notIn
    change update w.queues id _ other = some mq' at hit'
    by_cases same : other = id
    · rw [same, update_self] at hit'
      rw [← some.inj hit']
      exact ⟨rfl, pos_of_ne_zero inUse⟩
    · rw [update_of_ne same] at hit'
      exact alive.held other mq' hit' fun hls =>
        notIn ((Nodup.mem_erase_iff alive.distinct).mpr ⟨same, hls⟩)
  referred := by
    intro file isIn
    by_cases same : file.queue = id
    · rw [same]
      exact ⟨_, update_self ..⟩
    · obtain ⟨mq', hit'⟩ := alive.referred file isIn
      exact ⟨mq', (update_of_ne same ..).trans hit'⟩
  below := by
    intro other mq' hit'
    change update w.queues id _ other = some mq' at hit'
    by_cases same : other = id
    · rw [same]
      exact alive.below id mq fnd
    · rw [update_of_ne same] at hit'
      exact alive.below other mq' hit'
  ended := by
    intro other lt
    change other ∈ w.destroyed ↔ update w.queues id _ other = none
    rw [alive.ended other lt]
    by_cases same : other = id
    · rw [same, update_self, fnd]
      exact ⟨nofun, nofun⟩
    · rw [update_of_ne same]
  __ := alive

end Alive

/-! ### What a call does -/

section Call

variable {limits : MqLimits} {policy : MqPolicy} {w : MqWorld}

/-- The checks that `mq_open` makes before the lookup. -/
def Requested (limits : MqLimits) (w : MqWorld) (caller : Caller) (args : OpenArgs)
    (name : List UInt8) (fd : Nat) : Prop :=
  freeDescriptor w caller args = true ∧ args.name = .ok name ∧ args.fd = .ok fd ∧
    (args.creat = true → w.p_mqueue_cnt caller.proc < limits.mq_open_max ∧ name ≠ [] ∧
      (args.attr = none ∨ ∃ attr, args.attr = some (.ok attr) ∧ validAttr limits attr = true))

def OpensExisting (limits : MqLimits) (policy : MqPolicy) (w : MqWorld) : OpenAction → Prop
  | .open caller args =>
    ∃ name fd id mq, Requested limits w caller args name fd ∧
      mqueueLookup w name w.mqueue_head = some (some (id, mq)) ∧
      args.excl = false ∧ mqueueAccess policy mq args.read args.write caller = false
  | _ => False

/-- How a call leaves the world. -/
inductive Outcome (limits : MqLimits) (policy : MqPolicy) (w : MqWorld) (action : OpenAction) :
    MqWorld → Prop where
  | unchanged : ¬ OpensExisting limits policy w action → Outcome limits policy w action w
  | existing (caller : Caller) (fd id : Nat) (args : OpenArgs) (mq : Mqueue) :
      OpensExisting limits policy w action → id ∈ w.mqueue_head → w.queues id = some mq →
      Outcome limits policy w action
        ((w.setQueue id (some { mq with mq_refcnt := mq.mq_refcnt + 1 })).affix caller fd id args)
  | created (caller : Caller) (fd : Nat) (args : OpenArgs) (mq : Mqueue) :
      ¬ OpensExisting limits policy w action → mq.mq_refcnt = 1 →
      mq.mq_attrib.unlinked = false → w.p_mqueue_cnt caller.proc < limits.mq_open_max →
      Outcome limits policy w action (MqWorld.affix
          { (w.setCount caller.proc (w.p_mqueue_cnt caller.proc + 1)).setQueue w.allocated (some mq)
            with
            allocated := w.allocated + 1
            mqueue_head := w.allocated :: w.mqueue_head } caller fd w.allocated args)
  | closed (file : MqFile) (mq : Mqueue) :
      ¬ OpensExisting limits policy w action → file ∈ w.files →
      w.queues file.queue = some mq → (mq.mq_attrib.unlinked = true → 0 < mq.mq_refcnt - 1) →
      Outcome limits policy w action (((w.dropFile file).setQueue file.queue
          (some { mq with mq_refcnt := mq.mq_refcnt - 1 })).setCount file.proc
            (w.p_mqueue_cnt file.proc - 1))
  | lastClosed (file : MqFile) (mq : Mqueue) :
      ¬ OpensExisting limits policy w action → file ∈ w.files →
      w.queues file.queue = some mq → mq.mq_attrib.unlinked = true → mq.mq_refcnt = 1 →
      Outcome limits policy w action (MqWorld.setCount { (w.dropFile file) with
            queues := update w.queues file.queue none
            destroyed := file.queue :: w.destroyed } file.proc (w.p_mqueue_cnt file.proc - 1))
  | unlinked (id : Nat) (mq : Mqueue) :
      ¬ OpensExisting limits policy w action → id ∈ w.mqueue_head → w.queues id = some mq →
      mq.mq_refcnt ≠ 0 →
      Outcome limits policy w action
        (MqWorld.setQueue { w with mqueue_head := w.mqueue_head.erase id } id
          (some mq.markUnlinked))
  | ended (id : Nat) (mq : Mqueue) :
      ¬ OpensExisting limits policy w action → id ∈ w.mqueue_head → w.queues id = some mq →
      mq.mq_refcnt = 0 →
      Outcome limits policy w action { w with
          mqueue_head := w.mqueue_head.erase id
          queues := update w.queues id none
          destroyed := id :: w.destroyed }

variable {action : OpenAction} {s' : MqWorld}

/-- Whatever the call ended in, the queues are alive. -/
theorem Outcome.alive (out : Outcome limits policy w action s') (alive : Alive w) :
    Alive s' := by
  cases out with
  | unchanged => exact alive
  | existing clr fd id args mq _ hls fnd =>
    exact alive.addReference hls fnd clr fd args
  | created clr fd args mq _ fst link _ =>
    exact (alive.setCount clr.proc _).addQueue fst link clr fd args
  | closed file mq _ isIn fnd stays =>
    exact (alive.dropReference isIn fnd stays).setCount _ _
  | lastClosed file mq _ isIn fnd unl last =>
    have cnt := alive.counted _ mq fnd
    have dropped := references_dropFile isIn file.queue
    rw [if_pos rfl] at dropped
    refine (@Alive.destroyQueue w alive _ mq fnd w.mqueue_head
      (w.files.erase file) (List.Sublist.refl _) ?_ (fun _ hls _ => hls) ?_ ?_).setCount _ _
    · intro hls
      obtain ⟨mq', hit', link⟩ := alive.listed _ hls
      rw [some.inj (fnd.symm.trans hit'), link] at unl
      cases unl
    · intro other isLeft
      refine ⟨mem_of_mem_erase isLeft, fun same => ?_⟩
      have pos := references_pos (w := w.dropFile file) isLeft
      rw [same] at pos
      omega
    · intro other oth
      have same := references_dropFile isIn other
      rw [if_neg (Ne.symm oth)] at same
      exact same.symm
  | unlinked id mq _ hls fnd inUse => exact alive.unlinkQueue fnd inUse
  | ended id mq _ hls fnd fresh =>
    have noneLeft : references w id = 0 := (alive.counted id mq fnd).symm.trans fresh
    refine alive.destroyQueue fnd erase_sublist
      (fun isIn => ((Nodup.mem_erase_iff alive.distinct).mp isIn).1 rfl) ?_ ?_
      fun _ _ => rfl
    · intro other isIn oth
      exact (Nodup.mem_erase_iff alive.distinct).mpr ⟨oth, isIn⟩
    · intro file isIn
      refine ⟨isIn, fun same => ?_⟩
      have pos := references_pos isIn
      rw [same] at pos
      omega

variable {bound : UInt32}

theorem toNat_add_one {cnt : UInt32} (rm : cnt < bound) :
    (cnt + 1).toNat = cnt.toNat + 1 := by
  have sml := UInt32.lt_iff_toNat_lt.mp rm
  have wide := bound.toNat_lt
  exact Nat.mod_eq_of_lt (by change cnt.toNat + 1 < _; omega)

theorem not_lt_add_one {cnt : UInt32} (rm : cnt < bound) : ¬ bound < cnt + 1 := by
  have sml := UInt32.lt_iff_toNat_lt.mp rm
  rw [UInt32.lt_iff_toNat_lt, toNat_add_one rm]
  omega

abbrev Ends (limits : MqLimits) (policy : MqPolicy) (w : MqWorld) (action : OpenAction)
    (ended : Option (MqWorld × OpenAnswer)) : Prop :=
  ∃ after answer, ended = some (after, answer) ∧ Outcome limits policy w action after

theorem Alive.openLookup_ends (alive : Alive w) {clr : Caller} {args : OpenArgs}
    {name : List UInt8} {fd : Nat} {mq_new : Option Mqueue}
    (reqd : Requested limits w clr args name fd)
    (isNew : ∀ mq, mq_new = some mq → mq.mq_refcnt = 1 ∧ mq.mq_attrib.unlinked = false ∧
      w.p_mqueue_cnt clr.proc < limits.mq_open_max) :
    Ends limits policy w (.open clr args)
      (openLookup limits policy w clr name fd args mq_new) := by
  obtain ⟨fnd, lookedUp, spec⟩ := alive.lookup name
  have opens : OpensExisting limits policy w (.open clr args) →
      ∃ id mq, fnd = some (id, mq) ∧ args.excl = false ∧
        mqueueAccess policy mq args.read args.write clr = false := by
    rintro ⟨name', fd', id, mq, requested', lookedUp', notExcl, mayOpen⟩
    obtain rfl := Except.ok.inj (reqd.2.1.symm.trans requested'.2.1)
    exact ⟨id, mq, some.inj (lookedUp.symm.trans lookedUp'), notExcl, mayOpen⟩
  unfold openLookup
  rw [lookedUp]
  cases fnd with
  | none =>
    have oth : ¬ OpensExisting limits policy w (.open clr args) := by
      intro isOpened
      obtain ⟨_, _, hit, _⟩ := opens isOpened
      cases hit
    cases mq_new with
    | none => exact ⟨w, _, rfl, .unchanged oth⟩
    | some mq =>
      obtain ⟨fst, link, rm⟩ := isNew mq rfl
      have cnt : (w.setCount clr.proc (w.p_mqueue_cnt clr.proc + 1)).p_mqueue_cnt
          clr.proc = w.p_mqueue_cnt clr.proc + 1 := update_self ..
      have fits : ¬ limits.mq_open_max < w.p_mqueue_cnt clr.proc + 1 :=
        not_lt_add_one rm
      simp only [cnt, if_neg fits]
      exact ⟨_, _, rfl, .created clr fd args mq oth fst link rm⟩
  | some pair =>
    obtain ⟨id, mq⟩ := pair
    obtain ⟨hls, isQueue⟩ := spec id mq rfl
    by_cases excl : args.excl = true
    · simp only [if_pos excl]
      refine ⟨w, _, rfl, .unchanged fun isOpened => ?_⟩
      obtain ⟨_, _, _, notExcl, _⟩ := opens isOpened
      rw [excl] at notExcl
      cases notExcl
    simp only [if_neg excl]
    by_cases denied : mqueueAccess policy mq args.read args.write clr = true
    · simp only [if_pos denied]
      refine ⟨w, _, rfl, .unchanged fun isOpened => ?_⟩
      obtain ⟨_, _, same, _, mayOpen⟩ := opens isOpened
      obtain ⟨_, rfl⟩ := Prod.mk.inj (some.inj same)
      rw [denied] at mayOpen
      cases mayOpen
    · simp only [if_neg denied]
      exact ⟨_, _, rfl, .existing clr fd id args mq
        ⟨name, fd, id, mq, reqd, lookedUp, Bool.eq_false_of_not_eq_true excl,
          Bool.eq_false_of_not_eq_true denied⟩ hls isQueue⟩

theorem ends_early {error : Errno} (oth : ¬ OpensExisting limits policy w action) :
    Ends limits policy w action (some (w, .failed error)) :=
  ⟨w, _, rfl, .unchanged oth⟩

/-- Every way out of an open keeps the queues alive. -/
theorem Alive.mqHandleOpen_ends (alive : Alive w) {clr : Caller} {args : OpenArgs}
    {attr : Option MqAttrArg} (free : freeDescriptor w clr args = true)
    (copy : args.creat = true → args.attr = attr.map .ok) :
    Ends limits policy w (.open clr args) (mqHandleOpen limits policy w clr attr args) := by
  unfold mqHandleOpen
  cases named : args.name with
  | error error =>
    refine ends_early ?_
    rintro ⟨name, _, _, _, reqd, _⟩
    cases named.symm.trans reqd.2.1
  | ok name =>
    cases affixed : args.fd with
    | error error =>
      refine ends_early ?_
      rintro ⟨_, fd, _, _, reqd, _⟩
      cases affixed.symm.trans reqd.2.2.1
    | ok fd =>
      by_cases creat : args.creat = true
      · simp only [if_pos creat, mqueueCreate]
        by_cases full : limits.mq_open_max ≤ w.p_mqueue_cnt clr.proc
        · simp only [if_pos full]
          refine ends_early ?_
          rintro ⟨_, _, _, _, reqd, _⟩
          exact UInt32.not_le.mpr (reqd.2.2.2 creat).1 full
        simp only [if_neg full]
        by_cases empty : name = []
        · simp only [if_pos empty]
          refine ends_early ?_
          rintro ⟨name', _, _, _, reqd, _⟩
          obtain rfl := Except.ok.inj (named.symm.trans reqd.2.1)
          exact (reqd.2.2.2 creat).2.1 empty
        simp only [if_neg empty]
        by_cases invalid : attr.all (validAttr limits) = false
        · simp only [if_pos invalid]
          refine ends_early ?_
          rintro ⟨_, _, _, _, reqd, _⟩
          have valid := (reqd.2.2.2 creat).2.2
          rw [copy creat] at valid
          cases attr with
          | none => cases invalid
          | some attr =>
            obtain no | ⟨attr', same, isValid⟩ := valid
            · cases no
            · obtain rfl := Except.ok.inj (some.inj same)
              cases invalid.symm.trans isValid
        · simp only [if_neg invalid]
          have rm := UInt32.not_le.mp full
          refine alive.openLookup_ends ⟨free, named, affixed, fun _ => ⟨rm, empty, ?_⟩⟩ ?_
          · rw [copy creat]
            cases attr with
            | none => exact .inl rfl
            | some attr => exact .inr ⟨attr, rfl, Bool.eq_true_of_not_eq_false invalid⟩
          · intro mq same
            obtain rfl := some.inj same
            refine ⟨rfl, ?_, rm⟩
            cases attr <;> rfl
      · simp only [if_neg creat]
        exact alive.openLookup_ends
          ⟨free, named, affixed, fun isCreat => absurd isCreat creat⟩ nofun

theorem Alive.sysMqOpen_ends (alive : Alive w) (clr : Caller) (args : OpenArgs)
    (free : freeDescriptor w clr args = true) :
    Ends limits policy w (.open clr args) (sysMqOpen limits policy w clr args) := by
  unfold sysMqOpen
  by_cases creat : args.creat = true
  · rw [if_pos creat]
    cases copied : args.attr with
    | none => exact alive.mqHandleOpen_ends free fun _ => copied
    | some res =>
      cases res with
      | ok attr => exact alive.mqHandleOpen_ends free fun _ => copied
      | error error =>
        refine ends_early ?_
        rintro ⟨_, _, _, _, reqd, _⟩
        obtain no | ⟨attr, same, _⟩ := (reqd.2.2.2 creat).2.2
        · cases copied.symm.trans no
        · cases copied.symm.trans same
  · rw [if_neg creat]
    exact alive.mqHandleOpen_ends free fun isCreat => absurd isCreat creat

/-- Every way out of a close keeps the queues alive. -/
theorem Alive.sysMqClose_ends (alive : Alive w) (proc fd : Nat) :
    Ends limits policy w (.close proc fd) (sysMqClose w proc fd) := by
  unfold sysMqClose
  cases found : w.files.find? (fun file => decide (file.proc = proc ∧ file.fd = fd)) with
  | none => exact ends_early id
  | some file =>
    have isIn := mem_of_find?_eq_some found
    have matched := find?_some found
    simp only [decide_eq_true_eq] at matched
    have isMine : file.proc = proc := matched.1
    obtain ⟨mq, isQueue⟩ := alive.referred file isIn
    have pos := references_pos isIn
    rw [← alive.counted _ mq isQueue] at pos
    simp only [mqCloseFop]
    rw [isQueue]
    simp only [if_neg (ne_of_gt pos)]
    by_cases last : mq.mq_refcnt - 1 = 0 ∧ mq.mq_attrib.unlinked = true
    · have destroy : (decide (mq.mq_refcnt - 1 = 0) && mq.mq_attrib.unlinked) = true :=
        Bool.and_eq_true_iff.mpr ⟨decide_eq_true last.1, last.2⟩
      have out : Outcome limits policy w (.close proc fd) _ :=
        .lastClosed file mq id isIn isQueue last.2 (by omega)
      rw [isMine] at out
      refine ⟨_, .closed, ?_, out⟩
      simp only [if_pos destroy, mqueueDestroy, setQueue, update_self,
        update_idem, map_some]
      rfl
    have keep : ¬ (decide (mq.mq_refcnt - 1 = 0) && mq.mq_attrib.unlinked) = true := by
      intro destroy
      obtain ⟨zero, unl⟩ := Bool.and_eq_true_iff.mp destroy
      exact last ⟨of_decide_eq_true zero, unl⟩
    have out : Outcome limits policy w (.close proc fd) _ :=
      .closed file mq id isIn isQueue fun unl =>
        pos_of_ne_zero fun zero => last ⟨zero, unl⟩
    rw [isMine] at out
    refine ⟨_, .closed, ?_, out⟩
    simp only [if_neg keep]
    rfl

theorem Alive.sysMqUnlink_ends (alive : Alive w) (clr : Caller)
    (name : Except Errno (List UInt8)) :
    Ends limits policy w (.unlink clr name) (sysMqUnlink policy w clr name) := by
  unfold sysMqUnlink
  cases name with
  | error error => exact ends_early id
  | ok name =>
    obtain ⟨fnd, lookedUp, spec⟩ := alive.lookup name
    simp only [lookedUp]
    cases fnd with
    | none => exact ends_early id
    | some pair =>
      obtain ⟨id', mq⟩ := pair
      obtain ⟨hls, isQueue⟩ := spec id' mq rfl
      by_cases denied : policy.kauth_authorize_system clr mq = true
      · simp only [if_pos denied]
        exact ends_early id
      simp only [if_neg denied]
      by_cases fresh : mq.mq_refcnt = 0
      · simp only [if_pos fresh, mqueueDestroy, isQueue]
        exact ⟨_, _, rfl, .ended id' mq id hls isQueue fresh⟩
      · simp only [if_neg fresh]
        exact ⟨_, _, rfl, .unlinked id' mq id hls isQueue fresh⟩

theorem Alive.call_ends (alive : Alive w) (action : OpenAction) :
    Ends limits policy w action (w.call limits policy action) := by
  cases action with
  | «open» clr args =>
    by_cases free : freeDescriptor w clr args = true
    · simp only [call, if_pos free]
      exact alive.sysMqOpen_ends clr args free
    · simp only [call, if_neg free]
      refine ends_early ?_
      rintro ⟨_, _, _, _, reqd, _⟩
      exact free reqd.1
  | close proc fd => exact alive.sysMqClose_ends proc fd
  | unlink clr name => exact alive.sysMqUnlink_ends clr name

/-! ### The counts -/

theorem Exact.addOne (exact : Exact w) {proc : Nat} (rm : w.p_mqueue_cnt proc < bound)
    (cnt : s'.p_mqueue_cnt = update w.p_mqueue_cnt proc (w.p_mqueue_cnt proc + 1))
    (more : ∀ oth, descriptors s' oth = descriptors w oth + if proc = oth then 1 else 0) :
    Exact s' := by
  intro oth
  rw [cnt, more]
  by_cases same : proc = oth
  · rw [← same, update_self, toNat_add_one rm, exact proc, if_pos rfl]
  · rw [update_of_ne (Ne.symm same), exact oth, if_neg same, add_zero]

theorem Exact.subOne (exact : Exact w) {proc : Nat}
    (cnt : s'.p_mqueue_cnt = update w.p_mqueue_cnt proc (w.p_mqueue_cnt proc - 1))
    (less : ∀ oth, descriptors w oth = descriptors s' oth + if proc = oth then 1 else 0) :
    Exact s' := by
  intro oth
  rw [cnt]
  have prev := less oth
  rw [← exact oth] at prev
  by_cases same : proc = oth
  · rw [← same, update_self]
    rw [if_pos same, ← same] at prev
    have pos : 1 ≤ w.p_mqueue_cnt proc := by
      rw [UInt32.le_iff_toNat_le]
      change 1 ≤ _
      omega
    rw [UInt32.toNat_sub_of_le _ _ pos]
    change (w.p_mqueue_cnt proc).toNat - 1 = _
    omega
  · rw [update_of_ne (Ne.symm same), prev, if_neg same, add_zero]

theorem Outcome.exact_iff (out : Outcome limits policy w action s') (exact : Exact w) :
    Exact s' ↔ ¬ OpensExisting limits policy w action := by
  cases out with
  | unchanged oth | unlinked _ _ oth | ended _ _ oth => exact iff_of_true exact oth
  | existing clr fd id args mq isExisting _ _ =>
    refine iff_of_false (fun isExact => ?_) (not_not_intro isExisting)
    have prev := exact clr.proc
    have same : (w.p_mqueue_cnt clr.proc).toNat = _ := isExact clr.proc
    rw [descriptors_affix, if_pos rfl] at same
    change _ = descriptors w clr.proc + 1 at same
    omega
  | created clr fd args mq oth _ _ rm =>
    refine iff_of_true (exact.addOne rm rfl fun proc => ?_) oth
    exact descriptors_affix clr fd w.allocated proc args
  | closed file mq oth isIn _ _ =>
    exact iff_of_true (exact.subOne rfl fun proc => descriptors_dropFile isIn proc) oth
  | lastClosed file mq oth isIn _ _ _ =>
    exact iff_of_true (exact.subOne rfl fun proc => descriptors_dropFile isIn proc) oth

/-- The limit stops a process exactly when it has `mq_open_max` descriptors. -/
def LimitExact (limits : MqLimits) (w : MqWorld) : Prop :=
  ∀ caller name attr args, mqueueCreate limits w caller name attr args = .error .emfile ↔
    limits.mq_open_max.toNat ≤ descriptors w caller.proc

theorem Exact.limitExact (exact : Exact w) : LimitExact limits w := by
  intro clr name attr args
  rw [← exact clr.proc, mqueueCreate]
  by_cases full : limits.mq_open_max ≤ w.p_mqueue_cnt clr.proc
  · exact iff_of_true (if_pos full) full
  · refine iff_of_false ?_ full
    rw [if_neg full]
    split <;> [nofun; (split <;> nofun)]

end Call

/-! ### Runs -/

theorem alive_sysinit : Alive mqueueSysinit where
  listed := nofun
  distinct := nodup_nil
  counted := nofun
  held := nofun
  referred := nofun
  below := nofun
  ended := nofun
  past := nofun
  once := nodup_nil

section Runs

variable (limits : MqLimits) (policy : MqPolicy)

theorem step_alive {w : MqWorld} (alive : Alive w) (action : OpenAction) :
    ∃ s', w.step limits policy action = some s' ∧ Outcome limits policy w action s' ∧
      Alive s' := by
  obtain ⟨s', ans, hc, out⟩ := alive.call_ends action
  exact ⟨s', by rw [step, hc, map_some], out, out.alive alive⟩

theorem step_exact_iff {w : MqWorld} (action : OpenAction) (prev : Alive w ∧ Exact w) :
    (∃ s', w.step limits policy action = some s' ∧ Alive s' ∧ Exact s') ↔
      ¬ OpensExisting limits policy w action := by
  obtain ⟨alive, exact⟩ := prev
  obtain ⟨s', moved, out, isAlive⟩ := step_alive limits policy alive action
  rw [← out.exact_iff exact]
  constructor
  · rintro ⟨after', moved', _, isExact⟩
    obtain rfl := some.inj (moved.symm.trans moved')
    exact isExact
  · intro isExact
    exact ⟨s', moved, isAlive, isExact⟩

/-- References and destruction are right in every run; the counts and the limit are exactly as long
as no `mq_open` succeeds for a queue that is in the list. -/
theorem mqueue_accounting_iff (actions : List OpenAction) :
    (∃ reached, consume (fun w action => w.step limits policy action) actions mqueueSysinit =
        some reached ∧ Lifetimes reached) ∧
    ((∀ front, front <+: actions →
        ∃ reached, consume (fun w action => w.step limits policy action) front mqueueSysinit =
          some reached ∧ Exact reached ∧ LimitExact limits reached) ↔
      ∀ front action, front ++ [action] <+: actions →
        ∀ reached, consume (fun w action => w.step limits policy action) front mqueueSysinit =
          some reached → ¬ OpensExisting limits policy reached action) := by
  have always : ∀ front, ∃ reached,
      consume (fun w action => w.step limits policy action) front mqueueSysinit = some reached ∧
        Alive reached := fun front =>
    consume_invariant (fun w action => w.step limits policy action) Alive (fun _ _ => True)
      (fun w action alive _ =>
        (step_alive limits policy alive action).imp fun _ kept => ⟨kept.1, kept.2.2⟩)
      front alive_sysinit fun _ _ _ _ _ => trivial
  constructor
  · obtain ⟨reached, eaten, alive⟩ := always actions
    exact ⟨reached, eaten, alive.lifetimes⟩
  rw [← consume_invariant_iff (fun w action => w.step limits policy action)
    (fun w => Alive w ∧ Exact w) (fun w action => ¬ OpensExisting limits policy w action)
    (fun w action prev => step_exact_iff limits policy action prev) actions
    ⟨alive_sysinit, fun _ => rfl⟩]
  refine forall₂_congr fun front _ => ⟨?_, ?_⟩
  · rintro ⟨reached, eaten, exact, _⟩
    obtain ⟨reached', consumed', alive⟩ := always front
    obtain rfl := some.inj (eaten.symm.trans consumed')
    exact ⟨reached, eaten, alive, exact⟩
  · rintro ⟨reached, eaten, _, exact⟩
    exact ⟨reached, eaten, exact, exact.limitExact⟩

/-- A process that creates a queue and opens it once more has one descriptor too many for its
count, and closing both takes the count below 0. -/
theorem reopened_miscounted : let limits : MqLimits := ⟨512, 64, 16384, 32, 512, 1024, 56⟩
    let policy : MqPolicy := ⟨fun _ _ _ _ _ _ => false, fun _ _ => false⟩
    let create : OpenArgs := ⟨.ok [97], true, false, false, true, true, 0o600, none, .ok 3⟩
    let reopen : OpenArgs := ⟨.ok [97], false, false, false, true, true, 0, none, .ok 4⟩
    let opens : List OpenAction := [.open ⟨7, 0, 0, 0⟩ create, .open ⟨7, 0, 0, 0⟩ reopen]
    let run (actions : List OpenAction) : Option (UInt32 × Nat) :=
      (consume (fun w action => w.step limits policy action) actions mqueueSysinit).map
        fun w => (w.p_mqueue_cnt 7, descriptors w 7)
    run opens = some (1, 2) ∧ run (opens ++ [.close 7 3, .close 7 4]) = some (0xffffffff, 0) := by
  decide +kernel

end Runs

end NetBSD.Kern.SysMqueue
