import NetBSD.Kern.LockfSleep

/-!
Owns the system of calls and sleeping requests: no order of steps leaves a
request asleep without a lock that conflicts with it.
-/

namespace NetBSD.Kern.VfsLockf

open NetBSD.Machine Function List Option World

variable {φ : Type} {lock l : Lockf} {locks : List Lockf} {file : φ} {sls : List (Sleeper φ)}

/-! ### Joining and leaving a queue -/

def Requeues (change : Lockf → Lockf) : Prop := ∀ l, ∃ queue, change l = { l with lfBlkhd := queue }

variable {change : Lockf → Lockf}

theorem Requeues.same (req : Requeues change) (l : Lockf) :
    (change l).ident = l.ident ∧ (change l).lfId = l.lfId ∧ (change l).lfType = l.lfType ∧
      (change l).lfStart = l.lfStart ∧ (change l).lfEnd = l.lfEnd ∧ (change l).last = l.last := by
  obtain ⟨queue, isChange⟩ := req l
  rw [isChange]
  exact ⟨rfl, rfl, rfl, rfl, rfl, rfl⟩

theorem Requeues.conflicts (req : Requeues change) (rq l : Lockf) :
    Conflicts rq (change l) ↔ Conflicts rq l := by
  obtain ⟨queue, isChange⟩ := req l
  rw [isChange]
  exact Iff.rfl

theorem Consistent.requeue (good : Consistent locks) (req : Requeues change) :
    Consistent (locks.map change) := by
  refine ⟨?_, ?_, ?_, ?_⟩
  · intro m mem
    obtain ⟨l, hlk, rfl⟩ := mem_map.mp mem
    have ranged := good.ranged l hlk
    obtain ⟨_, _, _, beg, _, last⟩ := req.same l
    exact ⟨by rw [beg]; exact ranged.nonneg, by rw [beg, last]; exact ranged.ordered,
      by rw [last]; exact ranged.bounded⟩
  · rw [OwnSorted, pairwise_map]
    refine good.sorted.imp ?_
    intro left right order
    rw [(req.same left).2.1, (req.same right).2.1, Lockf.Precedes,
      (req.same left).2.2.2.2.2, (req.same right).2.2.2.1]
    exact order
  · intro left inL right inR differ ovl
    obtain ⟨l, hlk, rfl⟩ := mem_map.mp inL
    obtain ⟨r, inLocks', rfl⟩ := mem_map.mp inR
    obtain ⟨_, idL, typeL, startL, _, lastL⟩ := req.same l
    obtain ⟨_, idR, typeR, startR, _, lastR⟩ := req.same r
    rw [idL, idR] at differ
    rw [typeL, typeR]
    exact good.compatible l hlk r inLocks' differ
      (ovl.mono (le_of_eq startL.symm) (le_of_eq lastL) (le_of_eq startR.symm) (le_of_eq lastR))
  · intro m mem fp isFile
    obtain ⟨l, hlk, rfl⟩ := mem_map.mp mem
    obtain ⟨_, isId, _, beg, stop, _⟩ := req.same l
    rw [beg, stop]
    exact good.whole l hlk fp (by rw [← isId, isFile])

theorem Requeues.idents (req : Requeues change) :
    (locks.map change).map Lockf.ident = locks.map Lockf.ident := by
  rw [List.map_map]
  apply map_congr_left
  intro l _
  exact (req.same l).1

def joinQueue (ident block : Nat) (l : Lockf) : Lockf :=
  if l.ident = block then { l with lfBlkhd := l.lfBlkhd ++ [ident] } else l

def leaveQueue (ident block : Nat) (l : Lockf) : Lockf :=
  if l.ident = block then { l with lfBlkhd := l.lfBlkhd.erase ident } else l

theorem requeues_joinQueue (ident block : Nat) : Requeues (joinQueue ident block) := by
  intro l
  unfold joinQueue
  split
  · exact ⟨_, rfl⟩
  · exact ⟨l.lfBlkhd, rfl⟩

theorem requeues_leaveQueue (ident block : Nat) : Requeues (leaveQueue ident block) := by
  intro l
  unfold leaveQueue
  split
  · exact ⟨_, rfl⟩
  · exact ⟨l.lfBlkhd, rfl⟩

variable {slp : Sleeper φ}

section

variable (queues : Queues file locks sls)

include queues

theorem Queues.cons_elsewhere (oth : slp.lfHead ≠ file) :
    Queues file locks (slp :: sls) := by
  refine ⟨queues.distinct, queues.once, ?_, ?_⟩
  · intro l mem ident inq
    obtain ⟨wait, hin, tl⟩ := queues.waiting l mem ident inq
    exact ⟨wait, mem_cons_of_mem slp hin, tl⟩
  · intro wait mem isFile
    rcases mem_cons.mp mem with rfl | hin
    · exact absurd isFile oth
    · exact queues.asleep wait hin isFile

/-- A sleeper queued behind a conflicting lock waits for it. -/
theorem Queues.enqueue {slp : Sleeper φ} {block : Lockf} (hlk : block ∈ locks)
    (new : slp.lock.ident ∉ pending sls) (isFile : slp.lfHead = file)
    (zz : slp.woken = false) (next : slp.lfNext = some block.ident)
    (clash : Conflicts slp.lock block) :
    Queues file (VfsLockf.enqueue slp.lock.ident block.ident locks) (slp :: sls) := by
  have req := requeues_joinQueue slp.lock.ident block.ident
  have notQueued (l : Lockf) (mem : l ∈ locks) : slp.lock.ident ∉ l.lfBlkhd := by
    intro inq
    obtain ⟨wait, hin, same, _⟩ := queues.waiting l mem _ inq
    apply new
    rw [← same]
    exact mem_pending hin
  have grows (l : Lockf) : ∀ ident ∈ l.lfBlkhd,
      ident ∈ (joinQueue slp.lock.ident block.ident l).lfBlkhd := by
    intro ident inq
    unfold joinQueue
    split
    · exact mem_append_left _ inq
    · exact inq
  have follows (wait : Sleeper φ) (l : Lockf) (waits : WaitsFor wait l) :
      WaitsFor wait (joinQueue slp.lock.ident block.ident l) := by
    refine ⟨grows l _ waits.queued, ?_, (req.conflicts _ l).mpr waits.conflict⟩
    rw [(req.same l).1]
    exact waits.next
  have joined : WaitsFor slp (joinQueue slp.lock.ident block.ident block) := by
    refine ⟨?_, ?_, (req.conflicts _ block).mpr clash⟩
    · rw [joinQueue, if_pos rfl]
      exact mem_append_right _ (mem_singleton_self _)
    · rw [(req.same block).1]
      exact next
  refine ⟨?_, ?_, ?_, ?_⟩
  · have same : (VfsLockf.enqueue slp.lock.ident block.ident locks).map Lockf.ident =
        locks.map Lockf.ident := req.idents
    rw [same]
    exact queues.distinct
  · intro m mem
    obtain ⟨l, hin, rfl⟩ := mem_map.mp mem
    split
    · simp only
      rw [nodup_append]
      refine ⟨queues.once l hin, nodup_singleton _, ?_⟩
      intro ident inq oth isNew
      rw [mem_singleton.mp isNew]
      rintro rfl
      exact notQueued l hin inq
    · exact queues.once l hin
  · intro m mem ident inq
    obtain ⟨l, hin, rfl⟩ := mem_map.mp mem
    change ident ∈ (joinQueue slp.lock.ident block.ident l).lfBlkhd at inq
    by_cases old : ident ∈ l.lfBlkhd
    · obtain ⟨wait, inSleepers, isIdent, ofFile, notWoken, waits⟩ :=
        queues.waiting l hin ident old
      exact ⟨wait, mem_cons_of_mem slp inSleepers, isIdent, ofFile, notWoken,
        follows wait l waits⟩
    unfold joinQueue at inq
    split at inq
    · rename_i blk
      rcases mem_append.mp inq with inq | inq
      · exact absurd inq old
      · obtain rfl := lock_unique queues.distinct hin hlk blk
        exact ⟨slp, mem_cons_self, (mem_singleton.mp inq).symm, isFile, zz,
          joined⟩
    · exact absurd inq old
  · intro wait mem ofFile notWoken
    rcases mem_cons.mp mem with rfl | inSleepers
    · exact ⟨_, mem_map_of_mem hlk, joined⟩
    · obtain ⟨l, hin, waits⟩ := queues.asleep wait inSleepers ofFile notWoken
      exact ⟨_, mem_map_of_mem hin, follows wait l waits⟩

theorem Queues.erase (unqueued : ∀ l ∈ locks, slp.lock.ident ∉ l.lfBlkhd) :
    Queues file locks (sls.filter (·.lock.ident ≠ slp.lock.ident)) := by
  refine ⟨queues.distinct, queues.once, ?_, ?_⟩
  · intro l mem ident inq
    obtain ⟨wait, hin, rfl, tl⟩ := queues.waiting l mem ident inq
    refine ⟨wait, mem_filter.mpr ⟨hin, ?_⟩, rfl, tl⟩
    simp only [decide_eq_true_eq]
    intro same
    rw [same] at inq
    exact unqueued l mem inq
  · intro wait mem
    exact queues.asleep wait (mem_of_mem_filter mem)

/-- A sleeper taken off its queue leaves the others in order. -/
theorem Queues.dequeue (dist : (pending sls).Nodup) (mem : slp ∈ sls)
    {block : Lockf} (hlk : block ∈ locks) (waits : WaitsFor slp block) :
    Queues file (VfsLockf.dequeue slp.lock.ident block.ident locks)
      (sls.filter (·.lock.ident ≠ slp.lock.ident)) := by
  have req := requeues_leaveQueue slp.lock.ident block.ident
  have only := (queues.unique dist mem hlk waits.queued).2.2.2
  -- the other requests stay where they are, and this one is in no queue
  have queueIff (l : Lockf) (hin : l ∈ locks) (ident : Nat) :
      ident ∈ (leaveQueue slp.lock.ident block.ident l).lfBlkhd ↔
        ident ∈ l.lfBlkhd ∧ ident ≠ slp.lock.ident := by
    unfold leaveQueue
    split
    · simp only
      rw [(queues.once l hin).mem_erase_iff, and_comm]
    rename_i notBlock
    constructor
    · intro inq
      refine ⟨inq, ?_⟩
      rintro rfl
      rw [only l hin inq] at notBlock
      exact notBlock rfl
    · exact And.left
  have next (wait : Sleeper φ) (l : Lockf) (hin : l ∈ locks) (old : WaitsFor wait l)
      (oth : wait.lock.ident ≠ slp.lock.ident) :
      WaitsFor wait (leaveQueue slp.lock.ident block.ident l) := by
    refine ⟨(queueIff l hin _).mpr ⟨old.queued, oth⟩, ?_,
      (req.conflicts _ l).mpr old.conflict⟩
    rw [(req.same l).1]
    exact old.next
  refine ⟨?_, ?_, ?_, ?_⟩
  · have same : (VfsLockf.dequeue slp.lock.ident block.ident locks).map Lockf.ident =
        locks.map Lockf.ident := req.idents
    rw [same]
    exact queues.distinct
  · intro m inNew
    obtain ⟨l, hin, rfl⟩ := mem_map.mp inNew
    split
    · exact (queues.once l hin).erase _
    · exact queues.once l hin
  · intro m inNew ident inq
    obtain ⟨l, hin, rfl⟩ := mem_map.mp inNew
    obtain ⟨old, oth⟩ := (queueIff l hin ident).mp inq
    obtain ⟨wait, inSleepers, rfl, ofFile, zz, stillWaits⟩ :=
      queues.waiting l hin ident old
    exact ⟨wait, mem_filter.mpr ⟨inSleepers, by simpa using oth⟩, rfl, ofFile, zz,
      next wait l hin stillWaits oth⟩
  · intro wait inFiltered ofFile zz
    obtain ⟨inSleepers, oth⟩ := mem_filter.mp inFiltered
    obtain ⟨l, hin, old⟩ := queues.asleep wait inSleepers ofFile zz
    exact ⟨_, mem_map_of_mem hin, next wait l hin old (by simpa using oth)⟩

end

/-! ### The structures in hand -/

theorem pending_cons (slp : Sleeper φ) (sls : List (Sleeper φ)) :
    pending (slp :: sls) =
      (slp.lock.ident :: spareIdents slp.spare) ++ pending sls := rfl

theorem pending_append (left right : List (Sleeper φ)) :
    pending (left ++ right) = pending left ++ pending right := by
  simp [pending]

theorem filter_others {left right : List (Sleeper φ)}
    (dist : (pending (left ++ slp :: right)).Nodup) :
    (left ++ slp :: right).filter (·.lock.ident ≠ slp.lock.ident) = left ++ right := by
  have tl : ∀ oth ∈ left ++ right, oth.lock.ident ≠ slp.lock.ident := by
    intro oth inOthers same
    rw [pending_append, pending_cons] at dist
    have parts := nodup_middle.mp
      (show (pending left ++ slp.lock.ident :: (spareIdents slp.spare ++ pending right)).Nodup
        from dist)
    apply (nodup_cons.mp parts).1
    rw [← same]
    rcases mem_append.mp inOthers with inL | mem
    · exact mem_append_left _ (mem_pending inL)
    · exact mem_append_right _ (mem_append_right _ (mem_pending mem))
  rw [filter_append, filter_cons, if_neg (by simp), ← filter_append,
    filter_eq_self]
  intro oth inOthers
  simpa using tl oth inOthers

theorem pending_filter (dist : (pending sls).Nodup) (mem : slp ∈ sls) :
    (pending sls).Perm (pending (sls.filter (·.lock.ident ≠ slp.lock.ident)) ++
        (slp.lock.ident :: spareIdents slp.spare)) := by
  obtain ⟨left, right, rfl⟩ := append_of_mem mem
  rw [filter_others dist, pending_append, pending_append, append_assoc]
  exact Perm.append_left _ perm_append_comm

variable {w : World φ} {held held' : List Nat}

theorem Sound.congr {world' : World φ} (sound : Sound held w)
    (heads : world'.heads = w.heads) (same : world'.env.sleepers = w.env.sleepers)
    (fresh : world'.fresh = w.fresh) (fewer : List.Sublist held' held) : Sound held' world' := by
  have sub := (List.Sublist.refl (pending w.env.sleepers)).append fewer
  refine ⟨?_, ?_, ?_, ?_, ?_, ?_, ?_⟩
  · rw [heads]
    exact sound.consistent
  · rw [heads, same]
    exact sound.queues
  · rw [same]
    exact sound.proper
  · rw [same]
    exact sound.distinct.sublist sub
  · rw [heads, same]
    exact fun file l mem lst => sound.unlisted file l mem (sub.subset lst)
  · rw [heads, fresh]
    exact sound.bounded.1
  · rw [same, fresh]
    exact fun ident lst => sound.bounded.2 ident (sub.subset lst)

theorem freeSpare_sleepers (spare : Option Lockf) (w : World φ) :
    (freeSpare spare w).env.sleepers = w.env.sleepers := by
  cases spare <;> rfl

theorem freeSpare_fresh (spare : Option Lockf) (w : World φ) :
    (freeSpare spare w).fresh = w.fresh := by
  cases spare <;> rfl

theorem Sound.freeSpare (sound : Sound held w) (spare : Option Lockf) :
    Sound [] (VfsLockf.freeSpare spare w) :=
  sound.congr (freeSpare_heads spare w) (freeSpare_sleepers spare w)
    (freeSpare_fresh spare w) (nil_sublist held)

theorem Sound.lfFree (sound : Sound held w) (lock : Lockf) :
    Sound held { w with env := VfsLockf.lfFree w.env lock } :=
  sound.congr rfl rfl rfl (List.Sublist.refl held)

/-! ### Steps -/

/-- What `lf_setlock` is called with. -/
structure Ready (lock : Lockf) (spare : Option Lockf) : Prop where
  ranged : lock.Ranged
  whole : lock.Whole
  spared : ∀ pid, lock.lfId = .proc pid → spare ≠ none
  unqueued : lock.lfBlkhd = []

theorem Sleeper.Proper.ready (prop : slp.Proper) : Ready slp.lock slp.spare :=
  ⟨prop.ranged, prop.whole, prop.spared, prop.unqueued⟩

/-- The lock request cuts an own lock at the largest byte only if that lock covers it, or is
refused. -/
def GrantFits (lock : Lockf) (locks : List Lockf) : Prop :=
  ∀ l ∈ locks, Cuts lock l →
    (l.lfStart ≤ lock.lfStart ∧ l.lfType = lock.lfType) ∨ ∃ m ∈ locks, Conflicts lock m

section Steps

variable [DecidableEq φ] {spare : Option Lockf}

/-- Going to sleep keeps the queues sound. -/
theorem Sound.sleep (sound : Sound (lock.ident :: spareIdents spare) w)
    (ready : Ready lock spare) {block : Lockf} (hlk : block ∈ w.heads file)
    (clash : Conflicts lock block) : Sound [] { w with
      heads := Function.update w.heads file (enqueue lock.ident block.ident (w.heads file))
      env := { w.env with
        sleepers := ⟨lock, file, spare, some block.ident, false⟩ :: w.env.sleepers } } := by
  have req := requeues_joinQueue lock.ident block.ident
  have perm : (pending w.env.sleepers ++ (lock.ident :: spareIdents spare)).Perm
      (lock.ident :: spareIdents spare ++ pending w.env.sleepers) := perm_append_comm
  have newIdent : lock.ident ∉ pending w.env.sleepers := by
    have parts := nodup_middle.mp sound.distinct
    exact fun lst => (nodup_cons.mp parts).1 (mem_append_left _ lst)
  refine ⟨?_, ?_, ?_, ?_, ?_, ?_, ?_⟩
  · exact consistent_update sound.consistent ((sound.consistent file).requeue req)
  · intro oth
    by_cases same : oth = file
    · rw [same]
      simp only [update_self]
      exact @Queues.enqueue φ _ file _ (sound.queues file)
        ⟨lock, file, spare, some block.ident, false⟩ block hlk newIdent rfl rfl rfl clash
    · simp only [update_of_ne same]
      exact (sound.queues oth).cons_elsewhere (Ne.symm same)
  · exact forall_mem_cons.mpr ⟨⟨ready.ranged, ready.whole, ready.spared, ready.unqueued, by simp⟩, sound.proper⟩
  · rw [append_nil]
    exact perm.nodup sound.distinct
  · intro oth l mem
    rw [append_nil, pending_cons, ← perm.mem_iff]
    by_cases same : oth = file
    · rw [same] at mem
      simp only [update_self] at mem
      obtain ⟨old, hin, rfl⟩ := mem_map.mp mem
      have sameIdent := (req.same old).1
      unfold joinQueue at sameIdent
      rw [sameIdent]
      exact sound.unlisted file old hin
    · simp only [update_of_ne same] at mem
      exact sound.unlisted oth l mem
  · intro oth l mem
    by_cases same : oth = file
    · rw [same] at mem
      simp only [update_self] at mem
      obtain ⟨old, hin, rfl⟩ := mem_map.mp mem
      have sameIdent := (req.same old).1
      unfold joinQueue at sameIdent
      rw [sameIdent]
      exact sound.bounded.1 file old hin
    · simp only [update_of_ne same] at mem
      exact sound.bounded.1 oth l mem
  · intro ident lst
    rw [append_nil, pending_cons, ← perm.mem_iff] at lst
    exact sound.bounded.2 ident lst

omit [DecidableEq φ] in
theorem Sound.deadlocked (sound : Sound held w) (threaded : Nat → Bool) (curproc : Owner)
    (fuel p : Nat) : ∃ ans, VfsLockf.deadlocked threaded curproc w fuel p = some ans := by
  induction fuel generalizing p with
  | zero => exact ⟨true, rfl⟩
  | succ fuel ih =>
    rw [VfsLockf.deadlocked]
    split
    · exact ⟨_, rfl⟩
    split
    · exact ⟨_, rfl⟩
    rename_i wait fnd
    have mem := mem_of_find?_eq_some fnd
    have isAsleep := find?_some fnd
    simp only [decide_eq_true_eq] at isAsleep
    obtain ⟨l, hlk, waits⟩ :=
      (sound.queues wait.lfHead).asleep wait mem rfl isAsleep.2
    obtain ⟨waitblock, blk⟩ : ∃ waitblock,
        (w.heads wait.lfHead).find? (·.ident = l.ident) = some waitblock := by
      rw [← isSome_iff_exists, find?_isSome]
      exact ⟨l, hlk, by simp⟩
    simp only [waits.next, bind_eq_bind, bind_some, blk]
    split
    · exact ⟨_, rfl⟩
    · split
      · exact ⟨_, rfl⟩
      · exact ih _

omit [DecidableEq φ] in
theorem Sound.detected (sound : Sound held w) (threaded : Nat → Bool) (lock block : Lockf) :
    ∃ ans, VfsLockf.detected threaded w lock block = some ans := by
  unfold VfsLockf.detected
  split
  · exact sound.deadlocked threaded _ _ _
  · exact ⟨_, rfl⟩

omit [DecidableEq φ] in
theorem Sound.spareNew (sound : Sound held w) (inHand : ∀ ident ∈ spareIdents spare, ident ∈ held)
    (suff : EnoughFor spare lock (w.heads file)) :
    SpareNew (spareId spare) lock (w.heads file) := by
  cases isSpare : spare with
  | none => exact Or.inr (suff isSpare)
  | some given =>
    left
    intro l mem same
    apply sound.unlisted file l mem
    apply mem_append_right
    apply inHand
    rw [isSpare, same]
    exact mem_singleton_self _

omit [DecidableEq φ] in
theorem EnoughFor.remains_ident (suff : EnoughFor spare lock locks) {m : Lockf}
    (mem : m ∈ locks.flatMap (remains (spareId spare) lock)) :
    (∃ l ∈ locks, m.ident = l.ident) ∨ m.ident ∈ spareIdents spare := by
  obtain ⟨l, hlk, piece⟩ := mem_flatMap.mp mem
  rcases ident_of_mem_remains piece with same | ⟨isSpare, isHit, prev, s'⟩
  · exact Or.inl ⟨l, hlk, same⟩
  right
  cases given : spare with
  | none => exact absurd ⟨prev, s'⟩ (suff given l hlk isHit)
  | some given' =>
    rw [isSpare, given]
    exact mem_singleton_self _

theorem Sound.clear {env' : Env φ} (sound : Sound held w) (lrng : lock.Ranged)
    (whole : lock.Whole) (suff : EnoughFor spare lock (w.heads file))
    (inHand : ∀ ident ∈ spareIdents spare, ident ∈ held)
    (woken : env'.sleepers = wake (hitQueue lock (w.heads file)) w.env.sleepers)
    (fewer : List.Sublist held' held) (spareGone : ∀ ident ∈ spareIdents spare, ident ∉ held') :
    Sound held' { w with
      heads := Function.update w.heads file
        ((w.heads file).flatMap (remains (spareId spare) lock))
      env := env' } := by
  have dist := (nodup_append.mp sound.distinct).1
  have queues := (sound.queues file).clear dist (sound.consistent file) lrng
    (sound.spareNew inHand suff)
  refine sound.update woken (settles_wakeOne ?_)
    ((sound.consistent file).remains lrng whole) queues fewer ?_
  · intro slp mem inq
    obtain ⟨l, hlk, _, inQueue⟩ := mem_hitQueue.mp inq
    exact ((sound.queues file).unique dist mem hlk inQueue).1
  intro m mem
  have sub := (List.Sublist.refl (pending w.env.sleepers)).append fewer
  rcases suff.remains_ident mem with ⟨l, hlk, same⟩ | isSpare
  · rw [same]
    exact ⟨fun lst => sound.unlisted file l hlk (sub.subset lst),
      sound.bounded.1 file l hlk⟩
  have isHeld := inHand _ isSpare
  refine ⟨?_, sound.bounded.2 _ (mem_append_right _ isHeld)⟩
  intro lst
  rcases mem_append.mp lst with inPending | inHeld
  · exact disjoint_of_nodup_append sound.distinct inPending isHeld
  · exact spareGone _ isSpare inHeld

/-- A granted lock keeps the lists and queues sound. -/
theorem Sound.place {env' : Env φ} {res : List Lockf}
    (sound : Sound (lock.ident :: spareIdents spare) w) (ready : Ready lock spare)
    (suff : EnoughFor spare lock (w.heads file))
    (at' : Placed lock (spareId spare) (w.heads file) w.env.sleepers res env'.sleepers)
    (free : ∀ l ∈ w.heads file, ¬ Conflicts lock l) :
    Sound [] { w with heads := Function.update w.heads file res, env := env' } := by
  have dist := (nodup_append.mp sound.distinct).1
  have heldDistinct := (nodup_append.mp sound.distinct).2.1
  have notPending : ∀ ident ∈ lock.ident :: spareIdents spare,
      ident ∉ pending w.env.sleepers ∧ ident < w.fresh := by
    intro ident isHeld
    exact ⟨fun lst => disjoint_of_nodup_append sound.distinct lst isHeld,
      sound.bounded.2 ident (mem_append_right _ isHeld)⟩
  have listedFine : ∀ l ∈ w.heads file,
      l.ident ∉ pending w.env.sleepers ∧ l.ident < w.fresh := by
    intro l mem
    exact ⟨fun lst => sound.unlisted file l mem (mem_append_left _ lst),
      sound.bounded.1 file l mem⟩
  have pieceFine : ∀ m ∈ (w.heads file).flatMap (remains (spareId spare) lock),
      (m.ident ∉ pending w.env.sleepers ∧ m.ident < w.fresh) ∧ m.ident ≠ lock.ident := by
    intro m mem
    rcases suff.remains_ident mem with ⟨l, hlk, same⟩ | isSpare
    · rw [same]
      refine ⟨listedFine l hlk, ?_⟩
      intro lck
      apply sound.unlisted file l hlk
      rw [lck]
      exact mem_append_right _ mem_cons_self
    · refine ⟨notPending _ (mem_cons_of_mem _ isSpare), ?_⟩
      intro lck
      rw [lck] at isSpare
      exact (nodup_cons.mp heldDistinct).1 isSpare
  obtain ⟨queues, change, done, settles⟩ := (sound.queues file).placed dist
    (sound.consistent file) ready.ranged at'
    (sound.spareNew (fun ident mem => mem_cons_of_mem _ mem) suff) ready.unqueued
    (fun m mem => (pieceFine m mem).2)
  rw [done] at queues
  refine sound.update done settles
    (at'.keepsConsistent (sound.consistent file) ready.ranged ready.whole free) queues
    (nil_sublist _) ?_
  intro m mem
  rw [append_nil]
  rcases ident_of_mem_placed at' mem with same | inRemains | hlk
  · rw [same]
    exact notPending _ mem_cons_self
  · obtain ⟨piece, isPiece, same⟩ := mem_map.mp inRemains
    rw [← same]
    exact (pieceFine piece isPiece).1
  · obtain ⟨old, isOld, same⟩ := mem_map.mp hlk
    rw [← same]
    exact listedFine old isOld

theorem Sound.giveUp (sound : Sound held w) (ready : Ready lock spare) {block : Lockf}
    (mem : block ∈ w.heads file) (oth : block.lfId ≠ lock.lfId) : ∃ locks' spare' env',
      VfsLockf.giveUp lock (w.heads file) w.env = some (locks', spare', env') ∧
      block ∈ locks' ∧
      Sound held { w with heads := Function.update w.heads file locks', env := env' } := by
  unfold VfsLockf.giveUp
  split
  · rename_i fp isFile _
    have wholeLock := ready.whole fp isFile
    have suff : EnoughFor none lock (w.heads file) :=
      enough_of_proper (sound.consistent file) ready.whole
        (fun pid isProc => by rw [isFile] at isProc; exact Owner.noConfusion isProc) ready.ranged
    obtain ⟨spare', env', clrd, woken⟩ := lfClearlock_eq (sound.consistent file) ready.ranged
      suff (fun l _ cut => by
        have atEnd := cut.2.1
        rw [wholeLock.2] at atEnd
        exact absurd atEnd (by decide)) w.env
    refine ⟨_, spare', env', clrd, ?_, ?_⟩
    · apply mem_remains_of_not_hit mem
      simp [hit, oth]
    · apply sound.clear ready.ranged ready.whole suff _ woken (List.Sublist.refl held)
      · simp [spareIdents]
      · simp [spareIdents]
  · refine ⟨_, none, w.env, rfl, mem, ?_⟩
    rw [update_eq_self]
    exact sound

/-- A set request ends, in a sound state. -/
theorem Sound.lfSetlock (sound : Sound (lock.ident :: spareIdents spare) w)
    (ready : Ready lock spare) (fits : GrantFits lock (w.heads file)) (threaded : Nat → Bool)
    (wait : Bool) : ∃ out spare' world',
      VfsLockf.lfSetlock threaded w file lock wait spare = some (out, spare', world') ∧
      Sound [] world' := by
  have good := sound.consistent file
  have suff : EnoughFor spare lock (w.heads file) :=
    enough_of_proper good ready.whole ready.spared ready.ranged
  unfold VfsLockf.lfSetlock
  rcases lfGetblock_spec ready.ranged good.ranged (le_refl _) with ⟨ans, free⟩ |
    ⟨block, hlk, ans, blk⟩
  · have noConflict : ∀ l ∈ w.heads file, ¬ Conflicts lock l := by
      intro l mem clash
      exact free l mem ((blocks_iff (good.ranged l mem) ready.ranged).mpr clash)
    have setFits : SetFits lock (w.heads file) := by
      intro l mem cut
      rcases fits l mem cut with cov | ⟨m, inM, clash⟩
      · exact cov
      · exact absurd clash (noConflict m inM)
    obtain ⟨res, spare', env', loop, at'⟩ := lfSetLoop_placed ready.ranged
      good.ranged good.sorted setFits suff (Nat.lt_succ_self _) [] w.env
    refine ⟨.ok, spare', _, by simp only [ans, loop]; rfl, ?_⟩
    exact sound.place ready suff at' noConflict
  have clash := (blocks_iff (good.ranged block hlk) ready.ranged).mp blk
  simp only [ans]
  by_cases noWait : wait = false
  · rw [if_pos noWait]
    exact ⟨_, _, _, rfl, sound.congr rfl rfl rfl (nil_sublist _)⟩
  rw [if_neg noWait]
  obtain ⟨fnd, hit⟩ := sound.detected threaded lock block
  cases fnd with
  | true =>
    simp only [hit]
    exact ⟨_, _, _, rfl, sound.congr rfl rfl rfl (nil_sublist _)⟩
  | false =>
    obtain ⟨locks', spare', env', gaveUp, stillThere, kept⟩ :=
      sound.giveUp ready hlk clash.1
    simp only [hit, gaveUp, map_some]
    have hin : block ∈ Function.update w.heads file locks' file := by
      rw [update_self]
      exact stillThere
    simpa using kept.sleep ready hin clash

/-- The request does not cut an own lock up to the end of the file at the largest byte. -/
def OpFits (op : Op) (lock : Lockf) (locks : List Lockf) : Prop :=
  match op with
  | .setlk => GrantFits lock locks
  | .unlck => ∀ l ∈ locks, ¬ Cuts lock l
  | .getlk => True

theorem Sound.lfOperate (sound : Sound (lock.ident :: spareIdents spare) w) {op : Op}
    (ranged : lock.Ranged) (ready : op ≠ .getlk → Ready lock spare)
    (fits : OpFits op lock (w.heads file)) (threaded : Nat → Bool) (wait : Bool) :
    ∃ out world',
      VfsLockf.lfOperate threaded w op file lock wait spare = some (out, world') ∧
      Sound [] world' := by
  unfold VfsLockf.lfOperate
  split
  · exact ⟨_, _, rfl, (sound.lfFree lock).freeSpare spare⟩
  cases op with
  | setlk =>
    obtain ⟨out, spare', world', set, kept⟩ :=
      sound.lfSetlock (ready (by simp)) fits threaded wait
    simp only [set]
    exact ⟨_, _, rfl, kept.freeSpare spare'⟩
  | unlck =>
    have ready := ready (by simp)
    have suff : EnoughFor spare lock (w.heads file) :=
      enough_of_proper (sound.consistent file) ready.whole ready.spared ready.ranged
    obtain ⟨spare', env', clrd, woken⟩ :=
      lfClearlock_eq (sound.consistent file) ready.ranged suff fits w.env
    simp only [clrd]
    refine ⟨_, _, rfl, Sound.freeSpare (?_ : Sound [] _) spare'⟩
    exact sound.clear ready.ranged ready.whole suff
      (fun ident mem => mem_cons_of_mem _ mem) woken (nil_sublist _) (by simp)
  | getlk =>
    rcases lfGetblock_spec ranged (sound.consistent file).ranged (le_refl _) with
      ⟨ans, _⟩ | ⟨block, _, ans, _⟩ <;>
    · simp only [ans]
      exact ⟨_, _, rfl, (sound.lfFree lock).freeSpare spare⟩

omit [DecidableEq φ] in
theorem Sound.alloc {world' : World φ} (sound : Sound held w)
    (heads : world'.heads = w.heads) (same : world'.env.sleepers = w.env.sleepers)
    (fresh : world'.fresh = w.fresh + 1) : Sound (w.fresh :: held) world' := by
  have notListed : w.fresh ∉ pending w.env.sleepers ++ held :=
    fun lst => absurd (sound.bounded.2 _ lst) (lt_irrefl _)
  refine ⟨?_, ?_, ?_, ?_, ?_, ?_, ?_⟩
  · rw [heads]
    exact sound.consistent
  · rw [heads, same]
    exact sound.queues
  · rw [same]
    exact sound.proper
  · rw [same, nodup_middle, nodup_cons]
    exact ⟨notListed, sound.distinct⟩
  · rw [heads, same]
    intro file l mem lst
    rcases mem_append.mp lst with inPending | inHeld
    · exact sound.unlisted file l mem (mem_append_left _ inPending)
    · rcases mem_cons.mp inHeld with isFresh | inHeld
      · have bound := sound.bounded.1 file l mem
        omega
      · exact sound.unlisted file l mem (mem_append_right _ inHeld)
  · rw [heads]
    intro file l mem
    have bound := sound.bounded.1 file l mem
    omega
  · rw [same]
    intro ident lst
    rcases mem_append.mp lst with inPending | inHeld
    · have bound := sound.bounded.2 ident (mem_append_left _ inPending)
      omega
    · rcases mem_cons.mp inHeld with rfl | inHeld
      · omega
      · have bound := sound.bounded.2 ident (mem_append_right _ inHeld)
        omega

omit [DecidableEq φ] in
theorem Sound.lfAlloc (sound : Sound held w) (uid allowfail : Nat) :
    (VfsLockf.lfAlloc w uid allowfail = (none, w)) ∨
      ∃ lock world', VfsLockf.lfAlloc w uid allowfail = (some lock, world') ∧
        lock.ident = w.fresh ∧ lock.lfBlkhd = [] ∧ world'.heads = w.heads ∧
        Sound (w.fresh :: held) world' := by
  unfold VfsLockf.lfAlloc
  generalize (if allowfail = 1 then maxlocksperuid else maxlocksperuid * 2) = limit
  simp only
  split
  · exact Or.inl rfl
  · exact Or.inr ⟨_, _, rfl, rfl, rfl, rfl, sound.alloc rfl rfl rfl⟩

omit [DecidableEq φ] in
theorem Sound.lfAlloc_always (sound : Sound held w) (uid : Nat) :
    ∃ lock world', VfsLockf.lfAlloc w uid 0 = (some lock, world') ∧
      lock.ident = w.fresh ∧ world'.heads = w.heads ∧
      Sound (w.fresh :: held) world' := by
  rcases sound.lfAlloc uid 0 with bad | ⟨lock, world', given, isFresh, _, heads, kept⟩
  · simp [VfsLockf.lfAlloc] at bad
  · exact ⟨lock, world', given, isFresh, heads, kept⟩

end Steps

/-! ### Runs -/

theorem off_le (v : Int) : off v ≤ offMax := by
  have bound := Int.bmod_lt (x := v) (show 0 < 2 ^ 64 by decide)
  unfold off offMax
  omega

/-- What the callers of `lf_advlock` promise: offsets of type `off_t`, and the whole file for
`flock`. -/
structure Call.Proper (call : Call φ) : Prop where
  start_le : call.lStart ≤ offMax
  whole : ∀ fp, call.id = .file fp → call.lWhence = .set ∧ call.lStart = 0 ∧ call.lLen = 0

def Call.lockOf (call : Call φ) (start stop : Int) : Lockf :=
  ⟨0, call.lType, start, stop, call.id, [], call.euid⟩

/-- The range does not overflow, and the request does not cut an own lock up to the end of the
file at the largest byte. -/
def Call.Fits (call : Call φ) (world : World φ) : Prop :=
  ∀ start stop, call.range = some (start, stop) → (stop = -1 ∨ start ≤ stop) ∧
      OpFits call.op (call.lockOf start stop) (world.heads call.file)

theorem ends_bounds {beg : Int} (len : Int) (startLe : beg ≤ offMax) :
    (ends beg len).1 ≤ offMax ∧ ((ends beg len).2 = -1 ∨ (ends beg len).2 ≤ offMax) := by
  unfold ends
  split
  · exact ⟨startLe, Or.inl rfl⟩
  · split
    · exact ⟨startLe, Or.inr (off_le _)⟩
    · exact ⟨off_le _, Or.inr (off_le _)⟩

variable {call : Call φ}

theorem Call.range_bounds (prop : call.Proper) {start stop : Int}
    (isRange : call.range = some (start, stop)) :
    0 ≤ start ∧ start ≤ offMax ∧ (stop = -1 ∨ stop ≤ offMax) ∧
      ∀ fp, call.id = .file fp → start = 0 ∧ stop = -1 := by
  obtain ⟨first, fst, tl⟩ := bind_eq_some_iff.mp isRange
  have firstLe : first ≤ offMax := by
    unfold Call.origin at fst
    split at fst
    · rw [← some.inj fst]
      exact prop.start_le
    · rw [← some.inj fst]
      exact prop.start_le
    · rw [← some.inj fst]
      exact off_le _
    · exact absurd fst (by simp)
  split at tl
  · exact absurd tl (by simp)
  rename_i nonneg
  have isEnds := some.inj tl
  have beg : (ends first call.lLen).1 = start := by rw [isEnds]
  have isStop : (ends first call.lLen).2 = stop := by rw [isEnds]
  have bnds := ends_bounds call.lLen firstLe
  rw [beg, isStop] at bnds
  rw [beg] at nonneg
  refine ⟨by simpa using nonneg, bnds.1, bnds.2, ?_⟩
  intro fp isFile
  obtain ⟨whence, lStart, lLen⟩ := prop.whole fp isFile
  simp only [Call.origin, whence, lStart, some.injEq] at fst
  rw [← beg, ← isStop, ends, if_pos lLen]
  exact ⟨fst.symm, rfl⟩

theorem Call.ranged (prop : call.Proper) {beg stop : Int}
    (isRange : call.range = some (beg, stop)) (fits : stop = -1 ∨ beg ≤ stop) :
    (call.lockOf beg stop).Ranged ∧ (call.lockOf beg stop).Whole := by
  obtain ⟨nonneg, startLe, stopLe, whole⟩ := Call.range_bounds prop isRange
  have lastLock := last_cases (call.lockOf beg stop)
  simp only [Call.lockOf] at lastLock
  refine ⟨⟨nonneg, ?_, ?_⟩, whole⟩
  · simp only [Call.lockOf]
    omega
  · simp only [Call.lockOf]
    omega

section Run

variable [DecidableEq φ]

/-- Every call that fits ends, in a sound state. -/
theorem Sound.lfAdvlock (sound : Sound [] w) (prop : call.Proper) (fits : call.Fits w)
    (threaded : Nat → Bool) :
    ∃ out world', VfsLockf.lfAdvlock threaded w call = some (out, world') ∧
      Sound [] world' := by
  unfold VfsLockf.lfAdvlock
  cases isRange : call.range with
  | none => exact ⟨_, _, rfl, sound⟩
  | some ends =>
    obtain ⟨beg, stop⟩ := ends
    obtain ⟨ord, opFits⟩ := fits beg stop isRange
    obtain ⟨ranged, whole⟩ := Call.ranged prop isRange ord
    -- a spare lock for byte ranges
    obtain ⟨spare, spared, isSpared, needed, sameHeads, kept⟩ : ∃ spare spared,
        (if needsSpare call then VfsLockf.lfAlloc w call.euid 0 else (none, w)) =
          (spare, spared) ∧
        (needsSpare call = true → spare ≠ none) ∧ spared.heads = w.heads ∧
        Sound (spareIdents spare) spared := by
      split
      · obtain ⟨lock, world', given, isFresh, heads, kept⟩ := sound.lfAlloc_always call.euid
        refine ⟨some lock, world', given, by simp, heads, ?_⟩
        rw [← isFresh] at kept
        exact kept
      · exact ⟨none, w, rfl, by simp_all, rfl, sound⟩
    simp only [isSpared]
    rcases kept.lfAlloc call.euid (allowfail call.op beg stop) with bad |
      ⟨lock, world', given, isFresh, empty, heads, alloc⟩
    · simp only [bad]
      exact ⟨_, _, rfl, kept.freeSpare spare⟩
    simp only [given]
    rw [← isFresh] at alloc
    have inHand : Sound (({ lock with
        lfType := call.lType, lfStart := beg, lfEnd := stop, lfId := call.id } : Lockf).ident ::
        spareIdents spare) world' := alloc
    have lrng : ({ lock with
        lfType := call.lType, lfStart := beg, lfEnd := stop, lfId := call.id } : Lockf).Ranged :=
      ⟨ranged.nonneg, ranged.ordered, ranged.bounded⟩
    refine inHand.lfOperate lrng ?_ ?_ threaded call.wait
    · intro notGet
      refine ⟨lrng, whole, ?_, empty⟩
      intro pid isProc
      apply needed
      simp only at isProc
      unfold needsSpare
      cases isOp : call.op with
      | getlk => exact absurd isOp notGet
      | setlk | unlck => simp [isProc]
    · rw [heads, sameHeads]
      exact opFits

theorem withdrawn_requeues (heads : φ → List Lockf) (slp : Sleeper φ) (file : φ) :
    ∃ change, Requeues change ∧ withdrawn heads slp file = (heads file).map change := by
  have unch : heads file = (heads file).map id := (map_id _).symm
  have requeuesId : Requeues id := fun l => ⟨l.lfBlkhd, rfl⟩
  unfold withdrawn
  cases slp.lfNext with
  | none => exact ⟨id, requeuesId, unch⟩
  | some block =>
    by_cases same : file = slp.lfHead
    · subst same
      exact ⟨_, requeues_leaveQueue slp.lock.ident block, update_self _ _ _⟩
    · refine ⟨id, requeuesId, ?_⟩
      simp only [update_of_ne same]
      exact unch

theorem Sound.queues_withdrawn (sound : Sound [] w) (mem : slp ∈ w.env.sleepers)
    (file : φ) : Queues file (withdrawn w.heads slp file)
      (w.env.sleepers.filter (·.lock.ident ≠ slp.lock.ident)) := by
  have dist : (pending w.env.sleepers).Nodup := by simpa using sound.distinct
  unfold withdrawn
  cases next : slp.lfNext with
  | none =>
    refine (sound.queues file).erase ?_
    intro l hlk inq
    have waits := ((sound.queues file).unique dist mem hlk inq).2.2.1
    rw [waits.next] at next
    exact absurd next (by simp)
  | some block =>
    by_cases same : file = slp.lfHead
    · subst same
      -- the request is in the queue of this lock, since `lf_next` is set
      have isAsleep : slp.woken = false := by
        by_contra isWoken
        have unl := (sound.proper slp mem).unlinked (by simpa using isWoken)
        rw [unl] at next
        exact absurd next (by simp)
      obtain ⟨l, hlk, waits⟩ :=
        (sound.queues slp.lfHead).asleep slp mem rfl isAsleep
      rw [waits.next] at next
      rw [← some.inj next]
      simp only [update_self]
      exact (sound.queues slp.lfHead).dequeue dist mem hlk waits
    · simp only [update_of_ne same]
      refine (sound.queues file).erase ?_
      intro l hlk inq
      exact same ((sound.queues file).unique dist mem hlk inq).1.symm

theorem Sound.withdraw (sound : Sound [] w) (mem : slp ∈ w.env.sleepers) :
    Sound (slp.lock.ident :: spareIdents slp.spare) (w.withdraw slp) := by
  have dist : (pending w.env.sleepers).Nodup := by simpa using sound.distinct
  have perm := pending_filter dist mem
  have lst (file : φ) (m : Lockf) (inNew : m ∈ (w.withdraw slp).heads file) :
      ∃ l ∈ w.heads file, m.ident = l.ident := by
    obtain ⟨change, req, isChange⟩ := withdrawn_requeues w.heads slp file
    simp only [World.withdraw, isChange] at inNew
    obtain ⟨l, hlk, rfl⟩ := mem_map.mp inNew
    exact ⟨l, hlk, (req.same l).1⟩
  refine ⟨?_, sound.queues_withdrawn mem, ?_, perm.nodup dist, ?_, ?_, ?_⟩
  · intro file
    obtain ⟨change, req, isChange⟩ := withdrawn_requeues w.heads slp file
    simp only [World.withdraw, isChange]
    exact (sound.consistent file).requeue req
  · intro oth inOthers
    exact sound.proper oth (mem_of_mem_filter inOthers)
  · intro file m inNew inHand
    obtain ⟨l, hlk, same⟩ := lst file m inNew
    rw [same] at inHand
    exact sound.unlisted file l hlk (mem_append_left _ (perm.mem_iff.mpr inHand))
  · intro file m inNew
    obtain ⟨l, hlk, same⟩ := lst file m inNew
    rw [same]
    exact sound.bounded.1 file l hlk
  · intro ident inHand
    exact sound.bounded.2 ident (mem_append_left _ (perm.mem_iff.mpr inHand))

/-- The sleeping request that is granted does not cut an own lock at the largest byte. -/
def ResumeFits (world : World φ) (ident : Nat) : Prop :=
  ∀ sleeper ∈ world.env.sleepers, sleeper.lock.ident = ident → sleeper.woken = true →
    GrantFits sleeper.lock (world.heads sleeper.lfHead)

theorem GrantFits.requeue (fits : GrantFits lock locks) (req : Requeues change) :
    GrantFits lock (locks.map change) := by
  intro m mem cut
  obtain ⟨l, hlk, rfl⟩ := mem_map.mp mem
  obtain ⟨_, isId, isType, beg, isEnd, _⟩ := req.same l
  unfold Cuts at cut
  rw [isId, isEnd] at cut
  rw [beg, isType]
  rcases fits l hlk cut with cov | ⟨m, inM, clash⟩
  · exact Or.inl cov
  · exact Or.inr ⟨change m, mem_map_of_mem inM, (req.conflicts lock m).mpr clash⟩

theorem Sound.lfResume (sound : Sound [] w) {ident : Nat} {error : Bool}
    (fits : error = false → ResumeFits w ident) (threaded : Nat → Bool) :
    ∃ out world', VfsLockf.lfResume threaded w ident error = some (out, world') ∧
      Sound [] world' := by
  unfold VfsLockf.lfResume
  split
  · exact ⟨_, _, rfl, sound⟩
  rename_i slp fnd
  have mem := mem_of_find?_eq_some fnd
  have isIdent : slp.lock.ident = ident := by simpa using find?_some fnd
  split
  · exact ⟨_, _, rfl, sound⟩
  rename_i runs
  have left := sound.withdraw mem
  cases error with
  | true => exact ⟨_, _, rfl, (left.lfFree slp.lock).freeSpare slp.spare⟩
  | false =>
    obtain ⟨change, req, isChange⟩ :=
      withdrawn_requeues w.heads slp slp.lfHead
    have grant : GrantFits slp.lock ((w.withdraw slp).heads slp.lfHead) := by
      simp only [World.withdraw, isChange]
      exact (fits rfl slp mem isIdent (by simpa using runs)).requeue req
    obtain ⟨out, spare', world', set, kept⟩ :=
      left.lfSetlock (sound.proper slp mem).ready grant threaded true
    refine ⟨out, VfsLockf.freeSpare spare' world', ?_, kept.freeSpare spare'⟩
    simp [set]

omit [DecidableEq φ] in
theorem sound_empty : Sound [] (empty : World φ) := by
  refine ⟨consistent_empty, ?_, ?_, ?_, ?_, ?_, ?_⟩
  · intro file
    refine ⟨?_, ?_, ?_, ?_⟩ <;> simp [empty]
  · simp [empty]
  · simp [empty, pending]
  · simp [empty]
  · simp [empty]
  · simp [empty, pending]

/-- What callers promise of a step. -/
def Input.Proper : Input φ → Prop
  | .call _ asked => asked.Proper
  | .resume _ _ _ => True

/-- No range overflows, and no request cuts an own lock up to the end of the file at the largest
byte. -/
def Input.Fits (world : World φ) : Input φ → Prop
  | .call _ asked => asked.Fits world
  | .resume _ ident error => error = false → ResumeFits world ident

theorem Sound.lockfStep (sound : Sound [] w) {input : Input φ} (prop : input.Proper)
    (fits : input.Fits w) :
    ∃ s', VfsLockf.lockfStep w input = some s' ∧ Sound [] s' := by
  cases input with
  | call threaded call =>
    obtain ⟨out, s', hc, kept⟩ := sound.lfAdvlock prop fits threaded
    exact ⟨s', by simp [VfsLockf.lockfStep, hc], kept⟩
  | resume threaded ident error =>
    obtain ⟨out, s', res, kept⟩ := sound.lfResume fits threaded
    exact ⟨s', by simp [VfsLockf.lockfStep, res], kept⟩

theorem sound_consume {inputs : List (Input φ)} (prop : ∀ input ∈ inputs, input.Proper)
    (fits : ∀ front input, front ++ [input] <+: inputs → ∀ got,
      consume lockfStep front empty = some got → input.Fits got) :
    ∃ got, consume lockfStep inputs empty = some got ∧ Sound [] got := by
  apply consume_invariant lockfStep (Sound []) (fun w input => input.Proper ∧ input.Fits w)
    _ inputs sound_empty
  · intro front input pre got eaten
    exact ⟨prop input (pre.subset (by simp)), fits front input pre got eaten⟩
  · rintro w input sound ⟨properInput, fitsInput⟩
    exact sound.lockfStep properInput fitsInput

/-- The lock that a sleeping request waits for: the only one whose queue it stands in. -/
structure AsleepOn (world : World φ) (sleeper : Sleeper φ) (l : Lockf) : Prop where
  listed : l ∈ world.heads sleeper.lfHead
  next : sleeper.lfNext = some l.ident
  queued : sleeper.lock.ident ∈ l.lfBlkhd
  only : ∀ file, ∀ m ∈ world.heads file, sleeper.lock.ident ∈ m.lfBlkhd →
    file = sleeper.lfHead ∧ m = l
  conflict : Conflicts sleeper.lock l

/-- Calls, wakeups and signals in any order, of which no call overflows its range and none cuts
an own lock up to the end of the file at the largest byte: in every state that is reached every
request that sleeps waits in the queue of one conflicting lock, and a request without a
conflicting lock has been woken. -/
theorem no_lostWakeup {inputs : List (Input φ)} (proper : ∀ input ∈ inputs, input.Proper)
    (fits : ∀ front input, front ++ [input] <+: inputs → ∀ reached,
      consume lockfStep front World.empty = some reached → input.Fits reached) :
    ∀ front, front <+: inputs → ∃ w, consume lockfStep front World.empty = some w ∧
      ∀ slp ∈ w.env.sleepers, (slp.woken = false → ∃ l, AsleepOn w slp l) ∧
        ((∀ l ∈ w.heads slp.lfHead, ¬ Conflicts slp.lock l) →
          slp.woken = true) := by
  intro front pre
  obtain ⟨w, eaten, sound⟩ := sound_consume
    (fun input mem => proper input (pre.subset mem))
    (by
      intro old input inF reached eaten
      exact fits old input (inF.trans pre) reached eaten)
  have dist : (pending w.env.sleepers).Nodup := by simpa using sound.distinct
  refine ⟨w, eaten, ?_⟩
  intro slp mem
  have waitsSomewhere (isAsleep : slp.woken = false) :=
    (sound.queues slp.lfHead).asleep slp mem rfl isAsleep
  constructor
  · intro isAsleep
    obtain ⟨l, hlk, waits⟩ := waitsSomewhere isAsleep
    refine ⟨l, hlk, waits.next, waits.queued, ?_, waits.conflict⟩
    intro file m inFile inq
    obtain ⟨isFile, _⟩ := (sound.queues file).unique dist mem inFile inq
    subst isFile
    exact ⟨rfl, ((sound.queues slp.lfHead).unique dist mem hlk
      waits.queued).2.2.2 m inFile inq⟩
  · intro free
    by_contra zz
    obtain ⟨l, hlk, waits⟩ := waitsSomewhere (by simpa using zz)
    exact free l hlk waits.conflict

end Run

/-- A byte-range request of a process for the only file. -/
def posixCall (op : Op) (pid : Nat) (wait : Bool) (type : LockType) (start len : Int) :
    Input Unit :=
  .call (fun _ => false) ⟨op, (), .proc pid, wait, type, .set, start, len, 0, 0⟩

theorem posixCall_fits {op : Op} {pid : Nat} {wait : Bool} {type : LockType} {beg len : Int}
    (nonneg : 0 ≤ beg) (pos : 0 < len) (short : beg + len ≤ offMax) (w : World Unit) :
    (posixCall op pid wait type beg len).Proper ∧
      (posixCall op pid wait type beg len).Fits w := by
  refine ⟨⟨?_, ?_⟩, ?_⟩
  · simp only
    omega
  · intro fp isFile
    exact Owner.noConfusion isFile
  · intro fst last isRange
    have isEnds : ends beg len = (beg, beg + len - 1) := by
      have inner : off (beg + len) = beg + len := off_eq (by omega) short
      rw [ends, if_neg (by omega), if_pos pos, inner, off_eq (by omega) (by omega)]
    simp only [Call.range, Call.origin, bind_some, isEnds, if_neg (not_lt.mpr nonneg),
      some.injEq, Prod.mk.injEq] at isRange
    have notCut (l : Lockf) : ¬ Cuts (Call.lockOf
        ⟨op, (), .proc pid, wait, type, .set, beg, len, 0, 0⟩ fst last : Lockf) l := by
      intro cut
      have atEnd : last = offMax := cut.2.1
      omega
    refine ⟨by omega, ?_⟩
    cases op with
    | setlk => exact fun l _ cut => absurd cut (notCut l)
    | unlck => exact fun l _ => notCut l
    | getlk => trivial

/-- The second process sleeps until the first unlocks. -/
def contended : List (Input Unit) :=
  [posixCall .setlk 1 false .wrlck 0 10, posixCall .setlk 2 true .wrlck 5 2]

theorem no_lostWakeup_contended : ∃ w, consume lockfStep contended World.empty = some w ∧
      ∀ slp ∈ w.env.sleepers, slp.woken = false → ∃ l, AsleepOn w slp l := by
  have fine (input : Input Unit) (mem : input ∈ contended) (w : World Unit) :
      input.Proper ∧ input.Fits w := by
    simp only [contended, mem_cons, not_mem_nil, or_false] at mem
    rcases mem with rfl | rfl <;> exact posixCall_fits (by decide) (by decide) (by decide) w
  obtain ⟨w, eaten, zz⟩ := no_lostWakeup
    (fun input mem => (fine input mem empty).1)
    (by
      intro front input pre got _
      exact (fine input (pre.subset (by simp)) got).2)
    contended prefix_rfl
  exact ⟨w, eaten, fun slp mem => (zz slp mem).1⟩

/-- Unlocking from byte 5 to the largest byte leaves a lock that wraps around; the next lock
request cuts it, and a process sleeps for the bytes before. -/
def wrapped : List (Input Unit) :=
  [posixCall .setlk 1 false .wrlck 0 0, posixCall .unlck 1 false .wrlck 5 (offMax - 4),
    posixCall .setlk 1 false .rdlck 10 11, posixCall .setlk 2 true .wrlck 0 1]

/-- After that a request for the bytes from 0 to 9 takes over the queue of the first own lock and
is linked in; then it is found to be covered by the lock that wrapped around, and is freed. The
request that sleeps is left in the queue of a freed lock. -/
theorem queue_ofFreedLock : ∃ w slp first second rest,
      consume lockfStep wrapped World.empty = some w ∧
      slp ∈ w.env.sleepers ∧ slp.woken = false ∧
      w.heads () = first :: second :: rest ∧ slp.lfNext = some first.ident ∧
      lfFindoverlap .self (byteLock 9 1 .wrlck 0 9) [] (first :: second :: rest) =
        .found .lockContainsOverlap [] first (second :: rest) ∧
      lfFindoverlap .self (byteLock 9 1 .wrlck 0 9) [] (second :: rest) =
        .found .overlapContainsLock [] second rest ∧
      second.lfType = .wrlck ∧
      lockfStep w (posixCall .setlk 1 false .wrlck 0 10) = none := by
  refine ⟨_, _, _, _, _, rfl, mem_cons_self, rfl, rfl, rfl, rfl, rfl, rfl, rfl⟩

end NetBSD.Kern.VfsLockf
