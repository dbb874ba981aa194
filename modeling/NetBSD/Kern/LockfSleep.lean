import Mathlib.Data.List.Nodup
import NetBSD.Kern.LockfMap

/-!
Owns the sleeping requests: each one that has not been woken stands in the
queue of the lock that its `lf_next` points to, and that lock conflicts with it.
-/

namespace NetBSD.Kern.VfsLockf

open NetBSD.Machine Function List Lockf

variable {φ : Type} {lock l : Lockf} {locks tl : List Lockf} {file : φ}
  {sls : List (Sleeper φ)}

/-- The address of a spare lock, if there is one. -/
def spareIdents (spare : Option Lockf) : List Nat := (spare.map Lockf.ident).toList

/-- The addresses of the structures of the calls that sleep. -/
def pending (sleepers : List (Sleeper φ)) : List Nat :=
  sleepers.flatMap fun sleeper => sleeper.lock.ident :: spareIdents sleeper.spare

/-- The request waits for the lock. -/
structure WaitsFor (sleeper : Sleeper φ) (l : Lockf) : Prop where
  queued : sleeper.lock.ident ∈ l.lfBlkhd
  next : sleeper.lfNext = some l.ident
  conflict : Conflicts sleeper.lock l

/-- What holds of the list of a file and the requests that sleep. -/
structure Queues (file : φ) (locks : List Lockf) (sleepers : List (Sleeper φ)) : Prop where
  distinct : (locks.map Lockf.ident).Nodup
  once : ∀ l ∈ locks, l.lfBlkhd.Nodup
  waiting : ∀ l ∈ locks, ∀ ident ∈ l.lfBlkhd, ∃ sleeper ∈ sleepers,
    sleeper.lock.ident = ident ∧ sleeper.lfHead = file ∧ sleeper.woken = false ∧ WaitsFor sleeper l
  asleep : ∀ sleeper ∈ sleepers, sleeper.lfHead = file → sleeper.woken = false →
    ∃ l ∈ locks, WaitsFor sleeper l

/-- What `lf_setlock` was called with. -/
structure Sleeper.Proper (sleeper : Sleeper φ) : Prop where
  ranged : sleeper.lock.Ranged
  whole : sleeper.lock.Whole
  spared : ∀ pid, sleeper.lock.lfId = .proc pid → sleeper.spare ≠ none
  unqueued : sleeper.lock.lfBlkhd = []
  unlinked : sleeper.woken = true → sleeper.lfNext = none

/-- What holds between two critical sections; `held` are the addresses of the structures that
the running call has in hand. -/
structure Sound (held : List Nat) (world : World φ) : Prop where
  consistent : ∀ file, Consistent (world.heads file)
  queues : ∀ file, Queues file (world.heads file) world.env.sleepers
  proper : ∀ sleeper ∈ world.env.sleepers, sleeper.Proper
  distinct : (pending world.env.sleepers ++ held).Nodup
  unlisted : ∀ file, ∀ l ∈ world.heads file, l.ident ∉ pending world.env.sleepers ++ held
  bounded : (∀ file, ∀ l ∈ world.heads file, l.ident < world.fresh) ∧
    ∀ ident ∈ pending world.env.sleepers ++ held, ident < world.fresh

variable {slp : Sleeper φ}

section Unique

theorem mem_pending (mem : slp ∈ sls) : slp.lock.ident ∈ pending sls :=
  mem_flatMap.mpr ⟨slp, mem, mem_cons_self⟩

theorem sleeper_unique (distinct : (pending sls).Nodup) {fst snd : Sleeper φ}
    (inFirst : fst ∈ sls) (inSecond : snd ∈ sls)
    (same : fst.lock.ident = snd.lock.ident) : fst = snd := by
  induction sls with
  | nil => simp at inFirst
  | cons head tail ih =>
    have parts : ((head.lock.ident :: spareIdents head.spare) ++ pending tail).Nodup := distinct
    have apart := disjoint_of_nodup_append parts
    have tailDistinct := (nodup_append.mp parts).2.1
    rcases mem_cons.mp inFirst with rfl | firstTail
    · rcases mem_cons.mp inSecond with rfl | secondTail
      · rfl
      · exact absurd (by rw [same]; exact mem_pending secondTail) (apart mem_cons_self)
    · rcases mem_cons.mp inSecond with rfl | secondTail
      · exact absurd (by rw [← same]; exact mem_pending firstTail) (apart mem_cons_self)
      · exact ih tailDistinct firstTail secondTail

theorem lock_unique (distinct : (locks.map ident).Nodup) {fst snd : Lockf}
    (inFirst : fst ∈ locks) (inSecond : snd ∈ locks) (same : fst.ident = snd.ident) :
    fst = snd :=
  inj_on_of_nodup_map distinct inFirst inSecond same

theorem Queues.unique (queues : Queues file locks sls) (distinct : (pending sls).Nodup)
    (mem : slp ∈ sls) {fst : Lockf} (inFirst : fst ∈ locks)
    (inq : slp.lock.ident ∈ fst.lfBlkhd) :
    slp.lfHead = file ∧ slp.woken = false ∧ WaitsFor slp fst ∧
      ∀ snd ∈ locks, slp.lock.ident ∈ snd.lfBlkhd → snd = fst := by
  obtain ⟨oth, inOther, same, isFile, zz, waits⟩ := queues.waiting fst inFirst _ inq
  obtain rfl := sleeper_unique distinct inOther mem same
  refine ⟨isFile, zz, waits, ?_⟩
  intro snd inSecond alsoQueued
  obtain ⟨again, inAgain, sameAgain, _, _, waitsAgain⟩ :=
    queues.waiting snd inSecond _ alsoQueued
  obtain rfl := sleeper_unique distinct inAgain inOther sameAgain
  have next := waits.next
  rw [waitsAgain.next] at next
  exact lock_unique queues.distinct inSecond inFirst (Option.some.inj next)

end Unique

/-! ### Changing the queues -/

def KeepsRequests (change : Sleeper φ → Sleeper φ) : Prop :=
  ∀ sleeper, (change sleeper).lock = sleeper.lock ∧ (change sleeper).lfHead = sleeper.lfHead ∧
    (change sleeper).spare = sleeper.spare

theorem pending_map {chg : Sleeper φ → Sleeper φ} (keepsRequests : KeepsRequests chg)
    (sls : List (Sleeper φ)) : pending (sls.map chg) = pending sls := by
  simp only [pending, flatMap_map]
  congr 1
  funext slp
  rw [(keepsRequests slp).1, (keepsRequests slp).2.2]

theorem Queues.elsewhere {chg : Sleeper φ → Sleeper φ} (queues : Queues file locks sls)
    (keepsRequests : KeepsRequests chg)
    (same : ∀ slp ∈ sls, slp.lfHead = file → chg slp = slp) :
    Queues file locks (sls.map chg) := by
  refine ⟨queues.distinct, queues.once, ?_, ?_⟩
  · intro l mem ident inq
    obtain ⟨slp, hin, isIdent, isFile, tl⟩ := queues.waiting l mem ident inq
    refine ⟨slp, ?_, isIdent, isFile, tl⟩
    rw [← same slp hin isFile]
    exact mem_map_of_mem hin
  · intro changed mem isFile zz
    obtain ⟨slp, hin, rfl⟩ := mem_map.mp mem
    rw [(keepsRequests slp).2.1] at isFile
    rw [same slp hin isFile] at zz ⊢
    exact queues.asleep slp hin isFile zz

/-- The queues of the file whose list is changed: every request of a new queue comes from an old
one, and every request that sleeps is woken or finds its lock in the new list. -/
theorem Queues.change {locks' : List Lockf} {chg : Sleeper φ → Sleeper φ}
    (queues : Queues file locks sls) (keepsRequests : KeepsRequests chg)
    (distinct : (locks'.map ident).Nodup) (once : ∀ l ∈ locks', l.lfBlkhd.Nodup)
    (wokenStays : ∀ slp ∈ sls, slp.woken = true → (chg slp).woken = true)
    (kept : ∀ l' ∈ locks', ∀ ident ∈ l'.lfBlkhd, ∃ l ∈ locks, ident ∈ l.lfBlkhd ∧
      ∀ slp ∈ sls, slp.lock.ident = ident → slp.woken = false →
        WaitsFor slp l → (chg slp).woken = false ∧ WaitsFor (chg slp) l')
    (moved : ∀ slp ∈ sls, slp.lfHead = file → slp.woken = false →
      ∀ l ∈ locks, WaitsFor slp l →
        (chg slp).woken = true ∨ ∃ l' ∈ locks', WaitsFor (chg slp) l') :
    Queues file locks' (sls.map chg) := by
  refine ⟨distinct, once, ?_, ?_⟩
  · intro l' mem ident inq
    obtain ⟨l, hlk, inQueue, next⟩ := kept l' mem ident inq
    obtain ⟨slp, hin, isIdent, isFile, zz, waits⟩ :=
      queues.waiting l hlk ident inQueue
    have s' := next slp hin isIdent zz waits
    refine ⟨chg slp, mem_map_of_mem hin, ?_, ?_, s'⟩
    · rw [(keepsRequests slp).1, isIdent]
    · rw [(keepsRequests slp).2.1, isFile]
  intro changed mem isFile zz
  obtain ⟨slp, hin, rfl⟩ := mem_map.mp mem
  rw [(keepsRequests slp).2.1] at isFile
  have wasAsleep : slp.woken = false := by
    by_contra wasWoken
    rw [wokenStays slp hin (by simpa using wasWoken)] at zz
    exact absurd zz (by simp)
  obtain ⟨l, hlk, waits⟩ := queues.asleep slp hin isFile wasAsleep
  rcases moved slp hin isFile wasAsleep l hlk waits with isWoken | fnd
  · rw [isWoken] at zz
    exact absurd zz (by simp)
  · exact fnd

def wakeOne (queue : List Nat) (sleeper : Sleeper φ) : Sleeper φ :=
  if sleeper.lock.ident ∈ queue then { sleeper with lfNext := none, woken := true } else sleeper

theorem wake_eq_map (queue : List Nat) (sls : List (Sleeper φ)) :
    wake queue sls = sls.map (wakeOne queue) := rfl

theorem wakeOne_keepsRequests (queue : List Nat) :
    KeepsRequests (wakeOne queue : Sleeper φ → Sleeper φ) := by
  intro slp
  unfold wakeOne
  split <;> exact ⟨rfl, rfl, rfl⟩

theorem wakeOne_woken {queue : List Nat} (isWoken : slp.woken = true) :
    (wakeOne queue slp).woken = true := by
  unfold wakeOne
  split
  · rfl
  · exact isWoken

theorem serve_keepsRequests (lock l : Lockf) :
    KeepsRequests (serve lock l : Sleeper φ → Sleeper φ) := by
  intro slp
  unfold serve
  split
  · split <;> exact ⟨rfl, rfl, rfl⟩
  · exact ⟨rfl, rfl, rfl⟩

theorem serveAll_cons (slp : Sleeper φ) : serveAll lock (l :: tl) slp =
      serveAll lock tl (if hit lock l then serve lock l slp else slp) := by
  cases isHit : hit lock l <;> simp [serveAll, isHit]

theorem serveAll_keepsRequests (lock : Lockf) (tl : List Lockf) :
    KeepsRequests (serveAll lock tl : Sleeper φ → Sleeper φ) := by
  induction tl with
  | nil => exact fun _ => ⟨rfl, rfl, rfl⟩
  | cons l tl ih =>
    intro slp
    rw [serveAll_cons]
    split
    · obtain ⟨eqLock, sameHead, sameSpare⟩ := ih (serve lock l slp)
      obtain ⟨lock', head', spare'⟩ := serve_keepsRequests lock l slp
      exact ⟨eqLock.trans lock', sameHead.trans head', sameSpare.trans spare'⟩
    · exact ih slp

theorem serveAll_of_not_queued
    (miss : ∀ l ∈ tl, hit lock l = true → slp.lock.ident ∉ l.lfBlkhd) :
    serveAll lock tl slp = slp := by
  induction tl with
  | nil => rfl
  | cons l tl ih =>
    have unch : (if hit lock l then serve lock l slp else slp) = slp := by
      split
      · rename_i isHit
        rw [serve, if_neg (miss l mem_cons_self isHit)]
      · rfl
    rw [serveAll_cons, unch]
    exact ih (forall_mem_cons.mp miss).2

theorem serveAll_of_queued (nodup : tl.Nodup) (mem : l ∈ tl) (isHit : hit lock l = true)
    (only : ∀ m ∈ tl, slp.lock.ident ∈ m.lfBlkhd → m = l) :
    serveAll lock tl slp = serve lock l slp := by
  induction tl with
  | nil => simp at mem
  | cons head tail ih =>
    obtain ⟨notInTail, tailNodup⟩ := nodup_cons.mp nodup
    rw [serveAll_cons]
    rcases mem_cons.mp mem with rfl | inTail
    · rw [if_pos isHit]
      apply serveAll_of_not_queued
      intro m inTail _ inq
      rw [(serve_keepsRequests lock l slp).1] at inq
      rw [only m (mem_cons_of_mem l inTail) inq] at inTail
      exact notInTail inTail
    have unch : (if hit lock head then serve lock head slp else slp) = slp := by
      split
      · rw [serve, if_neg]
        intro inq
        rw [only head mem_cons_self inq] at notInTail
        exact notInTail inTail
      · rfl
    rw [unch]
    exact ih tailNodup inTail (forall_mem_cons.mp only).2

/-! ### The addresses on a list -/

def SpareNew (spare : Nat) (lock : Lockf) (locks : List Lockf) : Prop :=
  (∀ l ∈ locks, l.ident ≠ spare) ∨
    ∀ l ∈ locks, hit lock l = true → ¬ (l.lfStart < lock.lfStart ∧ lock.last < l.last)

variable {spare : Nat}

theorem ident_of_mem_remains {m : Lockf} (mem : m ∈ remains spare lock l) : m.ident = l.ident ∨
      m.ident = spare ∧ hit lock l = true ∧ l.lfStart < lock.lfStart ∧ lock.last < l.last := by
  obtain ⟨_, _, _, ⟨_, rfl⟩ | ⟨isHit, _, shape⟩⟩ := mem_remains mem
  · exact Or.inl rfl
  · rcases shape with ⟨_, _, _, same⟩ | ⟨s', _, _, isIdent⟩
    · exact Or.inl same
    · split at isIdent
      · exact Or.inr ⟨isIdent, isHit, by assumption, s'⟩
      · exact Or.inl isIdent

theorem nodup_remains (good : Consistent locks) (lrng : lock.Ranged)
    (distinct : (locks.map ident).Nodup) (spareNew : SpareNew spare lock locks) :
    ((locks.flatMap (remains spare lock)).map ident).Nodup := by
  have cutNew (l : Lockf) (mem : l ∈ locks) (isHit : hit lock l = true)
      (prev : l.lfStart < lock.lfStart) (s' : lock.last < l.last) :
      ∀ m ∈ locks, m.ident ≠ spare := by
    rcases spareNew with new | unneeded
    · exact new
    · exact absurd ⟨prev, s'⟩ (unneeded l mem isHit)
  rw [List.Nodup, pairwise_map, pairwise_flatMap]
  rw [List.Nodup, pairwise_map] at distinct
  constructor
  · intro l mem
    unfold remains
    split
    · rename_i isHit
      rw [pairwise_append]
      refine ⟨?_, ?_, ?_⟩
      · unfold leftOf
        split <;> simp
      · unfold rightOf
        split <;> simp
      · intro x inL y inR
        unfold leftOf at inL
        unfold rightOf at inR
        split at inL
        · rename_i prev
          split at inR
          · rename_i s'
            obtain rfl := mem_singleton.mp inL
            obtain rfl := mem_singleton.mp inR
            exact cutNew l mem isHit prev s' l mem
          · simp at inR
        · simp at inL
    · simp
  · have both := pairwise_and_iff.mpr ⟨good.sorted, distinct⟩
    refine both.imp_of_mem ?_
    rintro left right inL inR ⟨order, differ⟩ x pieceX y pieceY
    rcases ident_of_mem_remains pieceX with sameX | ⟨spareX, hitX, beforeX, afterX⟩
    · rcases ident_of_mem_remains pieceY with sameY | ⟨spareY, hitY, beforeY, afterY⟩
      · rw [sameX, sameY]
        exact differ
      · rw [sameX, spareY]
        exact cutNew right inR hitY beforeY afterY left inL
    rcases ident_of_mem_remains pieceY with sameY | ⟨spareY, hitY, beforeY, afterY⟩
    · rw [spareX, sameY]
      exact (cutNew left inL hitX beforeX afterX right inR).symm
    -- two locks cannot both reach beyond the request
    have ownX := (hit_iff (good.ranged left inL) lrng).mp hitX
    have ownY := (hit_iff (good.ranged right inR) lrng).mp hitY
    have next := order (by rw [ownX.1, ownY.1])
    unfold Precedes at next
    omega

theorem eq_of_queued_remains {m : Lockf} {ident : Nat}
    (mem : m ∈ locks.flatMap (remains spare lock)) (inq : ident ∈ m.lfBlkhd) :
    m ∈ locks ∧ hit lock m = false := by
  obtain ⟨l, hlk, piece⟩ := mem_flatMap.mp mem
  obtain ⟨_, _, _, ⟨hm, rfl⟩ | ⟨_, empty, _⟩⟩ := mem_remains piece
  · exact ⟨hlk, hm⟩
  · rw [empty] at inq
    simp at inq

theorem once_remains (once : ∀ l ∈ locks, l.lfBlkhd.Nodup) :
    ∀ m ∈ locks.flatMap (remains spare lock), m.lfBlkhd.Nodup := by
  intro m mem
  obtain ⟨l, hlk, piece⟩ := mem_flatMap.mp mem
  obtain ⟨_, _, _, ⟨_, rfl⟩ | ⟨_, empty, _⟩⟩ := mem_remains piece
  · exact once m hlk
  · rw [empty]
    exact nodup_nil

theorem mem_remains_of_not_hit (mem : l ∈ locks) (hm : hit lock l = false) :
    l ∈ locks.flatMap (remains spare lock) := by
  refine mem_flatMap.mpr ⟨l, mem, ?_⟩
  rw [remains, if_neg (by simp [hm])]
  exact mem_singleton_self l

/-! ### The queues after a request -/

theorem mem_hitQueue {ident : Nat} :
    ident ∈ hitQueue lock locks ↔ ∃ l ∈ locks, hit lock l = true ∧ ident ∈ l.lfBlkhd := by
  simp only [hitQueue, mem_flatMap, mem_filter]
  constructor
  · rintro ⟨l, ⟨mem, isHit⟩, inq⟩
    exact ⟨l, mem, isHit, inq⟩
  · rintro ⟨l, mem, isHit, inq⟩
    exact ⟨l, ⟨mem, isHit⟩, inq⟩

theorem Queues.clear (queues : Queues file locks sls) (distinct : (pending sls).Nodup)
    (good : Consistent locks) (lrng : lock.Ranged)
    (spareNew : SpareNew spare lock locks) :
    Queues file (locks.flatMap (remains spare lock)) (wake (hitQueue lock locks) sls) := by
  -- the request that waits for a lock that is not hit is left alone
  have leftAlone (slp : Sleeper φ) (hin : slp ∈ sls) (l : Lockf)
      (mem : l ∈ locks) (hm : hit lock l = false) (waits : WaitsFor slp l) :
      wakeOne (hitQueue lock locks) slp = slp := by
    rw [wakeOne, if_neg]
    intro inq
    obtain ⟨m, hlk, isHit, inQueue⟩ := mem_hitQueue.mp inq
    rw [(queues.unique distinct hin mem waits.queued).2.2.2 m hlk inQueue] at isHit
    rw [hm] at isHit
    exact absurd isHit (by simp)
  apply queues.change (wakeOne_keepsRequests _)
    (nodup_remains good lrng queues.distinct spareNew) (once_remains queues.once)
  · intro slp _ isWoken
    exact wakeOne_woken isWoken
  · intro l' mem ident inq
    obtain ⟨hlk, hm⟩ := eq_of_queued_remains mem inq
    refine ⟨l', hlk, inq, ?_⟩
    intro slp hin _ zz waits
    rw [leftAlone slp hin l' hlk hm waits]
    exact ⟨zz, waits⟩
  · intro slp hin _ zz l mem waits
    cases isHit : hit lock l with
    | true =>
      refine Or.inl ?_
      rw [wakeOne, if_pos (mem_hitQueue.mpr ⟨l, mem, isHit, waits.queued⟩)]
    | false =>
      refine Or.inr ⟨l, mem_remains_of_not_hit mem isHit, ?_⟩
      rw [leftAlone slp hin l mem isHit waits]
      exact waits

theorem mem_handedQueue {ident : Nat} : ident ∈ handedQueue lock locks ↔
      ∃ l ∈ locks, hit lock l = true ∧ keeps lock l = true ∧ ident ∈ l.lfBlkhd := by
  simp only [handedQueue, mem_flatMap, mem_filter]
  constructor
  · rintro ⟨l, ⟨⟨mem, isHit⟩, kept⟩, inq⟩
    exact ⟨l, mem, isHit, kept, inq⟩
  · rintro ⟨l, mem, isHit, kept, inq⟩
    exact ⟨l, ⟨⟨mem, isHit⟩, kept⟩, inq⟩

theorem nodup_handedQueue (queues : Queues file locks sls)
    (distinct : (pending sls).Nodup) : (handedQueue lock locks).Nodup := by
  rw [handedQueue, nodup_flatMap]
  constructor
  · intro l mem
    exact queues.once l (mem_of_mem_filter (mem_of_mem_filter mem))
  have nodup : ((locks.filter (hit lock)).filter (keeps lock)).Nodup :=
    ((Nodup.of_map _ queues.distinct).filter _).filter _
  refine nodup.imp_of_mem ?_
  intro left right inL inR differ ident inLeftQueue inRightQueue
  have leftLocks := mem_of_mem_filter (mem_of_mem_filter inL)
  have rightLocks := mem_of_mem_filter (mem_of_mem_filter inR)
  obtain ⟨slp, hin, rfl, _⟩ := queues.waiting left leftLocks ident inLeftQueue
  exact differ ((queues.unique distinct hin rightLocks inRightQueue).2.2.2 left leftLocks
    inLeftQueue)

theorem conflicts_of_keeps {rq : Lockf} (kept : keeps lock l = true)
    (own : l.lfId = lock.lfId) (clash : Conflicts rq l) (queue : List Nat) :
    Conflicts rq (lock.extend queue) := by
  obtain ⟨differ, exclusive, ovl⟩ := clash
  simp only [keeps, decide_eq_true_eq] at kept
  obtain ⟨lt, bnd, notWeaker⟩ := kept
  refine ⟨by rw [own] at differ; exact differ, ?_, ovl.mono lt bnd (le_refl _) (le_refl _)⟩
  rcases exclusive with rq | held
  · exact Or.inl rq
  · right
    cases isType : lock.lfType with
    | wrlck => exact isType
    | rdlck => exact absurd ⟨isType, held⟩ notWeaker

section Placed

variable {spare : Nat} {sleepers' : List (Sleeper φ)} {result : List Lockf}
  (queues : Queues file locks sls) (distinct : (pending sls).Nodup)
  (consistent : Consistent locks) (lrng : lock.Ranged)

include queues distinct

theorem Queues.leftAlone (hin : slp ∈ sls) {l : Lockf} (mem : l ∈ locks)
    (hm : hit lock l = false) (waits : WaitsFor slp l) :
    serveAll lock locks slp = slp := by
  apply serveAll_of_not_queued
  intro m hlk isHit inQueue
  rw [(queues.unique distinct hin mem waits.queued).2.2.2 m hlk inQueue, hm] at isHit
  exact absurd isHit (by simp)

theorem Queues.served (hin : slp ∈ sls) {l : Lockf} (mem : l ∈ locks)
    (isHit : hit lock l = true) (waits : WaitsFor slp l) :
    serveAll lock locks slp = serve lock l slp :=
  serveAll_of_queued (Nodup.of_map _ queues.distinct) mem isHit
    (queues.unique distinct hin mem waits.queued).2.2.2

include consistent lrng in
/-- The queues of the locks replaced are handed to the new lock. -/
theorem Queues.linked {left right : List Lockf} (spareNew : SpareNew spare lock locks)
    (unqueued : lock.lfBlkhd = []) (newLock : ∀ l ∈ left ++ right, l.ident ≠ lock.ident)
    (parts : left ++ right = locks.flatMap (remains spare lock)) :
    Queues file (left ++ lock.extend (handedQueue lock locks) :: right)
      (sls.map (serveAll lock locks)) := by
  have queue : (lock.extend (handedQueue lock locks)).lfBlkhd = handedQueue lock locks := by
    simp [Lockf.extend, unqueued]
  have memIff (m : Lockf) : m ∈ left ++ lock.extend (handedQueue lock locks) :: right ↔
      m = lock.extend (handedQueue lock locks) ∨ m ∈ locks.flatMap (remains spare lock) := by
    rw [← parts, mem_append, mem_cons, mem_append]
    tauto
  have oldIdents := nodup_remains consistent lrng queues.distinct spareNew
  apply queues.change (serveAll_keepsRequests _ _)
  · rw [← parts, map_append] at oldIdents
    rw [map_append, map_cons, nodup_middle, nodup_cons]
    refine ⟨?_, oldIdents⟩
    rw [← map_append, mem_map]
    rintro ⟨m, mem, same⟩
    exact newLock m mem same
  · intro m mem
    rcases (memIff m).mp mem with rfl | inRemains
    · rw [queue]
      exact nodup_handedQueue queues distinct
    · exact once_remains queues.once m inRemains
  · intro slp hin isWoken
    rw [serveAll_of_not_queued]
    · exact isWoken
    · intro l mem _ inq
      rw [(queues.unique distinct hin mem inq).2.1] at isWoken
      exact absurd isWoken (by simp)
  · intro l' mem ident inq
    rcases (memIff l').mp mem with rfl | inRemains
    · rw [queue] at inq
      obtain ⟨l, hlk, isHit, kept, inQueue⟩ := mem_handedQueue.mp inq
      refine ⟨l, hlk, inQueue, ?_⟩
      intro slp hin _ zz waits
      have own := ((hit_iff (consistent.ranged l hlk) lrng).mp isHit).1
      rw [queues.served distinct hin hlk isHit waits, serve, if_pos waits.queued, if_pos kept]
      refine ⟨zz, ?_, rfl, conflicts_of_keeps kept own waits.conflict _⟩
      rw [queue]
      exact mem_handedQueue.mpr ⟨l, hlk, isHit, kept, waits.queued⟩
    · obtain ⟨hlk, hm⟩ := eq_of_queued_remains inRemains inq
      refine ⟨l', hlk, inq, ?_⟩
      intro slp hin _ zz waits
      rw [queues.leftAlone distinct hin hlk hm waits]
      exact ⟨zz, waits⟩
  · intro slp hin _ zz l mem waits
    cases isHit : hit lock l with
    | false =>
      refine Or.inr ⟨l, (memIff l).mpr (Or.inr (mem_remains_of_not_hit mem isHit)), ?_⟩
      rw [queues.leftAlone distinct hin mem isHit waits]
      exact waits
    | true =>
      have own := ((hit_iff (consistent.ranged l mem) lrng).mp isHit).1
      rw [queues.served distinct hin mem isHit waits, serve, if_pos waits.queued]
      cases kept : keeps lock l with
      | false => exact Or.inl rfl
      | true =>
        refine Or.inr ⟨lock.extend (handedQueue lock locks), (memIff _).mpr (Or.inl rfl), ?_,
          rfl, conflicts_of_keeps kept own waits.conflict _⟩
        rw [queue]
        exact mem_handedQueue.mpr ⟨l, mem, isHit, kept, waits.queued⟩

/-- A lock that weakens wakes its queue. -/
theorem Queues.retyped {left right : List Lockf} {ovl : Lockf}
    (parts : locks = left ++ ovl :: right) : Queues file (left ++ ovl.retype lock :: right)
      (if weakens lock ovl then wake ovl.lfBlkhd sls else sls) := by
  have chg : (if weakens lock ovl then wake ovl.lfBlkhd sls else sls) =
      sls.map (wakeOne (if weakens lock ovl then ovl.lfBlkhd else [])) := by
    split
    · rfl
    · rw [← wake_eq_map, wake_nil]
  have hlk : ovl ∈ locks := by simp [parts]
  have memIff (m : Lockf) : m ∈ left ++ ovl.retype lock :: right ↔
      m = ovl.retype lock ∨ m ∈ left ++ right := by
    simp only [mem_append, mem_cons]
    tauto
  have distinctLocks := queues.distinct
  rw [parts, map_append, map_cons] at distinctLocks
  have oths (m : Lockf) (mem : m ∈ left ++ right) : m ∈ locks ∧ m ≠ ovl := by
    refine ⟨by simp only [parts, mem_append] at mem ⊢; tauto, ?_⟩
    rintro rfl
    rw [nodup_middle, nodup_cons, ← map_append] at distinctLocks
    exact distinctLocks.1 (mem_map_of_mem mem)
  have leftAlone (slp : Sleeper φ) (hin : slp ∈ sls) (l : Lockf)
      (mem : l ∈ locks) (waits : WaitsFor slp l)
      (kept : l ≠ ovl ∨ weakens lock ovl = false) :
      wakeOne (if weakens lock ovl then ovl.lfBlkhd else []) slp = slp := by
    rw [wakeOne, if_neg]
    intro inq
    split at inq
    · rename_i weaker
      have same := (queues.unique distinct hin mem waits.queued).2.2.2 ovl hlk inq
      rcases kept with differ | stronger
      · exact differ same.symm
      · rw [weaker] at stronger
        exact absurd stronger (by simp)
    · simp at inq
  -- the retyped lock still conflicts unless it has become weaker
  have conflicts (stronger : weakens lock ovl = false) (rq : Lockf)
      (clash : Conflicts rq ovl) : Conflicts rq (ovl.retype lock) := by
    obtain ⟨differ, exclusive, together⟩ := clash
    refine ⟨differ, ?_, together⟩
    rcases exclusive with isRequest | held
    · exact Or.inl isRequest
    · right
      cases isType : lock.lfType with
      | wrlck => exact isType
      | rdlck => simp [weakens, isType, held] at stronger
  rw [chg]
  apply queues.change (wakeOne_keepsRequests _)
  · rw [map_append]
    exact distinctLocks
  · intro m mem
    rcases (memIff m).mp mem with rfl | old
    · simp only [retype]
      split
      · exact nodup_nil
      · exact queues.once ovl hlk
    · exact queues.once m (oths m old).1
  · intro slp _ isWoken
    exact wakeOne_woken isWoken
  · intro l' mem ident inq
    rcases (memIff l').mp mem with rfl | old
    · rcases Bool.eq_false_or_eq_true (weakens lock ovl) with weaker | stronger
      · simp [retype, weaker] at inq
      simp only [retype, stronger] at inq
      refine ⟨ovl, hlk, inq, ?_⟩
      intro slp hin _ zz waits
      rw [leftAlone slp hin ovl hlk waits (Or.inr stronger)]
      refine ⟨zz, ?_, waits.next, conflicts stronger _ waits.conflict⟩
      simp only [retype, stronger]
      exact waits.queued
    · refine ⟨l', (oths l' old).1, inq, ?_⟩
      intro slp hin _ zz waits
      rw [leftAlone slp hin l' (oths l' old).1 waits (Or.inl (oths l' old).2)]
      exact ⟨zz, waits⟩
  · intro slp hin _ zz l mem waits
    by_cases same : l = ovl
    · subst same
      rcases Bool.eq_false_or_eq_true (weakens lock l) with weaker | stronger
      · refine Or.inl ?_
        rw [wakeOne, if_pos (by simp [weaker, waits.queued])]
      · refine Or.inr ⟨l.retype lock, (memIff _).mpr (Or.inl rfl), ?_⟩
        rw [leftAlone slp hin l mem waits (Or.inr stronger)]
        refine ⟨?_, waits.next, conflicts stronger _ waits.conflict⟩
        simp only [retype, stronger]
        exact waits.queued
    · refine Or.inr ⟨l, (memIff l).mpr (Or.inr ?_), ?_⟩
      · simp only [parts, mem_append, mem_cons] at mem ⊢
        tauto
      · rw [leftAlone slp hin l mem waits (Or.inl same)]
        exact waits

end Placed

/-! ### Whole steps -/

/-- A change of the sleeping requests by a call on one file. -/
structure Settles (file : φ) (sleepers : List (Sleeper φ)) (change : Sleeper φ → Sleeper φ) :
    Prop where
  keepsRequests : KeepsRequests change
  elsewhere : ∀ sleeper ∈ sleepers, sleeper.lfHead ≠ file → change sleeper = sleeper
  unlinked : ∀ sleeper ∈ sleepers, (sleeper.woken = true → sleeper.lfNext = none) →
    (change sleeper).woken = true → (change sleeper).lfNext = none

theorem settles_wakeOne {queue : List Nat}
    (ofFile : ∀ slp ∈ sls, slp.lock.ident ∈ queue → slp.lfHead = file) :
    Settles file sls (wakeOne queue) := by
  refine ⟨wakeOne_keepsRequests queue, ?_, ?_⟩
  · intro slp mem oth
    rw [wakeOne, if_neg fun inq => oth (ofFile slp mem inq)]
  intro slp _ unl
  unfold wakeOne
  split
  · intro _
    rfl
  · exact unl

theorem settles_serveAll (queues : Queues file locks sls)
    (distinct : (pending sls).Nodup) : Settles file sls (serveAll lock locks) := by
  refine ⟨serveAll_keepsRequests lock locks, ?_, ?_⟩
  · intro slp mem oth
    apply serveAll_of_not_queued
    intro l hlk _ inq
    exact oth (queues.unique distinct mem hlk inq).1
  intro slp mem unl isWoken
  by_cases inq : ∃ l ∈ locks, hit lock l = true ∧ slp.lock.ident ∈ l.lfBlkhd
  · obtain ⟨l, hlk, isHit, inQueue⟩ := inq
    obtain ⟨_, zz, waits, _⟩ := queues.unique distinct mem hlk inQueue
    rw [queues.served distinct mem hlk isHit waits, serve, if_pos inQueue] at isWoken ⊢
    split at isWoken
    · rw [zz] at isWoken
      exact absurd isWoken (by simp)
    · rename_i wakes
      rw [if_neg wakes]
  · have unch : serveAll lock locks slp = slp := by
      apply serveAll_of_not_queued
      intro l hlk isHit inQueue
      exact inq ⟨l, hlk, isHit, inQueue⟩
    rw [unch] at isWoken ⊢
    exact unl isWoken

theorem Queues.placed {sleepers' : List (Sleeper φ)} {res : List Lockf}
    (queues : Queues file locks sls) (distinct : (pending sls).Nodup)
    (good : Consistent locks) (lrng : lock.Ranged)
    (at' : Placed lock spare locks sls res sleepers')
    (spareNew : SpareNew spare lock locks) (unqueued : lock.lfBlkhd = [])
    (newLock : ∀ l ∈ locks.flatMap (remains spare lock), l.ident ≠ lock.ident) :
    Queues file res sleepers' ∧
      ∃ chg, sleepers' = sls.map chg ∧ Settles file sls chg := by
  cases at' with
  | linked left right parts prev s' =>
    refine ⟨queues.linked distinct good lrng spareNew unqueued ?_ parts, _, rfl,
      settles_serveAll queues distinct⟩
    rw [parts]
    exact newLock
  | retyped left right ovl parts own eqS eqEnd =>
    refine ⟨queues.retyped distinct parts, ?_⟩
    split
    · refine ⟨_, wake_eq_map _ _, settles_wakeOne ?_⟩
      intro slp mem inq
      exact (queues.unique distinct mem (by simp [parts]) inq).1
    · refine ⟨_, (wake_nil sls).symm.trans (wake_eq_map _ _), settles_wakeOne ?_⟩
      intro slp _ inq
      simp at inq
  | unchanged ovl mem own eqType beg path =>
    refine ⟨queues, _, (wake_nil _).symm.trans (wake_eq_map _ _), settles_wakeOne ?_⟩
    intro slp _ inq
    simp at inq

theorem ident_of_mem_placed {sleepers' : List (Sleeper φ)} {res : List Lockf}
    (at' : Placed lock spare locks sls res sleepers') {m : Lockf} (mem : m ∈ res) :
    m.ident = lock.ident ∨ m.ident ∈ (locks.flatMap (remains spare lock)).map ident ∨
      m.ident ∈ locks.map ident := by
  cases at' with
  | linked left right parts prev s' =>
    rw [← parts]
    rcases mem_append.mp mem with inL | inR
    · exact Or.inr (Or.inl (mem_map_of_mem (mem_append_left _ inL)))
    · rcases mem_cons.mp inR with rfl | inR
      · exact Or.inl rfl
      · exact Or.inr (Or.inl (mem_map_of_mem (mem_append_right _ inR)))
  | retyped left right ovl parts own eqS eqEnd =>
    refine Or.inr (Or.inr ?_)
    rw [parts]
    rcases mem_append.mp mem with inL | inR
    · exact mem_map_of_mem (mem_append_left _ inL)
    · rcases mem_cons.mp inR with rfl | inR
      · exact mem_map.mpr ⟨ovl, by simp, rfl⟩
      · exact mem_map_of_mem (by simp [inR])
  | unchanged ovl hrest own eqType beg path =>
    exact Or.inr (Or.inr (mem_map_of_mem mem))

variable [DecidableEq φ] {world : World φ} {held held' : List Nat}

/-- A change of one file's list and of its sleepers together. -/
theorem Sound.update {locks' : List Lockf} {env' : Env φ} {chg : Sleeper φ → Sleeper φ}
    (sound : Sound held world) (done : env'.sleepers = world.env.sleepers.map chg)
    (settles : Settles file world.env.sleepers chg) (good : Consistent locks')
    (queues : Queues file locks' (world.env.sleepers.map chg)) (fewer : List.Sublist held' held)
    (new : ∀ l ∈ locks', l.ident ∉ pending world.env.sleepers ++ held' ∧ l.ident < world.fresh) :
    Sound held' { world with heads := update world.heads file locks', env := env' } := by
  have samePending : pending env'.sleepers = pending world.env.sleepers := by
    rw [done, pending_map settles.keepsRequests]
  refine ⟨consistent_update sound.consistent good, ?_, ?_, ?_, ?_, ?_, ?_⟩
  · intro oth
    simp only [done]
    by_cases same : oth = file
    · rw [same, update_self]
      exact queues
    · rw [update_of_ne same]
      apply (sound.queues oth).elsewhere settles.keepsRequests
      intro slp mem isFile
      exact settles.elsewhere slp mem (by rw [isFile]; exact same)
  · intro changed mem
    rw [done] at mem
    obtain ⟨slp, hin, rfl⟩ := mem_map.mp mem
    have prop := sound.proper slp hin
    obtain ⟨eqLock, _, sameSpare⟩ := settles.keepsRequests slp
    refine ⟨?_, ?_, ?_, ?_, settles.unlinked slp hin prop.unlinked⟩
    · rw [eqLock]
      exact prop.ranged
    · rw [eqLock]
      exact prop.whole
    · rw [eqLock, sameSpare]
      exact prop.spared
    · rw [eqLock]
      exact prop.unqueued
  · rw [samePending]
    exact sound.distinct.sublist ((List.Sublist.refl _).append fewer)
  · intro oth l mem
    rw [samePending]
    by_cases same : oth = file
    · rw [same] at mem
      simp only [update_self] at mem
      exact (new l mem).1
    · simp only [update_of_ne same] at mem
      intro lst
      apply sound.unlisted oth l mem
      exact ((List.Sublist.refl _).append fewer).subset lst
  · intro oth l mem
    by_cases same : oth = file
    · rw [same] at mem
      simp only [update_self] at mem
      exact (new l mem).2
    · simp only [update_of_ne same] at mem
      exact sound.bounded.1 oth l mem
  · intro ident lst
    rw [samePending] at lst
    exact sound.bounded.2 ident (((List.Sublist.refl _).append fewer).subset lst)

end NetBSD.Kern.VfsLockf
