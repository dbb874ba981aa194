import Mathlib.Algebra.BigOperators.Finprod
import NetBSD.Kern.LockfRun

/-!
Owns the accounting of lock structures: every structure that exists is counted
once in `ui_lockcnt` of the user in its `lf_uid`, as long as no lock of another
user is copied over a spare lock.
-/

namespace NetBSD.Kern.VfsLockf

open NetBSD.Machine Function List Option World

variable {φ : Type} {lock l : Lockf} {locks tl : List Lockf} {file : φ} {spare : Option Lockf}

/-- How many structures of a list are charged to a user. -/
def charges (uid : Nat) (locks : List Lockf) : Int := (locks.countP (·.lfUid = uid) : Nat)

@[simp] theorem charges_nil (uid : Nat) : charges uid [] = 0 := rfl

@[simp] theorem charges_cons (uid : Nat) (l : Lockf) (tl : List Lockf) :
    charges uid (l :: tl) = (if l.lfUid = uid then 1 else 0) + charges uid tl := by
  simp only [charges, countP_cons, decide_eq_true_eq]
  split <;> simp [add_comm]

@[simp] theorem charges_append (uid : Nat) (left right : List Lockf) :
    charges uid (left ++ right) = charges uid left + charges uid right := by
  simp [charges]

/-- The structures of the requests that sleep, less what the user is charged for. -/
def owed (uid : Nat) (env : Env φ) : Int :=
  charges uid (env.sleepers.flatMap fun sleeper => sleeper.lock :: sleeper.spare.toList) -
    env.lockcnt uid

@[simp] theorem owed_lfFree (env : Env φ) (l : Lockf) (uid : Nat) :
    owed uid (lfFree env l) = owed uid env + charges uid [l] := by
  unfold owed lfFree
  by_cases same : l.lfUid = uid
  · subst same
    simp only [update_self, charges_cons, if_true, charges_nil]
    omega
  · simp [update_of_ne (Ne.symm same), same]

theorem owed_map {chg : Sleeper φ → Sleeper φ} (keepsRequests : KeepsRequests chg)
    (uid : Nat) (env : Env φ) :
    owed uid { env with sleepers := env.sleepers.map chg } = owed uid env := by
  have same : ∀ slp : Sleeper φ, (chg slp).lock :: (chg slp).spare.toList =
        slp.lock :: slp.spare.toList := by
    intro slp
    obtain ⟨lck, _, isSpare⟩ := keepsRequests slp
    rw [lck, isSpare]
  simp only [owed, flatMap_map, same]

@[simp] theorem owed_wake (uid : Nat) (queue : List Nat) (env : Env φ) :
    owed uid { env with sleepers := wake queue env.sleepers } = owed uid env :=
  owed_map (wakeOne_keepsRequests queue) uid env

@[simp] theorem owed_handTo (uid block : Nat) (queue : List Nat) (env : Env φ) :
    owed uid { env with sleepers := handTo block queue env.sleepers } = owed uid env := by
  apply owed_map
  intro slp
  simp only
  split <;> exact ⟨rfl, rfl, rfl⟩

/-- `lf_split` copies this lock over the spare one. -/
def Splits (lock l : Lockf) : Prop :=
  l.lfId = lock.lfId ∧ ovcaseOf l lock = some .overlapContainsLock ∧ l.lfStart ≠ lock.lfStart ∧
    l.lfEnd ≠ lock.lfEnd

def Search.PartsOf (lock : Lockf) (whole rest : List Lockf) : Search → Prop
  | .noOverlap skipped after => skipped ++ after = whole
  | .found ovcase skipped overlap after =>
    skipped ++ overlap :: after = whole ∧ overlap ∈ rest ∧ (∀ l ∈ after, l ∈ rest) ∧
      overlap.lfId = lock.lfId ∧ ovcaseOf overlap lock = some ovcase
  | .panic => True

theorem Search.PartsOf.cons {search : Search} {whole : List Lockf}
    (parts : search.PartsOf lock whole tl) : search.PartsOf lock whole (l :: tl) := by
  cases search with
  | panic => trivial
  | noOverlap skip s' => exact parts
  | found ovcase skip ovl s' =>
    obtain ⟨hw, mem, hrest, isOwn⟩ := parts
    exact ⟨hw, mem_cons_of_mem l mem,
      fun m inAfter => mem_cons_of_mem l (hrest m inAfter), isOwn⟩

theorem lfFindoverlap_parts (bef : List Lockf) :
    (lfFindoverlap .self lock bef tl).PartsOf lock (bef ++ tl) tl := by
  induction tl generalizing bef with
  | nil => rfl
  | cons l tl ih =>
    have skips := (ih (bef ++ [l])).cons (l := l)
    rw [append_assoc] at skips
    rw [lfFindoverlap]
    split
    · exact skips
    rename_i own
    split
    · split
      · rfl
      · exact skips
    cases isCase : ovcaseOf l lock with
    | none => trivial
    | some ovcase =>
      refine ⟨rfl, mem_cons_self, fun m inAfter => mem_cons_of_mem l inAfter, ?_, isCase⟩
      by_contra oth
      exact own (Or.inl ⟨rfl, oth⟩)

variable {spare' : Option Lockf}

theorem lfSplit_charges {lock1 : Lockf} {left right : List Lockf}
    (split : lfSplit lock1 lock spare = some (left, right, spare'))
    (sameUser : ∀ sp, spare = some sp → lock1.lfStart ≠ lock.lfStart → lock1.lfEnd ≠ lock.lfEnd →
      lock1.lfUid = sp.lfUid) (uid : Nat) :
    charges uid left + charges uid right + charges uid spare'.toList =
      charges uid [lock1] + charges uid spare.toList := by
  unfold lfSplit at split
  split_ifs at split with sameStart sameEnd
  · obtain ⟨rfl, rfl, rfl⟩ := some.inj split
    simp
  · obtain ⟨rfl, rfl, rfl⟩ := some.inj split
    simp
  · cases isSpare : spare with
    | none => simp [isSpare] at split
    | some sp =>
      rw [isSpare] at split
      obtain ⟨rfl, rfl, rfl⟩ := some.inj split
      simp [sameUser sp isSpare sameStart sameEnd]

def SameUser (spare : Option Lockf) (lock : Lockf) (rest : List Lockf) : Prop :=
  ∀ sp, spare = some sp → ∀ l ∈ rest, Splits lock l → l.lfUid = sp.lfUid

variable {locks' bef : List Lockf} {env' env : Env φ}

/-- Clearing frees what it unlinks and charges what it splits off. -/
theorem lfClearLoop_charges (uid : Nat) {fuel : Nat}
    (ran : lfClearLoop lock fuel bef tl spare env = some (locks', spare', env'))
    (sameUser : SameUser spare lock tl) :
    charges uid locks' + charges uid spare'.toList + owed uid env' =
      charges uid (bef ++ tl) + charges uid spare.toList + owed uid env := by
  induction fuel generalizing bef tl env with
  | zero => exact absurd ran (by simp [lfClearLoop])
  | succ fuel ih =>
    have search : (lfFindoverlap .self lock bef tl).PartsOf lock (bef ++ tl) tl :=
      lfFindoverlap_parts bef
    rw [lfClearLoop] at ran
    cases found : lfFindoverlap .self lock bef tl with
    | panic => simp [found] at ran
    | noOverlap skip s' =>
      rw [found] at search ran
      obtain ⟨rfl, rfl, rfl⟩ := some.inj ran
      rw [search]
    | found ovcase skip ovl s' =>
      rw [found] at search ran
      obtain ⟨parts, mem, hrest, own, isCase⟩ := search
      have tailUser : SameUser spare lock s' :=
        fun sp isSpare l inAfter => sameUser sp isSpare l (hrest l inAfter)
      rw [← parts]
      cases ovcase with
      | overlapIsLock =>
        obtain ⟨rfl, rfl, rfl⟩ := some.inj ran
        simp
        omega
      | overlapContainsLock =>
        by_cases eqS : ovl.lfStart = lock.lfStart
        · simp only [lfWakelock, eqS] at ran
          obtain ⟨rfl, rfl, rfl⟩ := some.inj ran
          simp
        simp only [lfWakelock, eqS] at ran
        obtain ⟨⟨left, right, given⟩, split, isRan⟩ := map_eq_some_iff.mp ran
        obtain ⟨rfl, rfl, rfl⟩ := isRan
        have cnt := lfSplit_charges split (fun sp isSpare eqS eqEnd =>
            sameUser sp isSpare ovl mem ⟨own, isCase, eqS, eqEnd⟩) uid
        simp at cnt ⊢
        omega
      | lockContainsOverlap | overlapStartsBefore =>
        have cnt := ih ran tailUser
        simp at cnt ⊢
        omega
      | overlapEndsAfter =>
        obtain ⟨rfl, rfl, rfl⟩ := some.inj ran
        simp

theorem takeList_owed (lock ovl : Lockf) (env : Env φ) :
    ∃ queue env', takeList lock ovl env = (lock.extend queue, env') ∧
      ∀ uid, owed uid env' = owed uid env := by
  unfold takeList
  split
  · refine ⟨[], (lfWakelock env ovl).1, by rw [Lockf.extend_nil], ?_⟩
    exact fun uid => owed_wake uid ovl.lfBlkhd env
  · refine ⟨ovl.lfBlkhd, _, rfl, ?_⟩
    exact fun uid => owed_handTo uid lock.ident ovl.lfBlkhd env

def onList (front : Option (List Lockf)) (lock : Lockf) (before : List Lockf) : List Lockf :=
  match front with
  | none => lock :: before
  | some front => front ++ lock :: before

/-- Setting balances every lock made and freed against its user's count. -/
theorem lfSetLoop_charges (uid : Nat) {fuel : Nat} {pre : Option (List Lockf)}
    (ran : lfSetLoop fuel lock pre bef tl spare env = some (locks', spare', env'))
    (sameUser : ∀ sp, spare = some sp → ∀ l ∈ tl, Splits lock l → l.lfType ≠ lock.lfType →
      l.lfUid = sp.lfUid) :
    charges uid locks' + charges uid spare'.toList + owed uid env' =
      charges uid (onList pre lock bef ++ tl) + charges uid spare.toList + owed uid env := by
  induction fuel generalizing lock pre bef tl env with
  | zero => exact absurd ran (by simp [lfSetLoop])
  | succ fuel ih =>
    have search : (lfFindoverlap .self lock bef tl).PartsOf lock (bef ++ tl) tl :=
      lfFindoverlap_parts bef
    have whole : charges uid (onList pre lock bef ++ tl) =
        charges uid (onList pre lock []) + charges uid (bef ++ tl) := by
      cases pre <;> simp [onList, add_assoc]
    rw [lfSetLoop] at ran
    rw [whole]
    cases found : lfFindoverlap .self lock bef tl with
    | panic => simp [found] at ran
    | noOverlap skip s' =>
      rw [found] at search ran
      rw [← search]
      cases pre with
      | none | some =>
        obtain ⟨rfl, rfl, rfl⟩ := some.inj ran
        simp [onList]
        omega
    | found ovcase skip ovl s' =>
      rw [found] at search ran
      obtain ⟨parts, mem, hrest, own, isCase⟩ := search
      have tailUser : ∀ sp, spare = some sp → ∀ l ∈ s', Splits lock l →
          l.lfType ≠ lock.lfType → l.lfUid = sp.lfUid :=
        fun sp isSpare l inAfter => sameUser sp isSpare l (hrest l inAfter)
      rw [← parts]
      cases ovcase with
      | overlapIsLock =>
        cases pre with
        | some pre => exact absurd ran (by simp)
        | none =>
          by_cases weaker : lock.lfType = .rdlck ∧ ovl.lfType = .wrlck
          · simp only [if_pos weaker] at ran
            obtain ⟨rfl, rfl, rfl⟩ := some.inj ran
            simp [onList, lfWakelock]
            omega
          · simp only [if_neg weaker] at ran
            obtain ⟨rfl, rfl, rfl⟩ := some.inj ran
            simp [onList]
            omega
      | overlapContainsLock =>
        cases pre with
        | some pre => exact absurd ran (by simp)
        | none =>
          by_cases eqType : ovl.lfType = lock.lfType
          · simp only [eqType] at ran
            obtain ⟨rfl, rfl, rfl⟩ := some.inj ran
            simp [onList]
            omega
          by_cases eqS : ovl.lfStart = lock.lfStart
          · simp only [lfWakelock, eqType, eqS] at ran
            obtain ⟨rfl, rfl, rfl⟩ := some.inj ran
            simp [onList]
            omega
          simp only [lfWakelock, eqType, eqS] at ran
          obtain ⟨⟨left, right, given⟩, split, isRan⟩ := map_eq_some_iff.mp ran
          obtain ⟨rfl, rfl, rfl⟩ := isRan
          have cnt := lfSplit_charges split
            (fun sp isSpare _ eqEnd => sameUser sp isSpare ovl mem
              ⟨own, isCase, eqS, eqEnd⟩ eqType) uid
          simp [onList] at cnt ⊢
          omega
      | lockContainsOverlap =>
        obtain ⟨queue, env₁, taken, sameOwed⟩ := takeList_owed lock ovl env
        simp only [taken] at ran
        cases pre with
        | none | some =>
          have cnt := ih ran tailUser
          simp [onList, Lockf.extend, sameOwed] at cnt ⊢
          omega
      | overlapStartsBefore =>
        cases pre with
        | some pre => exact absurd ran (by simp)
        | none =>
          have cnt := ih ran tailUser
          simp [onList] at cnt ⊢
          omega
      | overlapEndsAfter =>
        cases pre with
        | none | some =>
          obtain ⟨rfl, rfl, rfl⟩ := some.inj ran
          simp [onList]
          omega

/-! ### The ledger -/

theorem finsum_update [DecidableEq φ] {cnt : φ → Int} (finite : cnt.support.Finite) (file : φ)
    (v : Int) : ∑ᶠ oth, Function.update cnt file v oth =
      (∑ᶠ oth, cnt oth) - cnt file + v := by
  have mem : file ∈ insert file finite.toFinset := Finset.mem_insert_self _ _
  have bef : cnt.support ⊆ ↑(insert file finite.toFinset) := by
    intro oth ne0
    simp [ne0]
  have s' : (Function.update cnt file v).support ⊆ ↑(insert file finite.toFinset) := by
    intro oth ne0
    by_cases same : oth = file
    · simp [same]
    · rw [mem_support, update_of_ne same] at ne0
      exact bef ne0
  rw [finsum_eq_sum_of_support_subset _ bef, finsum_eq_sum_of_support_subset _ s',
    Finset.sum_update_of_mem mem, Finset.sum_eq_add_sum_sdiff_singleton_of_mem mem cnt]
  omega

/-- What `ui_lockcnt` counts: the structures on the lists, of the requests that sleep, and in the
hands of the running call. -/
structure Ledger (held : List Lockf) (world : World φ) : Prop where
  finite : {file | world.heads file ≠ []}.Finite
  balanced : ∀ uid, (∑ᶠ file, charges uid (world.heads file)) + charges uid held +
    owed uid world.env = 0

variable {w : World φ} {held held' : List Lockf}

variable {world' : World φ}

theorem Ledger.congr (ledger : Ledger held w)
    (heads : world'.heads = w.heads)
    (cnts : ∀ uid, charges uid held' + owed uid world'.env =
      charges uid held + owed uid w.env) : Ledger held' world' := by
  refine ⟨?_, ?_⟩
  · rw [heads]
    exact ledger.finite
  · intro uid
    have bal := ledger.balanced uid
    have cnt := cnts uid
    rw [heads]
    omega

theorem Ledger.lfFree (ledger : Ledger (lock :: held) w) :
    Ledger held { w with env := VfsLockf.lfFree w.env lock } := by
  refine ledger.congr (by rfl) ?_
  simp
  omega

theorem Ledger.freeSpare (ledger : Ledger spare.toList w) :
    Ledger [] (VfsLockf.freeSpare spare w) := by
  cases spare with
  | none => exact ledger
  | some sp => exact ledger.lfFree

theorem Ledger.update [DecidableEq φ] (ledger : Ledger held w)
    (cnts : ∀ uid, charges uid locks' + charges uid held' + owed uid env' =
      charges uid (w.heads file) + charges uid held + owed uid w.env) :
    Ledger held' { w with
      heads := Function.update w.heads file locks', env := env' } := by
  refine ⟨?_, ?_⟩
  · refine (ledger.finite.insert file).subset ?_
    intro oth occupied
    by_cases same : oth = file
    · exact Or.inl same
    · change Function.update w.heads file locks' oth ≠ [] at occupied
      rw [update_of_ne same] at occupied
      exact Or.inr occupied
  intro uid
  have support : (fun oth => charges uid (w.heads oth)).support.Finite := by
    refine ledger.finite.subset ?_
    intro oth ne0 empty
    apply ne0
    simp only [empty, charges_nil]
  have replaced : (fun oth => charges uid (Function.update w.heads file locks' oth)) =
      Function.update (fun oth => charges uid (w.heads oth)) file (charges uid locks') := by
    funext oth
    by_cases same : oth = file
    · rw [same, update_self, update_self]
    · rw [update_of_ne same, update_of_ne same]
  have bal := ledger.balanced uid
  have cnt := cnts uid
  simp only [replaced, finsum_update support]
  omega

/-! ### Steps -/

theorem charges_requeue {chg : Lockf → Lockf} (req : Requeues chg) (uid : Nat)
    (locks : List Lockf) : charges uid (locks.map chg) = charges uid locks := by
  have same : ∀ l, (chg l).lfUid = l.lfUid := by
    intro l
    obtain ⟨queue, isChange⟩ := req l
    rw [isChange]
  induction locks with
  | nil => rfl
  | cons l locks ih =>
    simp only [map_cons, charges_cons, same, ih]

theorem lfClearLoop_noSpare {fuel : Nat}
    (ran : lfClearLoop lock fuel bef tl none env = some (locks', spare', env')) :
    spare' = none := by
  induction fuel generalizing bef tl env with
  | zero => exact absurd ran (by simp [lfClearLoop])
  | succ fuel ih =>
    rw [lfClearLoop] at ran
    cases found : lfFindoverlap .self lock bef tl with
    | panic => simp [found] at ran
    | noOverlap skip s' =>
      rw [found] at ran
      obtain ⟨rfl, rfl, rfl⟩ := some.inj ran
      rfl
    | found ovcase skip ovl s' =>
      rw [found] at ran
      cases ovcase with
      | overlapIsLock | overlapEndsAfter =>
        obtain ⟨rfl, rfl, rfl⟩ := some.inj ran
        rfl
      | overlapContainsLock =>
        by_cases eqS : ovl.lfStart = lock.lfStart
        · simp only [lfWakelock, eqS] at ran
          obtain ⟨rfl, rfl, rfl⟩ := some.inj ran
          rfl
        simp only [lfWakelock, eqS] at ran
        obtain ⟨⟨left, right, given⟩, split, isRan⟩ := map_eq_some_iff.mp ran
        obtain ⟨rfl, rfl, rfl⟩ := isRan
        unfold lfSplit at split
        split_ifs at split
        · obtain ⟨rfl, rfl, rfl⟩ := some.inj split
          rfl
        · obtain ⟨rfl, rfl, rfl⟩ := some.inj split
          rfl
      | lockContainsOverlap => exact ih ran
      | overlapStartsBefore => exact ih ran

theorem charges_filter {sls : List (Sleeper φ)} (dist : (pending sls).Nodup)
    {slp : Sleeper φ} (mem : slp ∈ sls) (uid : Nat) :
    charges uid ((sls.filter (·.lock.ident ≠ slp.lock.ident)).flatMap
        fun slp => slp.lock :: slp.spare.toList) +
      charges uid (slp.lock :: slp.spare.toList) =
    charges uid (sls.flatMap fun slp => slp.lock :: slp.spare.toList) := by
  obtain ⟨left, right, rfl⟩ := append_of_mem mem
  rw [filter_others dist]
  simp only [flatMap_append, flatMap_cons, charges_append]
  omega

/-- A request that is granted splits only a lock of this user, unless it is of its type. -/
def GrantCharged (lock : Lockf) (uid : Nat) (locks : List Lockf) : Prop :=
  (∀ m ∈ locks, ¬ Conflicts lock m) →
    ∀ l ∈ locks, Splits lock l → l.lfType ≠ lock.lfType → l.lfUid = uid

section Steps

variable [DecidableEq φ]

omit [DecidableEq φ] in
theorem giveUp_charges (gaveUp : giveUp lock locks env = some (locks', spare', env')) (uid : Nat) :
    charges uid locks' + owed uid env' = charges uid locks + owed uid env := by
  unfold giveUp at gaveUp
  split at gaveUp
  · have hn := lfClearLoop_noSpare gaveUp
    subst hn
    have cnt := lfClearLoop_charges uid gaveUp (by simp [SameUser])
    simpa using cnt
  · obtain ⟨rfl, rfl, rfl⟩ := some.inj gaveUp
    rfl

variable {threaded : Nat → Bool} {out : Outcome}

section

variable (ledger : Ledger (lock :: spare.toList) w) (cst : Consistent (w.heads file))
  (ranged : lock.Ranged)

include ledger cst ranged

/-- A set request keeps the ledger, the spare lock counted. -/
theorem Ledger.lfSetlock
    (charged : ∀ sp, spare = some sp → GrantCharged lock sp.lfUid (w.heads file)) {wait : Bool}
    (ran : VfsLockf.lfSetlock threaded w file lock wait spare = some (out, spare', world')) :
    Ledger spare'.toList world' := by
  unfold VfsLockf.lfSetlock at ran
  rcases lfGetblock_spec ranged cst.ranged (le_refl _) with ⟨ans, free⟩ |
    ⟨block, hlk, ans, blk⟩
  · have noConflict : ∀ l ∈ w.heads file, ¬ Conflicts lock l := by
      intro l mem clash
      exact free l mem ((blocks_iff (cst.ranged l mem) ranged).mpr clash)
    simp only [ans] at ran
    obtain ⟨⟨locks', left, env'⟩, loop, isRan⟩ := map_eq_some_iff.mp ran
    obtain ⟨rfl, rfl, rfl⟩ := isRan
    apply ledger.update
    intro uid
    have cnt := lfSetLoop_charges uid loop (fun sp isSpare => charged sp isSpare noConflict)
    simp [onList] at cnt ⊢
    omega
  simp only [ans] at ran
  by_cases noWait : wait = false
  · rw [if_pos noWait] at ran
    obtain ⟨rfl, rfl, rfl⟩ := some.inj ran
    exact ledger.lfFree
  rw [if_neg noWait] at ran
  cases isFound : detected threaded w lock block with
  | none => simp [isFound] at ran
  | some fnd =>
    cases fnd with
    | true =>
      simp only [isFound] at ran
      obtain ⟨rfl, rfl, rfl⟩ := some.inj ran
      exact ledger.lfFree
    | false =>
      simp only [isFound] at ran
      obtain ⟨⟨locks', left, env'⟩, gaveUp, isRan⟩ := map_eq_some_iff.mp ran
      obtain ⟨rfl, rfl, rfl⟩ := isRan
      apply ledger.update
      intro uid
      have inq : charges uid (enqueue lock.ident block.ident locks') = charges uid locks' :=
        charges_requeue (requeues_joinQueue lock.ident block.ident) uid locks'
      have cnt := giveUp_charges gaveUp uid
      simp [owed, inq] at cnt ⊢
      omega

def OpCharged (op : Op) (lock : Lockf) (uid : Nat) (locks : List Lockf) : Prop :=
  match op with
  | .setlk => GrantCharged lock uid locks
  | .unlck => ∀ l ∈ locks, Splits lock l → l.lfUid = uid
  | .getlk => True

theorem Ledger.lfOperate {op : Op}
    (charged : ∀ sp, spare = some sp → OpCharged op lock sp.lfUid (w.heads file)) {wait : Bool}
    (ran : VfsLockf.lfOperate threaded w op file lock wait spare = some (out, world')) :
    Ledger [] world' := by
  unfold VfsLockf.lfOperate at ran
  split at ran
  · obtain ⟨rfl, rfl⟩ := some.inj ran
    exact ledger.lfFree.freeSpare
  cases op with
  | setlk =>
    obtain ⟨⟨ans, left, set⟩, hc, isRan⟩ := map_eq_some_iff.mp ran
    obtain ⟨rfl, rfl⟩ := isRan
    exact (ledger.lfSetlock cst ranged charged hc).freeSpare
  | unlck =>
    obtain ⟨⟨locks', left, env'⟩, clrd, isRan⟩ := map_eq_some_iff.mp ran
    obtain ⟨rfl, rfl⟩ := isRan
    apply Ledger.freeSpare
    apply ledger.update
    intro uid
    have cnt := lfClearLoop_charges uid clrd charged
    simp at cnt ⊢
    omega
  | getlk =>
    obtain ⟨ans, _, isRan⟩ := map_eq_some_iff.mp ran
    obtain ⟨rfl, rfl⟩ := isRan
    exact ledger.lfFree.freeSpare

end

omit [DecidableEq φ] in
theorem Ledger.lfAlloc (ledger : Ledger held w) {uid allowfail : Nat}
    (given : VfsLockf.lfAlloc w uid allowfail = (some lock, world')) :
    Ledger (lock :: held) world' ∧ lock.lfUid = uid ∧ world'.heads = w.heads := by
  unfold VfsLockf.lfAlloc at given
  generalize (if allowfail = 1 then maxlocksperuid else maxlocksperuid * 2) = limit at given
  simp only at given
  split at given
  · exact absurd given (by simp)
  obtain ⟨lck, rfl⟩ := Prod.mk.inj given
  obtain rfl := some.inj lck
  refine ⟨ledger.congr (by rfl) ?_, rfl, rfl⟩
  intro user
  by_cases same : uid = user
  · subst same
    simp [owed]
    omega
  · simp [owed, same, update_of_ne (Ne.symm same)]

omit [DecidableEq φ] in
theorem lfAlloc_none {uid allowfail : Nat} (bad : lfAlloc w uid allowfail = (none, world')) :
    world' = w := by
  unfold lfAlloc at bad
  generalize (if allowfail = 1 then maxlocksperuid else maxlocksperuid * 2) = limit at bad
  simp only at bad
  split at bad
  · exact (Prod.mk.inj bad).2.symm
  · exact absurd bad (by simp)

/-- The request splits only locks that are charged to the effective user of the call. -/
def Call.Charged (call : Call φ) (world : World φ) : Prop :=
  ∀ start stop, call.range = some (start, stop) →
    OpCharged call.op (call.lockOf start stop) call.euid (world.heads call.file)

/-- A whole call keeps the ledger. -/
theorem Ledger.lfAdvlock (ledger : Ledger [] w) (sound : Sound [] w) {call : Call φ}
    (prop : call.Proper) (fits : call.Fits w) (charged : call.Charged w)
    (ran : VfsLockf.lfAdvlock threaded w call = some (out, world')) : Ledger [] world' := by
  unfold VfsLockf.lfAdvlock at ran
  cases isRange : call.range with
  | none =>
    simp only [isRange] at ran
    obtain ⟨rfl, rfl⟩ := some.inj ran
    exact ledger
  | some ends =>
    obtain ⟨beg, stop⟩ := ends
    obtain ⟨ranged, _⟩ := Call.ranged prop isRange (fits beg stop isRange).1
    obtain ⟨spare, spared, isSpared, ofUser, sameHeads, kept⟩ : ∃ spare spared,
        (if needsSpare call then VfsLockf.lfAlloc w call.euid 0 else (none, w)) =
          (spare, spared) ∧
        (∀ sp, spare = some sp → sp.lfUid = call.euid) ∧ spared.heads = w.heads ∧
        Ledger spare.toList spared := by
      split
      · obtain ⟨lock, alloc, given, _⟩ := sound.lfAlloc_always call.euid
        obtain ⟨cnt, isUser, heads⟩ := ledger.lfAlloc given
        refine ⟨some lock, alloc, given, ?_, heads, cnt⟩
        rintro sp ⟨⟩
        exact isUser
      · exact ⟨none, w, rfl, by simp, rfl, ledger⟩
    simp only [isRange, isSpared] at ran
    cases given : VfsLockf.lfAlloc spared call.euid (allowfail call.op beg stop) with
    | mk ans alloc =>
      cases ans with
      | none =>
        simp only [given] at ran
        obtain ⟨rfl, rfl⟩ := some.inj ran
        rw [lfAlloc_none given]
        exact kept.freeSpare
      | some lock =>
        obtain ⟨cnt, _, heads⟩ := kept.lfAlloc given
        simp only [given] at ran
        have inHand : Ledger (({ lock with
            lfType := call.lType
            lfStart := beg
            lfEnd := stop
            lfId := call.id } : Lockf) :: spare.toList) alloc := by
          refine cnt.congr rfl ?_
          simp
        refine inHand.lfOperate ?_ ⟨ranged.nonneg, ranged.ordered, ranged.bounded⟩ ?_ ran
        · rw [heads, sameHeads]
          exact sound.consistent call.file
        · intro sp isSpare
          rw [heads, sameHeads, ofUser sp isSpare]
          exact charged beg stop isRange

theorem Ledger.withdraw (ledger : Ledger [] w) (sound : Sound [] w) {slp : Sleeper φ}
    (mem : slp ∈ w.env.sleepers) :
    Ledger (slp.lock :: slp.spare.toList) (w.withdraw slp) := by
  have dist : (pending w.env.sleepers).Nodup := by simpa using sound.distinct
  have sameLists (file : φ) (uid : Nat) :
      charges uid (withdrawn w.heads slp file) = charges uid (w.heads file) := by
    obtain ⟨chg, req, isChange⟩ := withdrawn_requeues w.heads slp file
    rw [isChange]
    exact charges_requeue req uid (w.heads file)
  refine ⟨?_, ?_⟩
  · refine ledger.finite.subset ?_
    intro file occupied empty
    obtain ⟨chg, _, isChange⟩ := withdrawn_requeues w.heads slp file
    apply occupied
    simp only [World.withdraw, isChange, empty, map_nil]
  intro uid
  have bal := ledger.balanced uid
  have left := charges_filter dist mem uid
  simp only [World.withdraw, sameLists]
  simp only [owed, charges_nil] at bal ⊢
  omega

/-- The sleeping request that is granted splits only locks of the user of its spare lock. -/
def ResumeCharged (world : World φ) (ident : Nat) : Prop :=
  ∀ sleeper ∈ world.env.sleepers, sleeper.lock.ident = ident → sleeper.woken = true →
    ∀ sp, sleeper.spare = some sp → GrantCharged sleeper.lock sp.lfUid (world.heads sleeper.lfHead)

omit [DecidableEq φ] in
theorem GrantCharged.requeue {chg : Lockf → Lockf} {uid : Nat}
    (charged : GrantCharged lock uid locks) (req : Requeues chg) :
    GrantCharged lock uid (locks.map chg) := by
  intro free m mem splits ne
  obtain ⟨l, hlk, rfl⟩ := mem_map.mp mem
  have free' : ∀ l ∈ locks, ¬ Conflicts lock l := by
    intro l hlk clash
    exact free (chg l) (mem_map_of_mem hlk) ((req.conflicts lock l).mpr clash)
  obtain ⟨queue, isChange⟩ := req l
  rw [isChange] at splits ne ⊢
  exact charged free' l hlk splits ne

theorem Ledger.lfResume (ledger : Ledger [] w) (sound : Sound [] w) {ident : Nat}
    {error : Bool} (charged : error = false → ResumeCharged w ident)
    (ran : VfsLockf.lfResume threaded w ident error = some (out, world')) :
    Ledger [] world' := by
  unfold VfsLockf.lfResume at ran
  split at ran
  · obtain ⟨rfl, rfl⟩ := some.inj ran
    exact ledger
  rename_i slp fnd
  have mem := mem_of_find?_eq_some fnd
  have isIdent : slp.lock.ident = ident := by simpa using find?_some fnd
  have left := ledger.withdraw sound mem
  split at ran
  · obtain ⟨rfl, rfl⟩ := some.inj ran
    exact ledger
  rename_i runs
  cases error with
  | true =>
    obtain ⟨rfl, rfl⟩ := some.inj ran
    exact left.lfFree.freeSpare
  | false =>
    obtain ⟨⟨ans, spare', set⟩, hc, isRan⟩ := map_eq_some_iff.mp ran
    obtain ⟨rfl, rfl⟩ := isRan
    obtain ⟨chg, req, isChange⟩ :=
      withdrawn_requeues w.heads slp slp.lfHead
    refine (left.lfSetlock ((sound.withdraw mem).consistent slp.lfHead)
      (sound.proper slp mem).ranged ?_ hc).freeSpare
    intro sp isSpare
    simp only [World.withdraw, isChange]
    exact (charged rfl slp mem isIdent (by simpa using runs) sp isSpare).requeue req

omit [DecidableEq φ] in
theorem ledger_empty : Ledger [] (empty : World φ) := by
  refine ⟨?_, ?_⟩
  · simp [empty]
  · simp [empty, owed]

/-- No lock of another user than that of the spare lock is split. -/
def Input.Charged (world : World φ) : Input φ → Prop
  | .call _ asked => asked.Charged world
  | .resume _ ident error => error = false → ResumeCharged world ident

theorem Ledger.lockfStep (ledger : Ledger [] w) (sound : Sound [] w) {input : Input φ}
    (prop : input.Proper) (fits : input.Fits w) (charged : input.Charged w)
    {s' : World φ} (ran : VfsLockf.lockfStep w input = some s') : Ledger [] s' := by
  cases input with
  | call threaded call =>
    obtain ⟨⟨out, got⟩, hc, rfl⟩ := map_eq_some_iff.mp ran
    exact ledger.lfAdvlock sound prop fits charged hc
  | resume threaded ident error =>
    obtain ⟨⟨out, got⟩, res, rfl⟩ := map_eq_some_iff.mp ran
    exact ledger.lfResume sound charged res

/-- The existing structures that are charged to a user through `lf_uid`: the locks of all files,
and the requests that sleep with their spare locks. -/
noncomputable def World.charged (world : World φ) (uid : Nat) : Int :=
  (∑ᶠ file, charges uid (world.heads file)) +
    charges uid (world.env.sleepers.flatMap fun sleeper => sleeper.lock :: sleeper.spare.toList)

omit [DecidableEq φ] in
theorem Ledger.lockcnt (ledger : Ledger [] w) (uid : Nat) :
    w.env.lockcnt uid = w.charged uid := by
  have bal := ledger.balanced uid
  simp only [owed, charges_nil] at bal
  unfold charged
  omega

omit [DecidableEq φ] in
theorem World.charged_nonneg (w : World φ) (uid : Nat) : 0 ≤ w.charged uid := by
  have cnts : ∀ locks, 0 ≤ charges uid locks := fun locks => Int.natCast_nonneg _
  exact add_nonneg (finsum_nonneg fun file => cnts _) (cnts _)

omit [DecidableEq φ] in
theorem World.charged_released (w : World φ) (released : ∀ file, w.heads file = [])
    (awake : w.env.sleepers = []) (uid : Nat) : w.charged uid = 0 := by
  simp [charged, released, awake]

/-- Calls of any effective users, wakeups and signals in any order, of which none splits a lock
that is charged to another user than the spare lock: in every state that is reached each user is
charged for the structures that exist, so never for less than none, and for none when all locks
are released. -/
theorem lockcnt_eq_charged {inputs : List (Input φ)} (proper : ∀ input ∈ inputs, input.Proper)
    (fits : ∀ front input, front ++ [input] <+: inputs → ∀ reached,
      consume VfsLockf.lockfStep front World.empty = some reached →
        input.Fits reached ∧ input.Charged reached) :
    ∀ front, front <+: inputs → ∃ w, consume VfsLockf.lockfStep front World.empty = some w ∧
      ∀ uid, w.env.lockcnt uid = w.charged uid ∧ 0 ≤ w.env.lockcnt uid ∧
        ((∀ file, w.heads file = []) → w.env.sleepers = [] →
          w.env.lockcnt uid = 0) := by
  intro front pre
  obtain ⟨w, eaten, _, ledger⟩ := consume_invariant VfsLockf.lockfStep
    (fun w => Sound [] w ∧ Ledger [] w)
    (fun w input => input.Proper ∧ input.Fits w ∧ input.Charged w)
    (by
      rintro w input ⟨sound, ledger⟩ ⟨properInput, fitsInput, chargedInput⟩
      obtain ⟨s', moved, kept⟩ := sound.lockfStep properInput fitsInput
      exact ⟨s', moved, kept, ledger.lockfStep sound properInput fitsInput chargedInput moved⟩)
    front ⟨sound_empty, ledger_empty⟩
    (by
      intro old input inF reached eaten
      have mem := inF.trans pre
      exact ⟨proper input (mem.subset (by simp)), fits old input mem reached eaten⟩)
  refine ⟨w, eaten, ?_⟩
  intro uid
  rw [ledger.lockcnt uid]
  exact ⟨rfl, w.charged_nonneg uid,
    fun released awake => w.charged_released released awake uid⟩

end Steps

/-- A process locks the bytes from 0 to 9 and unlocks the bytes 3 and 4. -/
def splitBySelf : List (Input Unit) :=
  [posixCall .setlk 1 false .wrlck 0 10, posixCall .unlck 1 false .wrlck 3 2]

theorem lockcnt_eq_charged_splitBySelf :
    ∃ w, consume lockfStep splitBySelf World.empty = some w ∧
      w.env.lockcnt 0 = w.charged 0 := by
  have fst := @posixCall_fits .setlk 1 false .wrlck 0 10 (by decide) (by decide) (by decide)
  have snd := @posixCall_fits .unlck 1 false .wrlck 3 2 (by decide) (by decide) (by decide)
  obtain ⟨w, eaten, cnt⟩ := lockcnt_eq_charged (by
      intro input mem
      simp only [splitBySelf, mem_cons, not_mem_nil, or_false] at mem
      rcases mem with rfl | rfl
      · exact (fst empty).1
      · exact (snd empty).1)
    (by
      intro front input pre got eaten
      rcases front with _ | ⟨bef, _ | ⟨s', front⟩⟩
      · obtain rfl : input = _ := by simpa [splitBySelf] using pre
        obtain rfl := some.inj eaten
        refine ⟨(fst empty).2, ?_⟩
        intro beg stop _ _ l mem
        exact absurd mem (by simp [empty])
      · obtain ⟨rfl, rfl⟩ : bef = _ ∧ input = _ := by simpa [splitBySelf] using pre
        obtain rfl := some.inj eaten
        refine ⟨(snd _).2, ?_⟩
        intro beg stop _ l mem _
        rw [mem_singleton.mp mem]
      · simp [splitBySelf] at pre)
    splitBySelf prefix_rfl
  exact ⟨w, eaten, (cnt 0).1⟩

/-- A write lock or an unlock of process 1 as an effective user. -/
def userCall (op : Op) (euid : Nat) (start len : Int) : Input Unit :=
  .call (fun _ => false) ⟨op, (), .proc 1, false, .wrlck, .set, start, len, 0, euid⟩

/-- A process locks the bytes from 0 to 9 as one user, unlocks the bytes 3 and 4 as another, and
then all bytes as the first. -/
def splitByOther : List (Input Unit) :=
  [userCall .setlk 1 0 10, userCall .unlck 2 3 2, userCall .unlck 1 0 0]

/-- No structure is left, and the first user is charged for one less than none. -/
theorem lockcnt_negative : ∃ w, consume lockfStep splitByOther World.empty = some w ∧
      w.heads () = [] ∧ w.env.sleepers = [] ∧ w.charged 1 = 0 ∧
      w.env.lockcnt 1 = -1 ∧ w.env.lockcnt 2 = 1 := by
  refine ⟨_, rfl, rfl, rfl, ?_, rfl, rfl⟩
  apply charged_released
  · intro file
    rfl
  · rfl

end NetBSD.Kern.VfsLockf
