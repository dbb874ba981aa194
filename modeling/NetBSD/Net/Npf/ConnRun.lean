import NetBSD.Net.Npf.ConnSweep

/-!
Owns the invariant of the connection system and its runs: every operation of every
thread keeps it and meets none of the assertions, so it holds whatever order the
threads run in. The last results say what it means for a connection that no thread
has locked and for the lists after `npf_conn_gc`.
-/

namespace NetBSD.Net.Npf.Conn

open NetBSD.Machine Function Option

/-- The reference that `npf_conn_establish` holds until it returns. -/
def NpfConn.pending (con : NpfConn) : Nat :=
  match con.c_lock with
  | some .establishForw | some .establishBack | some .establishUndo | some .establishErr
  | some (.enqueueRead false) | some (.enqueueCas false _) | some (.establishExit false) => 1
  | _ => 0

/-- Whether the stage of a connection relies on entries that are in the database. -/
def NpfConn.relies (con : NpfConn) : Bool :=
  match con.c_lock with
  | some .establishForw | some .establishBack | some .establishUndo | some .establishErr
  | some (.setnatRemove _ _) | some (.setnatInsert _) | some .setnatUndo | some .setnatErr
  | some .gcForw | some .gcBack => true
  | _ => false

/-- The flags and the link of a connection agree with the stage of its critical section. -/
structure NpfConn.Staged (con : NpfConn) : Prop where
  expired : con.conn_removed = true → con.conn_expire = true
  present : con.relies = true → con.conn_removed = false
  linked : ∀ error head, con.c_lock = some (.enqueueCas error head) → con.c_next = head

structure Sound (murmurhash2 : List (BitVec 32) → Nat) (system : System) : Prop where
  stored : Stored murmurhash2 system.conns system.cd_hashtbl
  counted : ∀ c con, system.conns c = some con → con.c_refcnt = system.held c + con.pending
  unheld : ∀ c, system.conns c = none → system.held c = 0
  staged : ∀ c con, system.conns c = some con → con.Staged
  lists : ∃ onList onRecent onGc, Lists system onList onRecent onGc

variable {murmurhash2 : List (BitVec 32) → Nat} {system : System} {c : ConnId} {con s' : NpfConn}

theorem sound_npfConndbCreate : Sound murmurhash2 npfConndbCreate where
  stored := {
    represents := {
      mem_iff := by simp [npfConndbCreate, ownedKey]
      nodup := by simp [npfConndbCreate]
      unique := by simp [npfConndbCreate, ownedKey] }
    counted := by simp [npfConndbCreate] }
  counted := by simp [npfConndbCreate]
  unheld := by simp [npfConndbCreate]
  staged := by simp [npfConndbCreate]
  lists := ⟨[], [], [], by
    constructor <;> simp [npfConndbCreate, GcPlace, kept]⟩

variable {stage : NpfConn}

section Write

section

variable (sound : Sound murmurhash2 system)

include sound

/-- One connection is written or destroyed. -/
theorem Sound.replace {next : System} {wrote : Option NpfConn} {references : Nat}
    (conns : next.conns = update system.conns c wrote)
    (held : next.held = update system.held c references)
    (kept : Stored murmurhash2 next.conns next.cd_hashtbl)
    (cnt : ∀ con, wrote = some con → con.c_refcnt = references + con.pending ∧ con.Staged)
    (unheld : wrote = none → references = 0)
    (lists : ∃ onList onRecent onGc, Lists next onList onRecent onGc) : Sound murmurhash2 next := by
  have each : ∀ oth con, next.conns oth = some con →
      con.c_refcnt = next.held oth + con.pending ∧ con.Staged := by
    intro oth con found
    rw [conns] at found
    rw [held]
    by_cases same : oth = c
    · rw [same, update_self] at found ⊢
      exact cnt con found
    · rw [update_of_ne same] at found ⊢
      exact ⟨sound.counted oth con found, sound.staged oth con found⟩
  refine ⟨kept, fun oth con found => (each oth con found).1, fun oth unused => ?_,
    fun oth con found => (each oth con found).2, lists⟩
  rw [conns] at unused
  rw [held]
  by_cases same : oth = c
  · rw [same, update_self] at unused ⊢
    exact unheld unused
  · rw [update_of_ne same] at unused ⊢
    exact sound.unheld oth unused

theorem Sound.replaceSame {next : System} {wrote : Option NpfConn}
    (conns : next.conns = update system.conns c wrote) (held : next.held = system.held)
    (kept : Stored murmurhash2 next.conns next.cd_hashtbl)
    (cnt : ∀ con, wrote = some con → con.c_refcnt = system.held c + con.pending ∧ con.Staged)
    (unheld : wrote = none → system.held c = 0)
    (lists : ∃ onList onRecent onGc, Lists next onList onRecent onGc) : Sound murmurhash2 next :=
  sound.replace conns (held.trans (update_eq_self c _).symm) kept cnt unheld lists

/-- One connection is written back, with its entries in the database and its references. -/
theorem Sound.write (found : system.conns c = some con) (references : Nat)
    {table : Nat → Hashbucket}
    (kept : Stored murmurhash2 (update system.conns c (some s')) table)
    (cnt : s'.c_refcnt = references + s'.pending) (stg : s'.Staged)
    (eqNext : con.enqueued = true → s'.c_next = con.c_next)
    (eqQueue : s'.enqueued = con.enqueued) (sameInGc : s'.inGc = con.inGc)
    (staysSettled : con.settled = true → s'.settled = true) : Sound murmurhash2 { system with
      conns := update system.conns c (some s'), cd_hashtbl := table
      held := update system.held c references } := by
  obtain ⟨onList, onRecent, onGc, lists⟩ := sound.lists
  refine sound.replace rfl rfl kept ?_ nofun
    ⟨onList, onRecent, onGc, lists.update found eqNext eqQueue sameInGc staysSettled table _⟩
  rintro _ ⟨⟩
  exact ⟨cnt, stg⟩

/-- A connection goes on to its next stage, on the same list and with the same references. -/
structure Follows (con after : NpfConn) : Prop where
  counted : after.c_refcnt + con.pending = con.c_refcnt + after.pending
  staged : after.Staged
  sameNext : con.enqueued = true → after.c_next = con.c_next
  sameEnqueued : after.enqueued = con.enqueued
  sameInGc : after.inGc = con.inGc
  staysSettled : con.settled = true → after.settled = true

theorem Sound.follow (found : system.conns c = some con) (next : Follows con s')
    {table : Nat → Hashbucket}
    (kept : Stored murmurhash2 (update system.conns c (some s')) table) :
    Sound murmurhash2 ({ system with cd_hashtbl := table }.put c s') := by
  have prev := sound.counted c con found
  have cnt := next.counted
  have wrote := sound.write found (system.held c) kept (by omega) next.staged
    next.sameNext next.sameEnqueued next.sameInGc next.staysSettled
  rwa [update_eq_self] at wrote

theorem Sound.followSame (found : system.conns c = some con) (next : Follows con s')
    (same : ∀ dir, s'.owns dir = con.owns dir) : Sound murmurhash2 (system.put c s') :=
  sound.follow found next (sound.stored.update_same found same)

end

/-- An operation ends, and the state after it is sound. -/
def Keeps (murmurhash2 : List (BitVec 32) → Nat) (outcome : Option System) : Prop :=
  ∃ after, outcome = some after ∧ Sound murmurhash2 after

@[simp]
theorem keeps_some : Keeps murmurhash2 (some system) ↔ Sound murmurhash2 system := by
  simp [Keeps]

/-- The insertion of an entry of a connection, with what follows a success and a duplicate. -/
theorem Sound.insert (sound : Sound murmurhash2 system) (found : system.conns c = some con)
    (dir : Dir) {bad : NpfConn} (miss : con.owns dir = none)
    (here : stage.owns dir = some (con.entry dir))
    (tl : ∀ oth, oth ≠ dir → stage.owns oth = con.owns oth)
    (next : Follows con stage) (same : ∀ dir, bad.owns dir = con.owns dir)
    (fails : Follows con bad) :
    Keeps murmurhash2 (match npfConndbInsert murmurhash2 system (con.entry dir) ⟨c, dir⟩ with
      | (s', true) => some (s'.put c stage)
      | (s', false) => some (s'.put c bad)) := by
  rcases npfConndbInsert_cases sound.stored (con.entry dir) ⟨c, dir⟩ with
    duplicate | ⟨unowned, stores⟩
  · rw [duplicate]
    exact keeps_some.mpr (sound.followSame found fails same)
  · rw [stores]
    exact keeps_some.mpr
      (sound.follow found next (sound.stored.insert found miss unowned here tl))

/-- The removal of an entry that a connection has: the assertion on its result holds. -/
theorem Sound.remove (sound : Sound murmurhash2 system) (found : system.conns c = some con)
    (dir : Dir) (here : con.owns dir = some (con.entry dir)) (miss : stage.owns dir = none)
    (tl : ∀ oth, oth ≠ dir → stage.owns oth = con.owns oth)
    (next : Follows con stage) :
    Keeps murmurhash2 (match npfConndbRemove murmurhash2 system (con.entry dir) with
      | (s', ret) => if ret = some c then some (s'.put c stage) else none) := by
  have has : ownedKey system.conns ⟨c, dir⟩ = some (con.entry dir) := by rwa [ownedKey_eq found]
  rw [npfConndbRemove_eq sound.stored has]
  simp only [↓reduceIte, keeps_some]
  exact sound.follow found next (sound.stored.remove found here miss tl)

end Write

section Sections

attribute [local simp] NpfConn.pending NpfConn.relies NpfConn.enqueued NpfConn.inGc NpfConn.settled
  NpfConn.owns NpfConn.inDatabase NpfConn.entry

/-- A stage of `npf_conn_establish` or `npf_conn_setnat` that is not the enqueueing or the exit. -/
theorem Follows.of_lock {lock : Option Section} (staged : con.Staged)
    (counted : { con with c_lock := lock }.pending = con.pending)
    (notLink : ∀ error head, lock ≠ some (.enqueueCas error head))
    (here : { con with c_lock := lock }.relies = true → con.conn_removed = false)
    (sameEnqueued : { con with c_lock := lock }.enqueued = con.enqueued)
    (sameInGc : { con with c_lock := lock }.inGc = con.inGc) (locked : con.c_lock ≠ none) :
    Follows con { con with c_lock := lock } where
  counted := by rw [counted]
  staged := ⟨staged.expired, here, fun error head isLink => (notLink error head isLink).elim⟩
  sameNext := fun _ => rfl
  sameEnqueued := sameEnqueued
  sameInGc := sameInGc
  staysSettled := fun done => by
    simp only [NpfConn.settled, Bool.and_eq_true, isNone_iff_eq_none] at done
    exact (locked done.2).elim

variable (sound : Sound murmurhash2 system) (found : system.conns c = some con)

include sound found

theorem keeps_establishForw (lck : con.c_lock = some .establishForw) :
    Keeps murmurhash2 (sectionStep murmurhash2 system c con .establishForw) := by
  have stg := sound.staged c con found
  have here := stg.present (by simp [lck])
  unfold sectionStep
  apply sound.insert found .forw
  · simp [lck]
  · simp
  · intro oth notForw
    simp [lck, notForw]
  · apply Follows.of_lock stg <;> simp [lck, here]
  · simp [lck]
  · apply Follows.of_lock stg <;> simp [lck, here]

theorem keeps_establishBack (lck : con.c_lock = some .establishBack) :
    Keeps murmurhash2 (sectionStep murmurhash2 system c con .establishBack) := by
  have stg := sound.staged c con found
  have here := stg.present (by simp [lck])
  apply sound.insert found .back
  · simp [lck]
  · simp [here]
  · intro oth notBack
    cases oth <;> simp_all
  · apply Follows.of_lock stg <;> simp [lck]
  · simp [lck]
  · apply Follows.of_lock stg <;> simp [lck, here]

theorem keeps_establishUndo (lck : con.c_lock = some .establishUndo) :
    Keeps murmurhash2 (sectionStep murmurhash2 system c con .establishUndo) := by
  have stg := sound.staged c con found
  have here := stg.present (by simp [lck])
  apply sound.remove found .forw
  · simp [lck]
  · simp
  · intro oth notForw
    simp [lck, notForw]
  · apply Follows.of_lock stg <;> simp [lck, here]

theorem keeps_establishErr (lck : con.c_lock = some .establishErr) :
    Keeps murmurhash2 (sectionStep murmurhash2 system c con .establishErr) := by
  have cnt := sound.counted c con found
  have pending : con.pending = 1 := by simp [lck]
  refine keeps_some.mpr (sound.followSame found ?_ ?_)
  · constructor
    · simp only [NpfConn.pending, lck]
      omega
    · exact ⟨fun _ => rfl, by simp, by simp⟩
    all_goals simp [lck]
  · simp [lck]

theorem keeps_enqueueRead {error : Bool} (lck : con.c_lock = some (.enqueueRead error)) :
    Keeps murmurhash2 (sectionStep murmurhash2 system c con (.enqueueRead error)) := by
  have stg := sound.staged c con found
  refine keeps_some.mpr (sound.followSame found ?_ ?_)
  · constructor
    · cases error <;> simp [lck]
    · exact ⟨stg.expired, by simp, by simp⟩
    all_goals simp [lck]
  · simp [lck]

/-- The head of the stack is still the one the new connection was linked to, or it is read again. -/
theorem keeps_enqueueCas {error : Bool} {head : Option ConnId}
    (lck : con.c_lock = some (.enqueueCas error head)) :
    Keeps murmurhash2 (sectionStep murmurhash2 system c con (.enqueueCas error head)) := by
  have stg := sound.staged c con found
  have link := stg.linked error head lck
  simp only [sectionStep]
  split
  case isTrue hd =>
    obtain ⟨onList, onRecent, onGc, lists⟩ := sound.lists
    have sameKeys : ∀ dir,
        { con with c_lock := some (.establishExit error) }.owns dir = con.owns dir := by
      simp [lck]
    refine keeps_some.mpr (sound.replaceSame rfl rfl (sound.stored.update_same found sameKeys) ?_ nofun
      ⟨onList, c :: onRecent, onGc, ?_⟩)
    · rintro _ ⟨⟩
      have cnt := sound.counted c con found
      refine ⟨?_, stg.expired, by simp, by simp⟩
      cases error <;> simpa [lck] using cnt
    · apply lists.enqueue found
      · simp [lck]
      · exact link.trans hd.symm
      · simp
      · simp
  case isFalse =>
    refine keeps_some.mpr (sound.followSame found ?_ ?_)
    · apply Follows.of_lock stg
      · cases error <;> simp [lck]
      all_goals simp [lck]
    · simp [lck]

/-- The reference goes to the caller of `npf_conn_establish` when there was no error. -/
theorem keeps_establishExit {error : Bool} (lck : con.c_lock = some (.establishExit error)) :
    Keeps murmurhash2 (sectionStep murmurhash2 system c con (.establishExit error)) := by
  have stg := sound.staged c con found
  have cnt := sound.counted c con found
  have sameKeys : ∀ dir, { con with c_lock := none }.owns dir = con.owns dir := by
    simp [lck]
  have kept := sound.stored.update_same found sameKeys
  have unlocked : { con with c_lock := none }.Staged :=
    ⟨stg.expired, by simp, by simp⟩
  unfold sectionStep
  rw [keeps_some]
  cases error with
  | true =>
    have wrote := sound.write found (system.held c) kept
      (by simpa [lck] using cnt) unlocked (fun _ => rfl)
      (by simp [lck]) (by simp [lck])
      (by simp [lck])
    rwa [update_eq_self] at wrote
  | false =>
    exact sound.write found (system.held c + 1) kept
      (by simpa [lck] using cnt) unlocked (fun _ => rfl)
      (by simp [lck]) (by simp [lck])
      (by simp [lck])

theorem keeps_setnatRemove {nt : NpfNat} {tidx : End}
    (lck : con.c_lock = some (.setnatRemove nt tidx)) :
    Keeps murmurhash2 (sectionStep murmurhash2 system c con (.setnatRemove nt tidx)) := by
  have stg := sound.staged c con found
  have here := stg.present (by simp [lck])
  apply sound.remove found .back
  · simp [lck]
  · simp
  · intro oth notBack
    cases oth <;> simp_all
  · constructor
    · simp [lck]
    · exact ⟨stg.expired, fun _ => here, by simp⟩
    all_goals simp [lck]

theorem keeps_setnatInsert {nt : NpfNat} (lck : con.c_lock = some (.setnatInsert nt)) :
    Keeps murmurhash2 (sectionStep murmurhash2 system c con (.setnatInsert nt)) := by
  have stg := sound.staged c con found
  have here := stg.present (by simp [lck])
  apply sound.insert found .back
  · simp [lck]
  · simp [here]
  · intro oth notBack
    cases oth <;> simp_all
  · constructor
    · simp [lck]
    · exact ⟨stg.expired, fun _ => here, by simp⟩
    all_goals simp [lck]
  · simp [lck]
  · apply Follows.of_lock stg <;> simp [lck, here]

theorem keeps_setnatUndo (lck : con.c_lock = some .setnatUndo) :
    Keeps murmurhash2 (sectionStep murmurhash2 system c con .setnatUndo) := by
  have stg := sound.staged c con found
  have here := stg.present (by simp [lck])
  apply sound.remove found .forw
  · simp [lck]
  · simp
  · intro oth notForw
    simp [lck, notForw]
  · apply Follows.of_lock stg <;> simp [lck, here]

theorem keeps_setnatErr (lck : con.c_lock = some .setnatErr) :
    Keeps murmurhash2 (sectionStep murmurhash2 system c con .setnatErr) := by
  refine keeps_some.mpr (sound.followSame found ?_ ?_)
  · constructor
    · simp [lck]
    · exact ⟨fun _ => rfl, by simp, by simp⟩
    all_goals simp [lck]
  · simp [lck]

theorem keeps_sectionStep {stage : Section} (lck : con.c_lock = some stage) :
    Keeps murmurhash2 (sectionStep murmurhash2 system c con stage) := by
  cases stage with
  | establishForw => exact keeps_establishForw sound found lck
  | establishBack => exact keeps_establishBack sound found lck
  | establishUndo => exact keeps_establishUndo sound found lck
  | establishErr => exact keeps_establishErr sound found lck
  | enqueueRead error => exact keeps_enqueueRead sound found lck
  | enqueueCas error head => exact keeps_enqueueCas sound found lck
  | establishExit error => exact keeps_establishExit sound found lck
  | setnatRemove nt tidx => exact keeps_setnatRemove sound found lck
  | setnatInsert nt => exact keeps_setnatInsert sound found lck
  | setnatUndo => exact keeps_setnatUndo sound found lck
  | setnatErr => exact keeps_setnatErr sound found lck
  | gcForw | gcBack | gcMark => exact keeps_some.mpr sound

end Sections

section Calls

attribute [local simp] NpfConn.pending NpfConn.relies NpfConn.enqueued NpfConn.inGc NpfConn.settled
  NpfConn.owns NpfConn.inDatabase NpfConn.entry

theorem sound_npfConnEstablish (sound : Sound murmurhash2 system) (c : ConnId) (npc : NpfCache)
    (now : Timespec) (etime : Int) :
    Sound murmurhash2 (npfConnEstablish system c npc now etime) := by
  unfold npfConnEstablish
  split
  case h_2 => exact sound
  case h_1 fw bk fresh _ _ =>
    obtain ⟨onList, onRecent, onGc, lists⟩ := sound.lists
    refine sound.replaceSame rfl rfl ⟨?_, sound.stored.counted⟩ ?_ nofun
      ⟨onList, onRecent, onGc, lists.create fresh (by simp) (by simp)⟩
    · simp only [System.put]
      rw [ownedKey_update_fresh none _ fresh (by simp) (by simp)]
      exact sound.stored.represents
    · rintro _ ⟨⟩
      refine ⟨?_, by simp, by simp, by simp⟩
      rw [sound.unheld c fresh]
      rfl

theorem Sound.live_of_held (sound : Sound murmurhash2 system) (held : system.held c ≠ 0) :
    ∃ con, system.conns c = some con ∧ con.c_refcnt ≠ 0 := by
  cases found : system.conns c with
  | none => exact (held (sound.unheld c found)).elim
  | some con =>
    refine ⟨con, rfl, ?_⟩
    have := sound.counted c con found
    omega

theorem keeps_npfConnSetnat (sound : Sound murmurhash2 system) (c : ConnId) (npc : NpfCache)
    (nt : NpfNat) (ntype : Ntype) : Keeps murmurhash2 (npfConnSetnat system c npc nt ntype) := by
  unfold npfConnSetnat
  by_cases held : system.held c = 0
  · simpa [held] using sound
  obtain ⟨con, found, referenced⟩ := sound.live_of_held held
  have stg := sound.staged c con found
  simp only [held, ↓reduceIte, found, referenced]
  split
  · exact keeps_some.mpr sound
  cases isLock : con.c_lock with
  | some stage => exact keeps_some.mpr sound
  | none =>
    cases expired : con.conn_expire with
    | true => exact keeps_some.mpr sound
    | false =>
      have here : con.conn_removed = false := by
        by_contra gone
        have := stg.expired (by simpa using gone)
        simp [expired] at this
      simp only [here, Bool.false_eq_true, ↓reduceIte]
      split
      · exact keeps_some.mpr sound
      refine keeps_some.mpr (sound.followSame found ?_ ?_)
      · constructor
        · simp [isLock]
        · exact ⟨by simp, by simp, by simp⟩
        all_goals simp [isLock, here]
      · simp [isLock, here]

/-- A connection written back with other flags than `CONN_REMOVED`, time stamps or protocol state.
-/
theorem Follows.of_same {s' : NpfConn} (staged : con.Staged)
    (eqLock : s'.c_lock = con.c_lock) (sameNext : s'.c_next = con.c_next)
    (sameRemoved : s'.conn_removed = con.conn_removed)
    (expires : con.conn_expire = true → s'.conn_expire = true)
    (counted : s'.c_refcnt = con.c_refcnt) : Follows con s' where
  counted := by simp [eqLock, counted]
  staged := by
    refine ⟨fun gone => expires (staged.expired (sameRemoved ▸ gone)), fun relies => ?_,
      fun error head isLink => ?_⟩
    · rw [sameRemoved]
      apply staged.present
      simpa [eqLock] using relies
    · rw [sameNext]
      exact staged.linked error head (eqLock ▸ isLink)
  sameNext := fun _ => sameNext
  sameEnqueued := by simp [eqLock]
  sameInGc := by simp [eqLock]
  staysSettled := by simp [eqLock, sameRemoved]

section

variable (sound : Sound murmurhash2 system)

include sound

theorem sound_npfConnExpire (c : ConnId) : Sound murmurhash2 (npfConnExpire system c) := by
  unfold npfConnExpire
  cases found : system.conns c with
  | none => exact sound
  | some con =>
    apply sound.followSame found
    · exact .of_same (sound.staged c con found) rfl rfl rfl (fun _ => rfl) rfl
    · intro dir
      rfl

theorem keeps_npfConnInspect (c : ConnId) (now : Timespec) (etime : Int) :
    Keeps murmurhash2 (npfConnInspect system c now etime) := by
  unfold npfConnInspect
  by_cases held : system.held c = 0
  · simpa [held] using sound
  obtain ⟨con, found, _⟩ := sound.live_of_held held
  simp only [held, ↓reduceIte, found, keeps_some]
  apply sound.followSame found
  · exact .of_same (sound.staged c con found) rfl rfl rfl id rfl
  · intro dir
    rfl

theorem keeps_dropReference (found : system.conns c = some con) (held : system.held c ≠ 0)
    (active : Bool) :
    Keeps murmurhash2 (dropReference system c { con with conn_active := active }) := by
  have cnt := sound.counted c con found
  have referenced : con.c_refcnt ≠ 0 := by omega
  simp only [dropReference, referenced, ↓reduceIte, keeps_some]
  have stg := sound.staged c con found
  apply sound.write found (system.held c - 1)
  · apply sound.stored.update_same found
    intro dir
    rfl
  · show con.c_refcnt - 1 = system.held c - 1 + con.pending
    omega
  · exact ⟨stg.expired, stg.present, stg.linked⟩
  · intro _
    rfl
  · rfl
  · rfl
  · exact id

theorem keeps_npfConnRelease (c : ConnId) : Keeps murmurhash2 (npfConnRelease system c) := by
  unfold npfConnRelease
  by_cases held : system.held c = 0
  · simpa [held] using sound
  obtain ⟨con, found, _⟩ := sound.live_of_held held
  simp only [held, ↓reduceIte, found]
  split
  · exact keeps_dropReference sound found held con.conn_active
  · exact keeps_dropReference sound found held true

theorem keeps_npfConnMismatch (c : ConnId) : Keeps murmurhash2 (npfConnMismatch system c) := by
  unfold npfConnMismatch
  by_cases held : system.held c = 0
  · simpa [held] using sound
  obtain ⟨con, found, _⟩ := sound.live_of_held held
  simp only [held, found]
  exact keeps_dropReference sound found held con.conn_active

theorem keeps_npfConnAcquire (key : Connkey) :
    Keeps murmurhash2 (npfConnAcquire murmurhash2 system key) := by
  unfold npfConnAcquire
  cases isFound : npfConndbLookup murmurhash2 system key with
  | none => exact keeps_some.mpr sound
  | some c =>
    obtain ⟨con, found⟩ := sound.stored.lookup_eq_some isFound
    have cnt := sound.counted c con found
    have stg := sound.staged c con found
    simp only [found, keeps_some]
    apply sound.write found (system.held c + 1)
    · apply sound.stored.update_same found
      intro dir
      rfl
    · show con.c_refcnt + 1 = system.held c + 1 + con.pending
      omega
    · exact ⟨stg.expired, stg.present, stg.linked⟩
    · intro _
      rfl
    · rfl
    · rfl
    · exact id

end

end Calls

section Collector

attribute [local simp] NpfConn.pending NpfConn.relies NpfConn.enqueued NpfConn.inGc NpfConn.settled
  NpfConn.owns NpfConn.inDatabase NpfConn.entry

section

variable (sound : Sound murmurhash2 system)

include sound

/-- Relinking the lists keeps the table sound. -/
theorem Sound.relink {oth : System} (rel : Relinked system.conns oth.conns)
    (sameTable : oth.cd_hashtbl = system.cd_hashtbl) (sameHeld : oth.held = system.held)
    (lists : ∃ onList onRecent onGc, Lists oth onList onRecent onGc) :
    Sound murmurhash2 oth := by
  have sameKeys : ownedKey oth.conns = ownedKey system.conns := by
    funext e
    unfold ownedKey
    cases found : system.conns e.con with
    | none => rw [rel.none e.con found]
    | some con =>
      obtain ⟨next, next', _⟩ := rel.some e.con con found
      rw [next']
      rfl
  refine ⟨⟨?_, ?_⟩, ?_, ?_, ?_, lists⟩
  · rw [sameKeys, sameTable]
    exact sound.stored.represents
  · rw [sameTable]
    exact sound.stored.counted
  · intro c con found
    obtain ⟨prev, hbef, same, _⟩ := rel.back found
    rw [sameHeld, same]
    exact sound.counted c prev hbef
  · intro c fresh
    rw [sameHeld]
    apply sound.unheld
    cases found : system.conns c with
    | none => rfl
    | some con =>
      obtain ⟨next, next', _⟩ := rel.some c con found
      simp [next'] at fresh
  · intro c con found
    obtain ⟨prev, hbef, same, sameLink⟩ := rel.back found
    have stg := sound.staged c prev hbef
    have eqLock : con.c_lock = prev.c_lock := by rw [same]
    refine ⟨?_, ?_, fun error head lck => ?_⟩
    · rw [same]
      exact stg.expired
    · rw [same]
      exact stg.present
    · rw [eqLock] at lck
      rw [sameLink (by simp [lck])]
      exact stg.linked error head lck

theorem keeps_npfConnGc (flush : Bool) (tsnow : Timespec) :
    Keeps murmurhash2 (npfConnGc system flush tsnow) := by
  unfold npfConnGc
  cases isGc : system.gc with
  | idle =>
    obtain ⟨onList, onRecent, onGc, lists⟩ := sound.lists
    obtain ⟨mid, con, ans, sameTable, sameHeld, rel, moved⟩ :=
      lists.getlist isGc flush tsnow
    simp only [ans, map_some, keeps_some]
    exact sound.relink rel sameTable sameHeld ⟨_, _, _, moved⟩
  | scan | enter | locked | dequeue | drain => exact keeps_some.mpr sound

theorem keeps_gcStep_scan {flush : Bool} {tsnow : Timespec} {prev next gclist : Option ConnId}
    (isGc : system.gc = .scan flush tsnow prev next gclist) :
    Keeps murmurhash2 (gcStep murmurhash2 system) := by
  obtain ⟨onList, onRecent, onGc, lists⟩ := sound.lists
  cases next with
  | none =>
    obtain ⟨ans, moved⟩ := lists.settail isGc
    simp only [gcStep, isGc, ans, map_some, keeps_some]
    exact sound.relink (.refl _) rfl rfl ⟨_, _, _, moved⟩
  | some c =>
    obtain ⟨con, tl, found, _⟩ := lists.scan_at isGc
    simp only [gcStep, isGc, found]
    cases expired : npfConnExpired con tsnow || flush with
    | true =>
      simp only [↓reduceIte, keeps_some]
      exact sound.relink (.refl _) rfl rfl ⟨_, _, _, lists.condemn isGc found⟩
    | false =>
      simp only [Bool.false_eq_true, ↓reduceIte, keeps_some]
      exact sound.relink (.refl _) rfl rfl ⟨_, _, _, lists.keep isGc found⟩

theorem Sound.sweep (found : system.conns c = some con) {gc : Gc}
    (sameKeys : ∀ dir, s'.owns dir = con.owns dir) (sameCount : s'.c_refcnt = con.c_refcnt)
    (sameFresh : con.pending = 0 ∧ s'.pending = 0) (stg : s'.Staged)
    (lists : ∃ onList onRecent onGc, Lists { system.put c s' with gc := gc } onList onRecent onGc) :
    Sound murmurhash2 { system.put c s' with gc := gc } := by
  refine sound.replaceSame rfl rfl (sound.stored.update_same found sameKeys) ?_ nofun lists
  rintro _ ⟨⟩
  have cnt := sound.counted c con found
  exact ⟨by omega, stg⟩

variable {fr : GcFrame}

theorem keeps_gcStep_enter (isGc : system.gc = .enter fr) :
    Keeps murmurhash2 (gcStep murmurhash2 system) := by
  obtain ⟨onList, onRecent, onGc, lists⟩ := sound.lists
  have plc := lists.place
  simp only [GcPlace, isGc] at plc
  obtain ⟨con, found, enqueued, _⟩ := InBody.live plc lists
  have stg := sound.staged fr.con con found
  simp only [gcStep, isGc, found]
  cases isLock : con.c_lock with
  | some stage => exact keeps_some.mpr sound
  | none =>
    cases removed : con.conn_removed with
    | true =>
      refine keeps_some.mpr (sound.sweep found ?_ rfl ?_ ?_ ⟨_, _, _, lists.enterGc isGc found rfl
        ?_ ?_⟩)
      · simp [isLock, removed]
      · simp [isLock]
      · exact ⟨fun _ => stg.expired removed, by simp, by simp⟩
      · simp [isLock]
      · simp
    | false =>
      refine keeps_some.mpr (sound.sweep found ?_ rfl ?_ ?_ ⟨_, _, _, lists.enterGc isGc found rfl
        ?_ ?_⟩)
      · simp [isLock, removed]
      · simp [isLock]
      · exact ⟨by simp, by simp, by simp⟩
      · simp [isLock]
      · simp

theorem keeps_gcStep_locked (isGc : system.gc = .locked fr) :
    Keeps murmurhash2 (gcStep murmurhash2 system) := by
  obtain ⟨onList, onRecent, onGc, lists⟩ := sound.lists
  have plc := lists.place
  simp only [GcPlace, isGc] at plc
  obtain ⟨con, found, enqueued, _⟩ := InBody.live plc.1 lists
  have inGc := plc.2 con found
  have stg := sound.staged fr.con con found
  simp only [gcStep, isGc, found]
  cases isLock : con.c_lock with
  | none => simp [isLock] at inGc
  | some stage =>
    rw [bind_some]
    cases stage with
    | gcForw =>
      have here := stg.present (by simp [isLock])
      apply sound.remove found .forw
      · simp [isLock]
      · simp
      · intro oth notForw
        cases oth <;> simp_all
      · apply Follows.of_lock stg <;> simp [isLock, here]
    | gcBack =>
      apply sound.remove found .back
      · simp [isLock]
      · simp
      · intro oth notBack
        simp [isLock, notBack]
      · apply Follows.of_lock stg <;> simp [isLock]
    | gcMark =>
      simp only [gcSectionStep, keeps_some]
      refine sound.sweep found ?_ rfl ?_ ?_ ⟨_, _, _, lists.leaveGc isGc found rfl ?_ ?_ ?_⟩
      · simp [isLock]
      · simp [isLock]
      · exact ⟨by simp, by simp, by simp⟩
      · simp [isLock]
      · simp
      · simp
    | _ => simp [isLock] at inGc

theorem keeps_gcStep_dequeue (isGc : system.gc = .dequeue fr) :
    Keeps murmurhash2 (gcStep murmurhash2 system) := by
  obtain ⟨onList, onRecent, onGc, lists⟩ := sound.lists
  obtain ⟨con, mid, tl, found, done, ans, sameTable, sameHeld, rel, moved⟩ :=
    lists.dequeue isGc
  simp only [gcStep, isGc, found, ans, keeps_some]
  exact sound.relink rel sameTable sameHeld ⟨_, _, _, moved⟩

/-- A connection is destroyed when nobody has a reference to it and its entries are gone. -/
theorem keeps_gcStep_drain {next : Option ConnId} (isGc : system.gc = .drain next) :
    Keeps murmurhash2 (gcStep murmurhash2 system) := by
  obtain ⟨onList, onRecent, onGc, lists⟩ := sound.lists
  cases next with
  | none =>
    simp only [gcStep, isGc, keeps_some]
    exact sound.relink (.refl _) rfl rfl ⟨_, _, _, lists.finish isGc⟩
  | some c =>
    obtain ⟨con, tl, found, done, _, moved⟩ := lists.destroy isGc
    simp only [gcStep, isGc, found]
    split
    · exact keeps_some.mpr sound
    have cnt := sound.counted c con found
    have gone : ∀ dir, con.owns dir = none := by
      simp only [NpfConn.settled, Bool.and_eq_true, isNone_iff_eq_none] at done
      simp [done.1, done.2]
    have rep := sound.stored.represents
    rw [← ownedKey_update_fresh (some con) none found (by simpa using gone) (by simp)] at rep
    exact keeps_some.mpr (@Sound.replaceSame _ _ c sound _ none rfl rfl
      ⟨rep, sound.stored.counted⟩
      (fun _ hsome => (some_ne_none _ hsome.symm).elim) (fun _ => by omega)
      ⟨_, _, _, moved⟩)

end

end Collector

theorem keeps_step (sound : Sound murmurhash2 system) (event : Event) :
    Keeps murmurhash2 (step murmurhash2 system event) := by
  cases event with
  | establish c npc now etime => exact keeps_some.mpr (sound_npfConnEstablish sound c npc now etime)
  | setnat c npc nt ntype => exact keeps_npfConnSetnat sound c npc nt ntype
  | resume c =>
    cases found : system.conns c with
    | none => simpa [step, found] using sound
    | some con =>
      cases isLock : con.c_lock with
      | none => simpa [step, found, isLock] using sound
      | some stage => simpa [step, found, isLock] using keeps_sectionStep sound found isLock
  | expire c => exact keeps_some.mpr (sound_npfConnExpire sound c)
  | release c => exact keeps_npfConnRelease sound c
  | acquire key => exact keeps_npfConnAcquire sound key
  | mismatch c => exact keeps_npfConnMismatch sound c
  | inspect c now etime => exact keeps_npfConnInspect sound c now etime
  | gcCall flush tsnow => exact keeps_npfConnGc sound flush tsnow
  | gcResume =>
    cases isGc : system.gc with
    | idle => simpa [step, gcStep, isGc] using sound
    | scan flush tsnow prev con gclist => exact keeps_gcStep_scan sound isGc
    | enter fr => exact keeps_gcStep_enter sound isGc
    | locked fr => exact keeps_gcStep_locked sound isGc
    | dequeue fr => exact keeps_gcStep_dequeue sound isGc
    | drain con => exact keeps_gcStep_drain sound isGc

theorem consume_sound (events : List Event) (sound : Sound murmurhash2 system) :
    ∃ got, consume (step murmurhash2) events system = some got ∧
      Sound murmurhash2 got :=
  consume_invariant (step murmurhash2) (Sound murmurhash2) (fun _ _ => True)
    (fun _ event sound _ => keeps_step sound event) events sound (fun _ _ _ _ _ => trivial)

section Destroyed

@[simp]
theorem conns_npfConndbInsert (murmurhash2 : List (BitVec 32) → Nat) (system : System)
    (key : Connkey) (e : Entry) :
    (npfConndbInsert murmurhash2 system key e).1.conns = system.conns := by
  unfold npfConndbInsert
  split <;> rfl

@[simp]
theorem conns_npfConndbRemove (murmurhash2 : List (BitVec 32) → Nat) (system : System)
    (key : Connkey) : (npfConndbRemove murmurhash2 system key).1.conns = system.conns := by
  unfold npfConndbRemove
  split <;> rfl

/-- No connection of the first system is missing in the second. -/
def Survives (system after : System) : Prop :=
  ∀ c, system.conns c ≠ none → after.conns c ≠ none

theorem survives_refl : Survives system system :=
  fun _ => id

variable {s' : System}

theorem Survives.of_some {next : System} (survives : Survives system next)
    (move : some next = some s') : Survives system s' :=
  some.inj move ▸ survives

theorem survives_update {oth : System} (same : oth.conns = system.conns)
    (wrote : s'.conns = update oth.conns c (some con)) : Survives system s' := by
  intro found live
  rw [wrote, same]
  by_cases isCon : found = c
  · subst isCon
    simp
  · simpa [isCon] using live

theorem Survives.of_relinked (rel : Relinked system.conns s'.conns) :
    Survives system s' := by
  intro c live
  obtain ⟨con, found⟩ := ne_none_iff_exists'.mp live
  obtain ⟨next, next', _⟩ := rel.some c con found
  simp [next']

theorem survives_insert {dir : Dir} {key : Connkey} {bad : NpfConn}
    (move : (match npfConndbInsert murmurhash2 system key ⟨c, dir⟩ with
      | (s', true) => some (s'.put c stage)
      | (s', false) => some (s'.put c bad)) = some s') : Survives system s' := by
  have same := conns_npfConndbInsert murmurhash2 system key ⟨c, dir⟩
  split at move
  case h_1 mid isInsert =>
    rw [isInsert] at same
    obtain rfl := some.inj move
    exact survives_update same rfl
  case h_2 mid isInsert =>
    rw [isInsert] at same
    obtain rfl := some.inj move
    exact survives_update same rfl

theorem survives_remove {key : Connkey} {oth : ConnId}
    (move : (match npfConndbRemove murmurhash2 system key with
      | (s', ret) => if ret = some oth then some (s'.put c stage) else none) = some s') :
    Survives system s' := by
  have same := conns_npfConndbRemove murmurhash2 system key
  simp only [ite_none_right_eq_some, some.injEq] at move
  obtain ⟨_, rfl⟩ := move
  exact survives_update same rfl

theorem survives_sectionStep {stage : Section}
    (move : sectionStep murmurhash2 system c con stage = some s') :
    Survives system s' := by
  cases stage with
  | establishForw | establishBack | setnatInsert => exact survives_insert move
  | establishUndo => exact survives_remove move
  | establishErr => exact .of_some (survives_update rfl rfl) move
  | enqueueRead error => exact .of_some (survives_update rfl rfl) move
  | enqueueCas error head =>
    simp only [sectionStep] at move
    split at move <;> exact .of_some (survives_update rfl rfl) move
  | establishExit error => exact .of_some (survives_update rfl rfl) move
  | setnatRemove nt tidx => exact survives_remove move
  | setnatUndo => exact survives_remove move
  | setnatErr => exact .of_some (survives_update rfl rfl) move
  | gcForw => exact survives_refl.of_some move
  | gcBack => exact survives_refl.of_some move
  | gcMark => exact survives_refl.of_some move

theorem survives_dropReference (move : dropReference system c con = some s') :
    Survives system s' := by
  simp only [dropReference, ite_none_left_eq_some, some.injEq] at move
  obtain ⟨_, rfl⟩ := move
  exact survives_update rfl rfl

/-- Nothing but the collector destroys a connection. -/
theorem survives_step {event : Event} (notGc : event ≠ .gcResume)
    (sound : Sound murmurhash2 system) (move : step murmurhash2 system event = some s') :
    Survives system s' := by
  cases event with
  | establish c npc now etime =>
    obtain rfl := some.inj move
    unfold npfConnEstablish
    split
    · exact survives_update rfl rfl
    · exact survives_refl
  | setnat c npc nt ntype =>
    simp only [step, npfConnSetnat] at move
    (repeat' split at move) <;> first
      | exact (some_ne_none _ move.symm).elim
      | (obtain rfl := some.inj move
         first
           | exact survives_refl
           | exact survives_update rfl rfl)
  | resume c =>
    simp only [step] at move
    split at move
    · exact survives_refl.of_some move
    · split at move
      · exact survives_refl.of_some move
      · exact survives_sectionStep move
  | expire c =>
    obtain rfl := some.inj move
    unfold npfConnExpire
    split
    · exact survives_refl
    · exact survives_update rfl rfl
  | release c =>
    simp only [step, npfConnRelease] at move
    split at move
    · exact survives_refl.of_some move
    · split at move
      · simp at move
      · split at move <;> exact survives_dropReference move
  | acquire key =>
    simp only [step, npfConnAcquire] at move
    split at move
    · exact survives_refl.of_some move
    · split at move
      · simp at move
      · exact .of_some (survives_update rfl rfl) move
  | mismatch c =>
    simp only [step, npfConnMismatch] at move
    split at move
    · exact survives_refl.of_some move
    · split at move
      · simp at move
      · exact survives_dropReference move
  | inspect c now etime =>
    simp only [step, npfConnInspect] at move
    split at move
    · exact survives_refl.of_some move
    · split at move
      · simp at move
      · exact .of_some (survives_update rfl rfl) move
  | gcCall flush tsnow =>
    simp only [step, npfConnGc] at move
    split at move
    case h_1 isGc =>
      obtain ⟨onList, onRecent, onGc, lists⟩ := sound.lists
      obtain ⟨mid, con, ans, _, _, rel, _⟩ := lists.getlist isGc flush tsnow
      simp only [ans, map_some, some.injEq] at move
      subst move
      exact .of_relinked rel
    case h_2 => exact survives_refl.of_some move
  | gcResume => exact (notGc rfl).elim

/-- A connection is destroyed only at the head of the private list of the collector, with no
reference and with both entries removed. -/
theorem destroyed_of_step {event : Event} (sound : Sound murmurhash2 system)
    (move : step murmurhash2 system event = some s') (found : system.conns c = some con)
    (gone : s'.conns c = none) :
    system.gc = .drain (some c) ∧ con.c_refcnt = 0 ∧ con.conn_removed = true := by
  have live : system.conns c ≠ none := by simp [found]
  obtain ⟨onList, onRecent, onGc, lists⟩ := sound.lists
  have dies : Survives system s' → system.gc = .drain (some c) ∧ con.c_refcnt = 0 ∧
      con.conn_removed = true := fun survives => (survives c live gone).elim
  cases event with
  | gcResume =>
    simp only [step] at move
    cases isGc : system.gc with
    | idle =>
      simp only [gcStep, isGc, some.injEq] at move
      exact isGc ▸ dies (move ▸ survives_refl)
    | scan flush tsnow prev next gclist =>
      rw [isGc] at dies
      apply dies
      cases next with
      | none =>
        obtain ⟨ans, _⟩ := lists.settail isGc
        simp only [gcStep, isGc, ans, map_some, some.injEq] at move
        subst move
        exact fun _ => id
      | some oth =>
        obtain ⟨scn, tl, hit, _⟩ := lists.scan_at isGc
        simp only [gcStep, isGc, hit] at move
        split at move <;> (obtain rfl := some.inj move; exact fun _ => id)
    | enter fr =>
      rw [isGc] at dies
      apply dies
      simp only [gcStep, isGc] at move
      split at move
      · simp at move
      · split at move <;> obtain rfl := some.inj move
        · exact survives_refl
        · exact survives_update rfl rfl
    | locked fr =>
      rw [isGc] at dies
      apply dies
      simp only [gcStep, isGc] at move
      split at move
      · simp at move
      obtain ⟨stage, _, move⟩ := bind_eq_some_iff.mp move
      cases stage with
      | gcForw | gcBack => exact survives_remove move
      | gcMark => exact .of_some (survives_update rfl rfl) move
      | _ => simp [gcSectionStep] at move
    | dequeue fr =>
      rw [isGc] at dies
      apply dies
      obtain ⟨oth, mid, tl, hit, _, ans, _, _, rel, _⟩ := lists.dequeue isGc
      simp only [gcStep, isGc, hit, ans, some.injEq] at move
      subst move
      exact .of_relinked rel
    | drain next =>
      cases next with
      | none =>
        simp only [gcStep, isGc, some.injEq] at move
        subst move
        exact (live gone).elim
      | some oth =>
        obtain ⟨dead, tl, hit, done, _⟩ := lists.destroy isGc
        simp only [gcStep, isGc, hit] at move
        split at move <;> obtain rfl := some.inj move
        · exact (live gone).elim
        rename_i unreferenced
        obtain rfl : c = oth := by
          by_contra apart
          simp only [update_of_ne apart] at gone
          exact live gone
        obtain rfl := some.inj (hit.symm.trans found)
        simp only [NpfConn.settled, Bool.and_eq_true] at done
        exact ⟨rfl, by simpa using unreferenced, done.1⟩
  | _ => exact dies (survives_step (by simp) sound move)

end Destroyed

/-- What a caller can rely on between two operations. -/
structure Consistent (murmurhash2 : List (BitVec 32) → Nat) (system : System) : Prop where
  /-- A connection in use has its two current keys in the database and no other. -/
  ownsBoth : ∀ c con, system.conns c = some con → con.c_lock = none → con.conn_removed = false →
    ∀ key dir, conndbFind murmurhash2 system key = some ⟨c, dir⟩ ↔ key = con.entry dir
  /-- A removed one has none. -/
  ownsNone : ∀ c con, system.conns c = some con → con.c_lock = none → con.conn_removed = true →
    ∀ index dir, ⟨c, dir⟩ ∉ (system.cd_hashtbl index).hb_tree
  /-- Every entry of the database is found by its key, in the bucket of that key. -/
  keyed : ∀ index entry, entry ∈ (system.cd_hashtbl index).hb_tree →
    ∃ key, system.keyOf entry = some key ∧ conndbFind murmurhash2 system key = some entry ∧
      conndbHashBucket murmurhash2 key = index
  /-- No two entries have one key. -/
  unique : ∀ index index' entry entry', entry ∈ (system.cd_hashtbl index).hb_tree →
    entry' ∈ (system.cd_hashtbl index').hb_tree → system.keyOf entry = system.keyOf entry' →
    entry = entry'
  /-- A connection that a caller holds exists, and its counter is not zero. -/
  referenced : ∀ c, system.held c ≠ 0 → ∃ con, system.conns c = some con ∧ con.c_refcnt ≠ 0
  /-- The next operation destroys no connection that has a reference or an entry. -/
  destroyed : ∀ event after c con, step murmurhash2 system event = some after →
    system.conns c = some con → after.conns c = none →
    con.c_refcnt = 0 ∧ con.conn_removed = true
  /-- After `npf_conn_gc` the list is what it kept, the tail is its last element, the stack is what
  was enqueued since, and every connection that was enqueued and not destroyed is on one of them. -/
  collected : system.gc = .idle → ∃ onRecent,
    Chain (nextOf system.conns) system.cd_list (kept system.scanned) none ∧
    system.cd_tail = (kept system.scanned).getLast? ∧
    Chain (nextOf system.conns) system.cd_recent onRecent none ∧
    (kept system.scanned ++ onRecent).Nodup ∧
    ∀ c, c ∈ kept system.scanned ++ onRecent ↔
      ∃ con, system.conns c = some con ∧ con.enqueued = true

theorem Sound.consistent (sound : Sound murmurhash2 system) : Consistent murmurhash2 system where
  ownsBoth := by
    intro c con found lck here key dir
    rw [sound.stored.find_eq_some_iff, ownedKey_eq found]
    simp [NpfConn.owns, NpfConn.inDatabase, lck, here, eq_comm]
  ownsNone := by
    intro c con found lck removed index dir isIn
    obtain ⟨key, has, _⟩ := (sound.stored.represents.mem_iff _ _).mp isIn
    rw [ownedKey_eq found] at has
    simp [NpfConn.owns, NpfConn.inDatabase, lck, removed] at has
  keyed := by
    intro index e isIn
    obtain ⟨key, has, idx⟩ := (sound.stored.represents.mem_iff _ _).mp isIn
    exact ⟨key, keyOf_of_ownedKey has, sound.stored.find_eq_some_iff.mpr has, idx⟩
  unique := by
    intro index index' e entry' isIn isIn' same
    obtain ⟨key, has, _⟩ := (sound.stored.represents.mem_iff _ _).mp isIn
    obtain ⟨key', has', _⟩ := (sound.stored.represents.mem_iff _ _).mp isIn'
    rw [keyOf_of_ownedKey has, keyOf_of_ownedKey has'] at same
    obtain rfl := some.inj same
    exact sound.stored.represents.unique e entry' key has has'
  referenced := fun c held => sound.live_of_held held
  destroyed := fun event s' c con move found gone =>
    (destroyed_of_step sound move found gone).2
  collected := by
    intro isGc
    obtain ⟨onList, onRecent, onGc, lists⟩ := sound.lists
    obtain ⟨rfl, isTail, rfl⟩ : onGc = [] ∧ system.cd_tail = onList.getLast? ∧
        onList = kept system.scanned := by
      have plc := lists.place
      simpa only [GcPlace, isGc] using plc
    exact ⟨onRecent, lists.list, isTail, lists.recent, by simpa using lists.nodup,
      by simpa using lists.mem_iff⟩

/-- Whatever the threads do and in whatever order, no assertion fails, no destroyed connection is
used, and the database and the lists are consistent. -/
theorem npfConn_consistent (murmurhash2 : List (BitVec 32) → Nat) (events : List Event) :
    ∃ reached, consume (step murmurhash2) events npfConndbCreate = some reached ∧
      Consistent murmurhash2 reached := by
  obtain ⟨reached, eaten, sound⟩ := consume_sound events sound_npfConndbCreate
  exact ⟨reached, eaten, sound.consistent⟩

/-- A TCP packet from port 1 to port 2. -/
def somePacket : NpfCache where
  npc_alen := .inAddr
  npc_l4 := .tcp 1 2
  npc_ips := fun _ _ => 0

/-- The connection is established and collected while it is not expired; it expires right behind
the collector. -/
def expireBehind : List Event :=
  [.establish 0 somePacket ⟨0, 0⟩ 60, .resume 0, .resume 0, .resume 0, .resume 0, .resume 0,
    .gcCall false ⟨1, 0⟩, .gcResume, .expire 0, .gcResume, .gcResume]

/-- After `npf_conn_gc` the list may hold an expired connection. -/
theorem cd_list_expired :
    ∃ reached con, consume (step fun _ => 0) expireBehind npfConndbCreate = some reached ∧
      reached.gc = .idle ∧ reached.cd_list = some 0 ∧ reached.conns 0 = some con ∧
      con.conn_expire = true :=
  ⟨_, _, rfl, rfl, rfl, rfl, rfl⟩

end NetBSD.Net.Npf.Conn
