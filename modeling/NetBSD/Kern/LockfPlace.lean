import NetBSD.Kern.Lockf

/-!
Owns what the loops of `lf_clearlock` and `lf_setlock` compute: on a list whose
locks are in order for each owner, every own lock is replaced by what the request
leaves of it, and the new lock stands between what is left before and after it.
-/

namespace NetBSD.Kern.VfsLockf

open List Lockf

variable {φ : Type} {lock l : Lockf} {tl : List Lockf}

/-! ### One step of a search -/

section Search

variable (ranged : l.Ranged) (lrng : lock.Ranged)

include ranged lrng

theorem lfFindoverlap_skip (skip : l.lfId ≠ lock.lfId ∨ l.Precedes lock)
    (prev tl : List Lockf) :
    lfFindoverlap .self lock prev (l :: tl) = lfFindoverlap .self lock (prev ++ [l]) tl := by
  by_cases own : l.lfId = lock.lfId
  · have old : l.Precedes lock := skip.resolve_left (not_not.mpr own)
    have isApart : apart l lock = true := (apart_iff ranged lrng).mpr (Or.inl old)
    have notAfter : ¬ (lock.lfEnd ≠ -1 ∧ l.lfStart > lock.lfEnd) := by
      have lastLock := last_cases lock
      have boundL := ranged.ordered
      have boundLock := lrng.ordered
      unfold Precedes at old
      omega
    simp [lfFindoverlap, isApart, notAfter]
  · simp [lfFindoverlap, own]

theorem lfFindoverlap_stop (own : l.lfId = lock.lfId) (later : lock.Precedes l)
    (prev tl : List Lockf) :
    lfFindoverlap .self lock prev (l :: tl) = .noOverlap prev (l :: tl) := by
  have isApart : apart l lock = true := (apart_iff ranged lrng).mpr (Or.inr later)
  have aft : lock.lfEnd ≠ -1 ∧ l.lfStart > lock.lfEnd := by
    have lastLock := last_cases lock
    have boundL := ranged.ordered
    have limitL := ranged.bounded
    unfold Precedes at later
    omega
  simp [lfFindoverlap, own, isApart, aft]

omit ranged lrng in
theorem lfFindoverlap_found (isHit : hit lock l = true) {ovcase : OvCase}
    (isCase : ovcaseOf l lock = some ovcase) (prev tl : List Lockf) :
    lfFindoverlap .self lock prev (l :: tl) = .found ovcase prev l tl := by
  simp only [hit, Bool.and_eq_true, decide_eq_true_eq, Bool.not_eq_true'] at isHit
  simp [lfFindoverlap, isHit.1, isHit.2, isCase]

theorem search_cases : (l.lfId ≠ lock.lfId ∨ l.Precedes lock) ∧ hit lock l = false ∨
      l.lfId = lock.lfId ∧ lock.Precedes l ∧ hit lock l = false ∨
      hit lock l = true := by
  by_cases own : l.lfId = lock.lfId
  · cases isApart : apart l lock with
    | false => exact Or.inr (Or.inr (by simp [hit, own, isApart]))
    | true =>
      rcases (apart_iff ranged lrng).mp isApart with old | later
      · exact Or.inl ⟨Or.inr old, by simp [hit, isApart]⟩
      · exact Or.inr (Or.inl ⟨own, later, by simp [hit, isApart]⟩)
  · exact Or.inl ⟨Or.inl own, by simp [hit, own]⟩

end Search

/-! ### The locks behind the request -/

def AllBehind (lock : Lockf) (rest : List Lockf) : Prop :=
  ∀ l ∈ rest, l.lfId = lock.lfId → lock.Precedes l

theorem AllBehind.not_hit (tail : AllBehind lock tl) (lrng : lock.Ranged)
    (restRanged : ∀ l ∈ tl, l.Ranged) : ∀ l ∈ tl, hit lock l = false := by
  intro l mem
  by_contra isHit
  obtain ⟨own, left, right⟩ := (hit_iff (restRanged l mem) lrng).mp (by simpa using isHit)
  have later := tail l mem own
  unfold Precedes at later
  omega

theorem flatMap_remains_of_not_hit (spare : Nat) (kept : ∀ l ∈ tl, hit lock l = false) :
    tl.flatMap (remains spare lock) = tl := by
  induction tl with
  | nil => rfl
  | cons head tail ih =>
    rw [flatMap_cons, ih (forall_mem_cons.mp kept).2, remains,
      if_neg (by simp [kept head mem_cons_self])]
    rfl

theorem filter_hit_of_not_hit (kept : ∀ l ∈ tl, hit lock l = false) :
    tl.filter (hit lock) = [] := by
  rw [filter_eq_nil_iff]
  intro l mem
  simp [kept l mem]

/-- In order, what follows an own lock that reaches the end of the request lies behind it. -/
theorem AllBehind.of_sorted (sort : OwnSorted (l :: tl)) (own : l.lfId = lock.lfId)
    (path : lock.last ≤ l.last) : AllBehind lock tl := by
  intro m mem ownM
  have order := (pairwise_cons.mp sort).1 m mem (by rw [own, ownM])
  unfold Precedes at order ⊢
  omega

/-! ### Waking -/

theorem wake_nil (sls : List (Sleeper φ)) : wake [] sls = sls := by
  simp [wake]

theorem wake_append (fst snd : List Nat) (sls : List (Sleeper φ)) :
    wake snd (wake fst sls) = wake (fst ++ snd) sls := by
  simp only [wake, map_map]
  apply map_congr_left
  intro slp _
  by_cases inFirst : slp.lock.ident ∈ fst <;>
    by_cases inSecond : slp.lock.ident ∈ snd <;> simp [inFirst]

def hitQueue (lock : Lockf) (rest : List Lockf) : List Nat :=
  (rest.filter (hit lock)).flatMap Lockf.lfBlkhd

theorem hitQueue_cons_hit (isHit : hit lock l = true) :
    hitQueue lock (l :: tl) = l.lfBlkhd ++ hitQueue lock tl := by
  simp [hitQueue, isHit]

theorem hitQueue_cons_miss (hm : hit lock l = false) :
    hitQueue lock (l :: tl) = hitQueue lock tl := by
  simp [hitQueue, hm]

theorem hitQueue_of_not_hit (kept : ∀ l ∈ tl, hit lock l = false) :
    hitQueue lock tl = [] := by
  rw [hitQueue, filter_hit_of_not_hit kept]
  rfl

/-! ### Clearing -/

def spareId (spare : Option Lockf) : Nat := (spare.map Lockf.ident).getD 0

/-- A call without a spare lock does not cut a lock in three. -/
def EnoughFor (spare : Option Lockf) (lock : Lockf) (rest : List Lockf) : Prop :=
  spare = none → ∀ l ∈ rest, hit lock l = true → ¬ (l.lfStart < lock.lfStart ∧ lock.last < l.last)

section Remains

variable (spare : Nat) (isHit : hit lock l = true)

include isHit

theorem remains_inside (left : lock.lfStart ≤ l.lfStart) (right : l.last ≤ lock.last) :
    remains spare lock l = [] := by
  rw [remains, if_pos isHit, leftOf, if_neg (by omega), rightOf, if_neg (by omega)]
  rfl

theorem remains_left (left : l.lfStart < lock.lfStart) (right : l.last ≤ lock.last) :
    remains spare lock l = [{ l with lfEnd := lock.lfStart - 1, lfBlkhd := [] }] := by
  rw [remains, if_pos isHit, leftOf, if_pos left, rightOf, if_neg (by omega)]
  rfl

theorem remains_right (left : lock.lfStart ≤ l.lfStart) (right : lock.last < l.last) :
    remains spare lock l = [{ l with lfStart := lock.last + 1, lfBlkhd := [] }] := by
  rw [remains, if_pos isHit, leftOf, if_neg (by omega), rightOf, if_pos right, if_neg (by omega)]
  rfl

theorem remains_both (left : l.lfStart < lock.lfStart) (right : lock.last < l.last) :
    remains spare lock l = [{ l with lfEnd := lock.lfStart - 1, lfBlkhd := [] },
        { l with ident := spare, lfStart := lock.last + 1, lfBlkhd := [] }] := by
  rw [remains, if_pos isHit, leftOf, if_pos left, rightOf, if_pos right, if_pos left]
  rfl

end Remains

/-- A request that does not cut at the largest byte computes its ends without wrapping. -/
theorem off_ends (ranged : l.Ranged) (lrng : lock.Ranged) :
    (l.lfStart < lock.lfStart → off (lock.lfStart - 1) = lock.lfStart - 1) ∧
      (lock.last < l.last → lock.lfEnd = lock.last ∧ off (lock.lfEnd + 1) = lock.last + 1) := by
  have lastLock := last_cases lock
  have startL := ranged.nonneg
  have limitL := ranged.bounded
  have boundLock := lrng.ordered
  have limitLock := lrng.bounded
  constructor
  · intro prev
    apply off_eq <;> omega
  intro s'
  have isEnd : lock.lfEnd = lock.last := by omega
  refine ⟨isEnd, ?_⟩
  rw [isEnd]
  apply off_eq
  · have startLock := lrng.nonneg
    omega
  · omega

/-- A lock that ends behind the request, unless its end is cut to that of the request. -/
theorem past_of_uncut (lrng : lock.Ranged) (uncut : ¬ Cuts lock l) (own : l.lfId = lock.lfId)
    (notEnd : lock.lfEnd ≠ -1) (past : l.lfEnd = -1 ∨ lock.lfEnd < l.lfEnd) :
    lock.last < l.last := by
  have lastL := last_cases l
  have lastLock := last_cases lock
  have notCut : ¬ (lock.lfEnd = offMax ∧ l.lfEnd = -1) := fun cut => uncut ⟨own, cut⟩
  have limitLock := lrng.bounded
  omega

theorem past_of_contains (ranged : l.Ranged) (lrng : lock.Ranged) (uncut : ¬ Cuts lock l)
    (isHit : hit lock l = true) (notEnd : lock.lfEnd ≠ -1) (path : lock.last ≤ l.last)
    (differ : l.lfEnd ≠ lock.lfEnd) : lock.last < l.last := by
  have own := ((hit_iff ranged lrng).mp isHit).1
  have lastL := last_cases l
  have lastLock := last_cases lock
  exact past_of_uncut lrng uncut own notEnd (by omega)

theorem lfClearLoop_congr {prev before' rest' : List Lockf} (fuel : Nat) (spare : Option Lockf)
    (env : Env φ)
    (same : lfFindoverlap .self lock prev tl = lfFindoverlap .self lock before' rest') :
    lfClearLoop lock (fuel + 1) prev tl spare env =
      lfClearLoop lock (fuel + 1) before' rest' spare env := by
  rw [lfClearLoop, lfClearLoop, same]

/-- The loop leaves what remains of the locks, and wakes up those that waited for one it hit. -/
def Clears (lock : Lockf) (spare : Option Lockf) (fuel : Nat) (before rest : List Lockf)
    (env : Env φ) : Prop :=
  ∃ spare' env', lfClearLoop lock fuel before rest spare env =
      some (before ++ rest.flatMap (remains (spareId spare) lock), spare', env') ∧
    env'.sleepers = wake (hitQueue lock rest) env.sleepers

/-- What follows is left alone once the end of the request is reached. -/
theorem AllBehind.kept (tail : AllBehind lock tl) (lrng : lock.Ranged)
    (restRanged : ∀ l ∈ tl, l.Ranged) (spare : Nat) :
    tl.flatMap (remains spare lock) = tl ∧ hitQueue lock tl = [] :=
  have untouched := tail.not_hit lrng restRanged
  ⟨flatMap_remains_of_not_hit spare untouched, hitQueue_of_not_hit untouched⟩

section Clear

variable {spare : Option Lockf} {fuel : Nat} {prev : List Lockf} {env : Env φ}

theorem Clears.skip (clears : Clears lock spare (fuel + 1) (prev ++ [l]) tl env)
    (ranged : l.Ranged) (lrng : lock.Ranged) (skip : l.lfId ≠ lock.lfId ∨ l.Precedes lock)
    (hm : hit lock l = false) : Clears lock spare (fuel + 1) prev (l :: tl) env := by
  obtain ⟨spare', env', loop, woken⟩ := clears
  refine ⟨spare', env', ?_, by rw [hitQueue_cons_miss hm, woken]⟩
  rw [lfClearLoop_congr fuel spare env
      (lfFindoverlap_skip ranged lrng skip prev tl), loop,
    flatMap_cons, remains, if_neg (by simp [hm])]
  simp

/-- The request lies within an own lock, of which the parts at its ends remain. -/
theorem Clears.divides (ranged : l.Ranged) (lrng : lock.Ranged)
    (tailRanged : ∀ m ∈ tl, m.Ranged) (isHit : hit lock l = true) (own : l.lfId = lock.lfId)
    (sort : OwnSorted (l :: tl)) (uncut : ¬ Cuts lock l) (suff : EnoughFor spare lock (l :: tl))
    (isCase : ovcaseOf l lock = some .overlapContainsLock) (contains : l.lfStart ≤ lock.lfStart)
    (notEnd : lock.lfEnd ≠ -1) (path : lock.last ≤ l.last)
    (differ : ¬ (l.lfStart = lock.lfStart ∧ l.lfEnd = lock.lfEnd)) :
    Clears lock spare (fuel + 1) prev (l :: tl) env := by
  have ends := off_ends ranged lrng
  have kept := (AllBehind.of_sorted sort own path).kept lrng tailRanged (spareId spare)
  have past (eqEnd : l.lfEnd ≠ lock.lfEnd) :=
    past_of_contains ranged lrng uncut isHit notEnd path eqEnd
  unfold Clears
  rw [hitQueue_cons_hit isHit, flatMap_cons, kept.1, kept.2]
  by_cases eqS : l.lfStart = lock.lfStart
  · have isPast := past (fun eqEnd => differ ⟨eqS, eqEnd⟩)
    rw [remains_right _ isHit (by omega) isPast, ← (ends.2 isPast).2]
    simp [lfClearLoop, lfFindoverlap_found isHit isCase, eqS, lfWakelock]
  have old : l.lfStart < lock.lfStart := by omega
  by_cases eqEnd : l.lfEnd = lock.lfEnd
  · have sameLast : l.last = lock.last := by rw [last, last, eqEnd]
    rw [remains_left _ isHit old (by omega), ← ends.1 old]
    simp [lfClearLoop, lfFindoverlap_found isHit isCase, eqS, eqEnd, lfWakelock, lfSplit]
  obtain ⟨split, hsome⟩ : ∃ split, spare = some split := by
    rw [← Option.ne_none_iff_exists']
    intro hn
    exact suff hn l mem_cons_self isHit ⟨old, past eqEnd⟩
  rw [remains_both _ isHit old (past eqEnd), ← ends.1 old, ← (ends.2 (past eqEnd)).2, hsome]
  simp [lfClearLoop, lfFindoverlap_found isHit isCase, eqS, eqEnd, lfWakelock, lfSplit, spareId]

end Clear

/-- The clearing loop keeps what remains of each lock. -/
theorem lfClearLoop_eq (lrng : lock.Ranged) {spare : Option Lockf}
    (restRanged : ∀ l ∈ tl, l.Ranged) (sort : OwnSorted tl)
    (uncut : ∀ l ∈ tl, ¬ Cuts lock l) (suff : EnoughFor spare lock tl) {fuel : Nat}
    (fueled : tl.length < fuel) (prev : List Lockf) (env : Env φ) :
    Clears lock spare fuel prev tl env := by
  induction tl generalizing fuel prev env with
  | nil =>
    obtain ⟨fuel, rfl⟩ : ∃ less, fuel = less + 1 := ⟨fuel - 1, by simp at fueled; omega⟩
    refine ⟨spare, env, ?_, ?_⟩
    · simp [lfClearLoop, lfFindoverlap]
    · simp [hitQueue, wake_nil]
  | cons l tl ih =>
    obtain ⟨fuel, rfl⟩ : ∃ less, fuel = less + 1 := ⟨fuel - 1, by simp at fueled; omega⟩
    obtain ⟨ranged, tailRanged⟩ := forall_mem_cons.mp restRanged
    have tailSorted : OwnSorted tl := (pairwise_cons.mp sort).2
    have tailUncut := (forall_mem_cons.mp uncut).2
    have tailEnough : EnoughFor spare lock tl :=
      fun hn m mem => suff hn m (mem_cons_of_mem l mem)
    have again (fuel : Nat) (fueled : tl.length < fuel) :=
      ih tailRanged tailSorted tailUncut tailEnough fueled
    have lt : tl.length < fuel := by simp only [length_cons] at fueled; omega
    have tailKept (own : l.lfId = lock.lfId) (path : lock.last ≤ l.last) :=
      (AllBehind.of_sorted sort own path).kept lrng tailRanged (spareId spare)
    rcases search_cases ranged lrng with ⟨skip, hm⟩ | ⟨own, later, hm⟩ | isHit
    · exact Clears.skip (again (fuel + 1) (by omega) (prev ++ [l]) env) ranged lrng skip hm
    · have kept := tailKept own (by
        have order := ranged.ordered
        unfold Precedes at later
        omega)
      refine ⟨spare, env, ?_, ?_⟩
      · rw [lfClearLoop, lfFindoverlap_stop ranged lrng own later, flatMap_cons, kept.1,
          remains, if_neg (by simp [hm])]
        rfl
      · rw [hitQueue_cons_miss hm, kept.2, wake_nil]
    · obtain ⟨own, leftHit, rightHit⟩ := (hit_iff ranged lrng).mp isHit
      have ends := off_ends ranged lrng
      rcases ovcaseOf_cases ranged lrng leftHit rightHit with
        ⟨isCase, eqS, eqEnd⟩ | ⟨isCase, contains, notEnd, path, differ⟩ |
        ⟨isCase, inside, within⟩ | ⟨isCase, old, within⟩ | ⟨isCase, later, notEnd, past⟩
      · have sameLast : l.last = lock.last := by rw [last, last, eqEnd]
        have kept := tailKept own (by omega)
        unfold Clears
        rw [hitQueue_cons_hit isHit, flatMap_cons, kept.1, kept.2,
          remains_inside _ isHit (by omega) (by omega), append_nil, nil_append]
        refine ⟨spare, lfFree (lfWakelock env l).1 (lfWakelock env l).2, ?_, rfl⟩
        simp [lfClearLoop, lfFindoverlap_found isHit isCase]
      · exact .divides ranged lrng tailRanged isHit own sort (uncut l mem_cons_self) suff
          isCase contains notEnd path differ
      · obtain ⟨spare', env', loop, woken⟩ := again fuel lt prev
          (lfFree (lfWakelock env l).1 (lfWakelock env l).2)
        refine ⟨spare', env', ?_, ?_⟩
        · rw [flatMap_cons, remains_inside _ isHit inside within, nil_append, ← loop]
          simp [lfClearLoop, lfFindoverlap_found isHit isCase]
        · rw [hitQueue_cons_hit isHit, woken, ← wake_append]
          rfl
      · obtain ⟨spare', env', loop, woken⟩ := again fuel lt
          (prev ++ [{ l with lfEnd := lock.lfStart - 1, lfBlkhd := [] }]) (lfWakelock env l).1
        refine ⟨spare', env', ?_, ?_⟩
        · rw [flatMap_cons, remains_left _ isHit old within, ← append_assoc, ← loop]
          simp [lfClearLoop, lfFindoverlap_found isHit isCase, lfWakelock, ends.1 old]
        · rw [hitQueue_cons_hit isHit, woken, ← wake_append]
          rfl
      · have isPast := past_of_uncut lrng (uncut l mem_cons_self) own notEnd past
        have kept := tailKept own (by omega)
        unfold Clears
        rw [hitQueue_cons_hit isHit, flatMap_cons, kept.1, kept.2, append_nil,
          remains_right _ isHit (by omega) isPast, ← (ends.2 isPast).2]
        refine ⟨spare, (lfWakelock env l).1, ?_, rfl⟩
        simp [lfClearLoop, lfFindoverlap_found isHit isCase, lfWakelock]

/-!
### Adding a lock

What the loop of `lf_setlock` that adds a lock computes: the list it
leaves, and what becomes of the requests that waited for own locks.
-/

/-- The lock takes the queue of an own lock over instead of waking it. -/
def keeps (lock l : Lockf) : Bool :=
  decide (lock.lfStart ≤ l.lfStart ∧ l.last ≤ lock.last ∧
    ¬ (lock.lfType = .rdlck ∧ l.lfType = .wrlck))

/-- What becomes of a sleeping request when one own lock is hit. -/
def serve (lock l : Lockf) (sleeper : Sleeper φ) : Sleeper φ :=
  if sleeper.lock.ident ∈ l.lfBlkhd then
    if keeps lock l then { sleeper with lfNext := some lock.ident }
    else { sleeper with lfNext := none, woken := true }
  else sleeper

/-- What becomes of a sleeping request when all own locks of a list are hit in turn. -/
def serveAll (lock : Lockf) (rest : List Lockf) (sleeper : Sleeper φ) : Sleeper φ :=
  (rest.filter (hit lock)).foldl (fun sleeper l => serve lock l sleeper) sleeper

/-- The requests that the lock takes over. -/
def handedQueue (lock : Lockf) (rest : List Lockf) : List Nat :=
  ((rest.filter (hit lock)).filter (keeps lock)).flatMap Lockf.lfBlkhd

def Lockf.extend (lock : Lockf) (queue : List Nat) : Lockf :=
  { lock with lfBlkhd := lock.lfBlkhd ++ queue }

theorem Lockf.extend_extend (lock : Lockf) (fst snd : List Nat) :
    (lock.extend fst).extend snd = lock.extend (fst ++ snd) := by
  simp [extend]

theorem Lockf.Ranged.extend (ranged : lock.Ranged) (queue : List Nat) :
    (lock.extend queue).Ranged :=
  ⟨ranged.nonneg, ranged.ordered, ranged.bounded⟩

theorem Lockf.extend_nil (lock : Lockf) : lock.extend [] = lock := by
  simp [extend]

section Cons

variable (sls : List (Sleeper φ))

theorem serveAll_cons_hit (isHit : hit lock l = true) : sls.map (serveAll lock (l :: tl)) =
      (sls.map (serve lock l)).map (serveAll lock tl) := by
  simp [serveAll, isHit]

theorem serveAll_cons_miss (hm : hit lock l = false) :
    sls.map (serveAll lock (l :: tl)) = sls.map (serveAll lock tl) := by
  simp [serveAll, hm]

theorem serveAll_of_not_hit (kept : ∀ l ∈ tl, hit lock l = false) :
    sls.map (serveAll lock tl) = sls := by
  have nothing : serveAll lock tl = (id : Sleeper φ → Sleeper φ) := by
    funext slp
    simp [serveAll, filter_hit_of_not_hit kept]
  rw [nothing, map_id]

theorem handedQueue_cons_hit (isHit : hit lock l = true) : handedQueue lock (l :: tl) =
      (if keeps lock l then l.lfBlkhd else []) ++ handedQueue lock tl := by
  cases kept : keeps lock l <;> simp [handedQueue, isHit, kept]

theorem handedQueue_cons_miss (hm : hit lock l = false) :
    handedQueue lock (l :: tl) = handedQueue lock tl := by
  simp [handedQueue, hm]

theorem handedQueue_of_not_hit (kept : ∀ l ∈ tl, hit lock l = false) :
    handedQueue lock tl = [] := by
  rw [handedQueue, filter_hit_of_not_hit kept]
  rfl

theorem map_serve_of_wakes (wakes : keeps lock l = false) :
    sls.map (serve lock l) = wake l.lfBlkhd sls := by
  simp [serve, wake, wakes]

theorem takeList_eq (lt : lock.lfStart ≤ l.lfStart) (bnd : l.last ≤ lock.last) (env : Env φ) :
    takeList lock l env = (lock.extend (if keeps lock l then l.lfBlkhd else []),
        { env with sleepers := env.sleepers.map (serve lock l) }) := by
  unfold takeList
  split
  · rename_i weaker
    have wakes : keeps lock l = false := by simp [keeps, weaker]
    rw [map_serve_of_wakes _ wakes]
    simp [wakes, extend, lfWakelock]
  · rename_i notWeaker
    have kept : keeps lock l = true := by
      simp only [keeps, decide_eq_true_eq]
      exact ⟨lt, bnd, notWeaker⟩
    simp [kept, extend, handTo, serve]

end Cons

theorem lfSetLoop_congr {prev before' rest' : List Lockf} (fuel : Nat)
    (pre : Option (List Lockf)) (spare : Option Lockf) (env : Env φ)
    (same : lfFindoverlap .self lock prev tl = lfFindoverlap .self lock before' rest') :
    lfSetLoop (fuel + 1) lock pre prev tl spare env =
      lfSetLoop (fuel + 1) lock pre before' rest' spare env := by
  rw [lfSetLoop, lfSetLoop, same]

/-- Once the new lock is linked, the loop only cuts those behind it. -/
theorem lfSetLoop_linked (lrng : lock.Ranged) (restRanged : ∀ l ∈ tl, l.Ranged)
    (sort : OwnSorted tl) (uncut : ∀ l ∈ tl, ¬ Cuts lock l)
    (beg : ∀ l ∈ tl, l.lfId = lock.lfId → lock.lfStart < l.lfStart) {fuel : Nat}
    (fueled : tl.length < fuel) (pre prev : List Lockf) (spare : Option Lockf) (env : Env φ) :
    ∃ env', lfSetLoop fuel lock (some pre) prev tl spare env =
        some (pre ++ lock.extend (handedQueue lock tl) :: prev ++
          tl.flatMap (remains (spareId spare) lock), spare, env') ∧
      env'.sleepers = env.sleepers.map (serveAll lock tl) := by
  induction tl generalizing lock fuel prev env with
  | nil =>
    obtain ⟨fuel, rfl⟩ : ∃ less, fuel = less + 1 := ⟨fuel - 1, by simp at fueled; omega⟩
    refine ⟨env, ?_, ?_⟩
    · simp [lfSetLoop, lfFindoverlap, handedQueue, extend_nil]
    · rw [serveAll_of_not_hit _ (by simp)]
  | cons l tl ih =>
    obtain ⟨fuel, rfl⟩ : ∃ less, fuel = less + 1 := ⟨fuel - 1, by simp at fueled; omega⟩
    obtain ⟨ranged, tailRanged⟩ := forall_mem_cons.mp restRanged
    have tailSorted : OwnSorted tl := (pairwise_cons.mp sort).2
    have tailUncut := (forall_mem_cons.mp uncut).2
    have tailStarts := (forall_mem_cons.mp beg).2
    rcases search_cases ranged lrng with ⟨skip, hm⟩ | ⟨own, later, hm⟩ | isHit
    · obtain ⟨env', loop, served⟩ := ih lrng tailRanged tailSorted
        tailUncut tailStarts (show tl.length < fuel + 1 by
          simp only [length_cons] at fueled; omega) (prev ++ [l]) env
      refine ⟨env', ?_, by rw [served, serveAll_cons_miss _ hm]⟩
      rw [lfSetLoop_congr fuel (some pre) spare env
          (lfFindoverlap_skip ranged lrng skip prev tl), loop,
        flatMap_cons, remains, if_neg (by simp [hm]), handedQueue_cons_miss hm]
      simp
    · have tail := AllBehind.of_sorted sort own (by
        have order := ranged.ordered
        unfold Precedes at later
        omega)
      have kept := tail.not_hit lrng tailRanged
      refine ⟨env, ?_, ?_⟩
      · rw [lfSetLoop, lfFindoverlap_stop ranged lrng own later, flatMap_cons,
          flatMap_remains_of_not_hit _ kept, remains, if_neg (by simp [hm]),
          handedQueue_cons_miss hm, handedQueue_of_not_hit kept, extend_nil]
        rfl
      · rw [serveAll_cons_miss _ hm, serveAll_of_not_hit _ kept]
    · obtain ⟨own, leftHit, rightHit⟩ := (hit_iff ranged lrng).mp isHit
      have begins := beg l mem_cons_self own
      rw [handedQueue_cons_hit isHit, flatMap_cons, serveAll_cons_hit _ isHit]
      rcases ovcaseOf_cases ranged lrng leftHit rightHit with
        ⟨isCase, eqS, eqEnd⟩ | ⟨isCase, contains, notEnd, path, differ⟩ |
        ⟨isCase, inside, within⟩ | ⟨isCase, earlier, within⟩ | ⟨isCase, later, notEnd, past⟩
      · omega
      · omega
      · obtain ⟨env', loop, served⟩ := ih
          (lrng.extend (if keeps lock l then l.lfBlkhd else [])) tailRanged
          tailSorted tailUncut tailStarts (show tl.length < fuel by
            simp only [length_cons] at fueled; omega) prev
          (lfFree { env with sleepers := env.sleepers.map (serve lock l) } l)
        refine ⟨env', ?_, ?_⟩
        · rw [remains_inside _ isHit inside within, ← extend_extend]
          rw [lfSetLoop, lfFindoverlap_found isHit isCase]
          simp only [takeList_eq inside within]
          exact loop
        · exact served
      · omega
      · have isPast := past_of_uncut lrng (uncut l mem_cons_self) own notEnd past
        have kept := (AllBehind.of_sorted sort own (by omega)).not_hit lrng tailRanged
        have wakes : keeps lock l = false := by
          simp only [keeps, decide_eq_false_iff_not]
          omega
        refine ⟨(lfWakelock env l).1, ?_, ?_⟩
        · rw [remains_right _ isHit (by omega) isPast, ← ((off_ends ranged lrng).2 isPast).2,
            flatMap_remains_of_not_hit _ kept, handedQueue_of_not_hit kept, wakes,
            lfSetLoop, lfFindoverlap_found isHit isCase]
          simp [lfWakelock, extend_nil]
        · rw [serveAll_of_not_hit _ kept, map_serve_of_wakes _ wakes]
          rfl

/-! ### The new list -/

def weakens (lock l : Lockf) : Bool := decide (lock.lfType = .rdlck ∧ l.lfType = .wrlck)

/-- The own lock of the same range, with the type of the request. -/
def Lockf.retype (overlap lock : Lockf) : Lockf :=
  { overlap with
    lfType := lock.lfType
    lfBlkhd := if weakens lock overlap then [] else overlap.lfBlkhd }

/-- The lists and sleeping requests that adding a lock to a list may leave: the lock stands
between what it leaves of the own locks, or an own lock of the same range has got its type, or an
own lock of its type covers it already. -/
inductive Placed (lock : Lockf) (spare : Nat) (rest : List Lockf) (sleepers : List (Sleeper φ)) :
    List Lockf → List (Sleeper φ) → Prop
  | linked (left right : List Lockf) (parts : left ++ right = rest.flatMap (remains spare lock))
      (before : ∀ l ∈ left, l.lfId = lock.lfId → l.Precedes lock) (after : AllBehind lock right) :
      Placed lock spare rest sleepers (left ++ lock.extend (handedQueue lock rest) :: right)
        (sleepers.map (serveAll lock rest))
  | retyped (left right : List Lockf) (overlap : Lockf) (parts : rest = left ++ overlap :: right)
      (own : overlap.lfId = lock.lfId) (sameStart : overlap.lfStart = lock.lfStart)
      (sameEnd : overlap.lfEnd = lock.lfEnd) :
      Placed lock spare rest sleepers (left ++ overlap.retype lock :: right)
        (if weakens lock overlap then wake overlap.lfBlkhd sleepers else sleepers)
  | unchanged (overlap : Lockf) (member : overlap ∈ rest) (own : overlap.lfId = lock.lfId)
      (sameType : overlap.lfType = lock.lfType) (starts : overlap.lfStart ≤ lock.lfStart)
      (reaches : lock.last ≤ overlap.last) : Placed lock spare rest sleepers rest sleepers

theorem Placed.cons {spare : Nat} {sls sleepers' : List (Sleeper φ)} {res : List Lockf}
    (at' : Placed lock spare tl sls res sleepers')
    (skip : l.lfId ≠ lock.lfId ∨ l.Precedes lock) (hm : hit lock l = false) :
    Placed lock spare (l :: tl) sls (l :: res) sleepers' := by
  cases at' with
  | linked left right parts prev s' =>
    rw [← handedQueue_cons_miss hm, ← serveAll_cons_miss sls hm]
    refine Placed.linked (l :: left) right ?_ ?_ s'
    · rw [flatMap_cons, ← parts, remains, if_neg (by simp [hm])]
      rfl
    · intro m mem own
      rcases mem_cons.mp mem with rfl | mem
      · exact skip.resolve_left (not_not.mpr own)
      · exact prev m mem own
  | retyped left right ovl parts own eqS eqEnd =>
    exact Placed.retyped (l :: left) right ovl (by rw [parts]; rfl) own eqS eqEnd
  | unchanged ovl mem own eqType beg path =>
    exact Placed.unchanged ovl (mem_cons_of_mem l mem) own eqType beg path

variable {spare : Nat}

theorem mem_remains {m : Lockf} (mem : m ∈ remains spare lock l) :
    m.lfId = l.lfId ∧ m.lfType = l.lfType ∧ m.lfUid = l.lfUid ∧ (hit lock l = false ∧ m = l ∨
        hit lock l = true ∧ m.lfBlkhd = [] ∧
          (l.lfStart < lock.lfStart ∧ m.lfStart = l.lfStart ∧ m.lfEnd = lock.lfStart - 1 ∧
              m.ident = l.ident ∨
            lock.last < l.last ∧ m.lfStart = lock.last + 1 ∧ m.lfEnd = l.lfEnd ∧
              m.ident = if l.lfStart < lock.lfStart then spare else l.ident)) := by
  unfold remains at mem
  split at mem
  · rename_i isHit
    rcases mem_append.mp mem with inL | inR
    · unfold leftOf at inL
      split at inL
      · obtain rfl := mem_singleton.mp inL
        exact ⟨rfl, rfl, rfl, Or.inr ⟨isHit, rfl, Or.inl ⟨by assumption, rfl, rfl, rfl⟩⟩⟩
      · simp at inL
    · unfold rightOf at inR
      split at inR
      · obtain rfl := mem_singleton.mp inR
        exact ⟨rfl, rfl, rfl, Or.inr ⟨isHit, rfl, Or.inr ⟨by assumption, rfl, rfl, rfl⟩⟩⟩
      · simp at inR
  · rename_i notHit
    obtain rfl := mem_singleton.mp mem
    exact ⟨rfl, rfl, rfl, Or.inl ⟨by simpa using notHit, rfl⟩⟩

theorem allBehind_remains (lrng : lock.Ranged) (restRanged : ∀ l ∈ tl, l.Ranged)
    (beg : ∀ l ∈ tl, l.lfId = lock.lfId → lock.lfStart ≤ l.lfStart) :
    AllBehind lock (tl.flatMap (remains spare lock)) := by
  intro m mem own
  obtain ⟨l, hrest, piece⟩ := mem_flatMap.mp mem
  obtain ⟨sameId, _, _, shape⟩ := mem_remains piece
  have ownL : l.lfId = lock.lfId := by rw [← sameId, own]
  have begins := beg l hrest ownL
  have ranged := restRanged l hrest
  unfold Precedes
  rcases shape with ⟨hm, rfl⟩ | ⟨_, _, ⟨prev, _⟩ | ⟨_, start, _⟩⟩
  · have notHit := mt (hit_iff ranged lrng).mpr (by simp [hm])
    have order := ranged.ordered
    have noOverlap : ¬ (lock.lfStart ≤ m.last ∧ m.lfStart ≤ lock.last) :=
      fun both => notHit ⟨own, both⟩
    omega
  · omega
  · omega

/-- The request cuts an own lock at the largest byte only if that lock covers it already. -/
def SetFits (lock : Lockf) (rest : List Lockf) : Prop :=
  ∀ l ∈ rest, Cuts lock l → l.lfStart ≤ lock.lfStart ∧ l.lfType = lock.lfType

/-- A lock that reaches out on either side is cut, not dropped. -/
theorem Placed.divides {sls : List (Sleeper φ)} (isHit : hit lock l = true)
    (ranged : l.Ranged) (lrng : lock.Ranged)
    (lt : l.lfStart < lock.lfStart ∨ lock.last < l.last) (tail : AllBehind lock tl)
    (restRanged : ∀ l ∈ tl, l.Ranged) : Placed lock spare (l :: tl) sls
      (leftOf lock l ++ lock :: rightOf spare lock l ++ tl) (wake l.lfBlkhd sls) := by
  have kept := tail.not_hit lrng restRanged
  have wakes : keeps lock l = false := by
    simp only [keeps, decide_eq_false_iff_not]
    omega
  have handed : lock.extend (handedQueue lock (l :: tl)) = lock := by
    rw [handedQueue_cons_hit isHit, wakes, handedQueue_of_not_hit kept]
    exact lock.extend_nil
  have served : sls.map (serveAll lock (l :: tl)) = wake l.lfBlkhd sls := by
    rw [serveAll_cons_hit _ isHit, map_serve_of_wakes _ wakes, serveAll_of_not_hit _ kept]
  have at' : Placed lock spare (l :: tl) sls _ _ := Placed.linked (leftOf lock l)
    (rightOf spare lock l ++ tl)
    (by rw [flatMap_cons, flatMap_remains_of_not_hit _ kept, remains, if_pos isHit,
      append_assoc]) ?_ ?_
  · rw [handed, served] at at'
    rwa [append_assoc, cons_append]
  · intro m mem _
    unfold leftOf at mem
    split at mem
    · obtain rfl := mem_singleton.mp mem
      have startL := ranged.nonneg
      simp only [Precedes, last]
      omega
    · simp at mem
  · intro m mem own
    rcases mem_append.mp mem with inR | hrest
    · unfold rightOf at inR
      split at inR
      · obtain rfl := mem_singleton.mp inR
        simp only [Precedes]
        omega
      · simp at inR
    · exact tail m hrest own

theorem Placed.covers {spare : Nat} {sls : List (Sleeper φ)} (isHit : hit lock l = true)
    (lrng : lock.Ranged) (lt : lock.lfStart ≤ l.lfStart) (bnd : l.last ≤ lock.last)
    (restRanged : ∀ l ∈ tl, l.Ranged)
    (beg : ∀ l ∈ tl, l.lfId = lock.lfId → lock.lfStart ≤ l.lfStart) :
    Placed lock spare (l :: tl) sls
      ((lock.extend (if keeps lock l then l.lfBlkhd else [])).extend (handedQueue lock tl) ::
        tl.flatMap (remains spare lock))
      ((sls.map (serve lock l)).map (serveAll lock tl)) := by
  rw [extend_extend, ← handedQueue_cons_hit isHit, ← serveAll_cons_hit _ isHit]
  exact Placed.linked [] _ (by rw [flatMap_cons, remains_inside _ isHit lt bnd])
    (by simp) (allBehind_remains lrng restRanged beg)

theorem Placed.follows {sls : List (Sleeper φ)} (isHit : hit lock l = true)
    (ranged : l.Ranged) (lrng : lock.Ranged) (old : l.lfStart < lock.lfStart)
    (bnd : l.last ≤ lock.last) (restRanged : ∀ l ∈ tl, l.Ranged)
    (beg : ∀ l ∈ tl, l.lfId = lock.lfId → lock.lfStart ≤ l.lfStart) :
    Placed lock spare (l :: tl) sls ([{ l with lfEnd := lock.lfStart - 1, lfBlkhd := [] }] ++
        lock.extend (handedQueue lock tl) :: tl.flatMap (remains spare lock))
      ((wake l.lfBlkhd sls).map (serveAll lock tl)) := by
  have wakes : keeps lock l = false := by
    simp only [keeps, decide_eq_false_iff_not]
    omega
  have handed : handedQueue lock tl = handedQueue lock (l :: tl) := by
    rw [handedQueue_cons_hit isHit, wakes]
    rfl
  rw [handed, ← map_serve_of_wakes sls wakes, ← serveAll_cons_hit _ isHit]
  refine Placed.linked _ _ (by rw [flatMap_cons, remains_left _ isHit old bnd]) ?_
    (allBehind_remains lrng restRanged beg)
  intro m mem _
  obtain rfl := mem_singleton.mp mem
  have startL := ranged.nonneg
  simp only [Precedes, last]
  omega

/-! ### The turns of the loop -/

/-- The loop puts the lock in its place in the rest, behind the locks before. -/
def Sets (lock : Lockf) (spare : Option Lockf) (fuel : Nat) (before rest : List Lockf)
    (env : Env φ) : Prop :=
  ∃ out spare' env', lfSetLoop fuel lock none before rest spare env =
      some (before ++ out, spare', env') ∧
    Placed lock (spareId spare) rest env.sleepers out env'.sleepers

section Turns

variable {spare : Option Lockf} {fuel : Nat} {prev : List Lockf} {env : Env φ}

theorem Sets.behind (fnd : lfFindoverlap .self lock prev tl = .noOverlap prev tl)
    (kept : ∀ l ∈ tl, hit lock l = false) (tail : AllBehind lock tl) :
    Sets lock spare (fuel + 1) prev tl env := by
  refine ⟨lock :: tl, spare, env, by rw [lfSetLoop, fnd], ?_⟩
  have at' : Placed lock (spareId spare) tl env.sleepers _ _ :=
    Placed.linked [] tl (by rw [flatMap_remains_of_not_hit _ kept]; rfl) (by simp) tail
  rwa [serveAll_of_not_hit _ kept, handedQueue_of_not_hit kept, extend_nil] at at'

theorem Sets.skip (sets : Sets lock spare (fuel + 1) (prev ++ [l]) tl env) (ranged : l.Ranged)
    (lrng : lock.Ranged) (skip : l.lfId ≠ lock.lfId ∨ l.Precedes lock)
    (hm : hit lock l = false) : Sets lock spare (fuel + 1) prev (l :: tl) env := by
  obtain ⟨res, spare', env', loop, at'⟩ := sets
  refine ⟨l :: res, spare', env', ?_, at'.cons skip hm⟩
  rw [lfSetLoop_congr fuel none spare env
    (lfFindoverlap_skip ranged lrng skip prev tl), loop]
  simp

theorem Sets.retypes (isHit : hit lock l = true) (isCase : ovcaseOf l lock = some .overlapIsLock)
    (own : l.lfId = lock.lfId) (eqS : l.lfStart = lock.lfStart) (eqEnd : l.lfEnd = lock.lfEnd) :
    Sets lock spare (fuel + 1) prev (l :: tl) env := by
  refine ⟨l.retype lock :: tl, spare,
    lfFree (if weakens lock l then (lfWakelock env l).1 else env) lock, ?_, ?_⟩
  · rw [lfSetLoop, lfFindoverlap_found isHit isCase]
    by_cases weaker : lock.lfType = .rdlck ∧ l.lfType = .wrlck <;>
      simp [weaker, weakens, retype, lfWakelock]
  · have at' : Placed lock (spareId spare) (l :: tl) env.sleepers _ _ :=
      Placed.retyped [] tl l rfl own eqS eqEnd
    cases weaker : weakens lock l <;> simpa [weaker, lfFree, lfWakelock] using at'

variable (ranged : l.Ranged) (lrng : lock.Ranged) (isHit : hit lock l = true)
  (own : l.lfId = lock.lfId)

include ranged lrng isHit own

/-- The lock lies within an own lock, which is divided unless it has the same type. -/
theorem Sets.divides (tailRanged : ∀ m ∈ tl, m.Ranged) (sort : OwnSorted (l :: tl))
    (fits : SetFits lock (l :: tl)) (suff : EnoughFor spare lock (l :: tl))
    (isCase : ovcaseOf l lock = some .overlapContainsLock) (contains : l.lfStart ≤ lock.lfStart)
    (notEnd : lock.lfEnd ≠ -1) (path : lock.last ≤ l.last)
    (differ : ¬ (l.lfStart = lock.lfStart ∧ l.lfEnd = lock.lfEnd)) :
    Sets lock spare (fuel + 1) prev (l :: tl) env := by
  have ends := off_ends ranged lrng
  by_cases eqType : l.lfType = lock.lfType
  · refine ⟨l :: tl, spare, lfFree env lock, ?_,
      Placed.unchanged l mem_cons_self own eqType contains path⟩
    rw [lfSetLoop, lfFindoverlap_found isHit isCase]
    simp [eqType]
  have uncut : ¬ Cuts lock l := fun cut => eqType (fits l mem_cons_self cut).2
  have tail := AllBehind.of_sorted sort own path
  have past (eqEnd : l.lfEnd ≠ lock.lfEnd) :=
    past_of_contains ranged lrng uncut isHit notEnd path eqEnd
  have sameLast (eqEnd : l.lfEnd = lock.lfEnd) : l.last = lock.last := by
    rw [last, last, eqEnd]
  have smaller : l.lfStart < lock.lfStart ∨ lock.last < l.last := by
    by_cases eqEnd : l.lfEnd = lock.lfEnd
    · exact Or.inl (by omega)
    · exact Or.inr (past eqEnd)
  have at' : Placed lock (spareId spare) (l :: tl) env.sleepers _ _ :=
    Placed.divides isHit ranged lrng smaller tail tailRanged
  by_cases eqS : l.lfStart = lock.lfStart
  · have isPast := past (fun eqEnd => differ ⟨eqS, eqEnd⟩)
    refine ⟨_, spare, (lfWakelock env l).1, ?_, at'⟩
    rw [lfSetLoop, lfFindoverlap_found isHit isCase]
    simp [eqType, lfWakelock, eqS, leftOf, rightOf, isPast, (ends.2 isPast).2]
  have old : l.lfStart < lock.lfStart := by omega
  by_cases eqEnd : l.lfEnd = lock.lfEnd
  · refine ⟨_, spare, (lfWakelock env l).1, ?_, at'⟩
    rw [lfSetLoop, lfFindoverlap_found isHit isCase]
    simp [eqType, lfWakelock, eqS, eqEnd, leftOf, rightOf, lfSplit, old,
      ends.1 old, sameLast eqEnd]
  have isPast := past eqEnd
  obtain ⟨split, hsome⟩ : ∃ split, spare = some split := by
    rw [← Option.ne_none_iff_exists']
    intro hn
    exact suff hn l mem_cons_self isHit ⟨old, isPast⟩
  refine ⟨_, none, (lfWakelock env l).1, ?_, at'⟩
  rw [lfSetLoop, lfFindoverlap_found isHit isCase, hsome]
  simp [eqType, lfWakelock, eqS, eqEnd, leftOf, rightOf, lfSplit, old,
    ends.1 old, isPast, (ends.2 isPast).2, spareId]

theorem Sets.cutsStart (tailRanged : ∀ m ∈ tl, m.Ranged) (sort : OwnSorted (l :: tl))
    (fits : SetFits lock (l :: tl)) (isCase : ovcaseOf l lock = some .overlapEndsAfter)
    (later : lock.lfStart < l.lfStart) (notEnd : lock.lfEnd ≠ -1)
    (past : l.lfEnd = -1 ∨ lock.lfEnd < l.lfEnd) :
    Sets lock spare (fuel + 1) prev (l :: tl) env := by
  have isPast := past_of_uncut lrng (fun cut => not_le.mpr later (fits l mem_cons_self cut).1) own
    notEnd past
  have tail := AllBehind.of_sorted sort own (le_of_lt isPast)
  have at' : Placed lock (spareId spare) (l :: tl) env.sleepers _ _ :=
    Placed.divides isHit ranged lrng (Or.inr isPast) tail tailRanged
  refine ⟨_, spare, (lfWakelock env l).1, ?_, at'⟩
  have ge : ¬ l.lfStart < lock.lfStart := by omega
  rw [lfSetLoop, lfFindoverlap_found isHit isCase]
  simp [lfWakelock, leftOf, rightOf, ge, isPast, ((off_ends ranged lrng).2 isPast).2]

omit own

variable (tailRanged : ∀ m ∈ tl, m.Ranged) (tailSorted : OwnSorted tl)
  (tailUncut : ∀ m ∈ tl, ¬ Cuts lock m)
  (startsAfter : ∀ m ∈ tl, m.lfId = lock.lfId → lock.lfStart < m.lfStart)
  (lt : tl.length < fuel)

include tailRanged tailSorted tailUncut startsAfter lt

omit ranged in
theorem Sets.covers (isCase : ovcaseOf l lock = some .lockContainsOverlap)
    (ins : lock.lfStart ≤ l.lfStart) (within : l.last ≤ lock.last) :
    Sets lock spare (fuel + 1) prev (l :: tl) env := by
  obtain ⟨env', loop, served⟩ := lfSetLoop_linked
    (lrng.extend (if keeps lock l then l.lfBlkhd else [])) tailRanged tailSorted
    tailUncut startsAfter lt prev [] spare
    (lfFree { env with sleepers := env.sleepers.map (serve lock l) } l)
  have at' : Placed lock (spareId spare) (l :: tl) env.sleepers _ _ :=
    Placed.covers isHit lrng ins within tailRanged
      fun m mem ownM => le_of_lt (startsAfter m mem ownM)
  have inTurn : env'.sleepers = (env.sleepers.map (serve lock l)).map (serveAll lock tl) := served
  rw [← inTurn] at at'
  refine ⟨_, spare, env', ?_, at'⟩
  rw [lfSetLoop, lfFindoverlap_found isHit isCase]
  simp only [takeList_eq ins within]
  rw [loop, append_assoc]
  rfl

theorem Sets.follows (isCase : ovcaseOf l lock = some .overlapStartsBefore)
    (old : l.lfStart < lock.lfStart) (within : l.last ≤ lock.last) :
    Sets lock spare (fuel + 1) prev (l :: tl) env := by
  have ends := off_ends ranged lrng
  obtain ⟨env', loop, served⟩ := lfSetLoop_linked lrng tailRanged tailSorted tailUncut
    startsAfter lt (prev ++ [{ l with lfEnd := lock.lfStart - 1, lfBlkhd := [] }]) [] spare
    (lfWakelock env l).1
  have at' : Placed lock (spareId spare) (l :: tl) env.sleepers _ _ :=
    Placed.follows isHit ranged lrng old within tailRanged
      fun m mem ownM => le_of_lt (startsAfter m mem ownM)
  have inTurn : env'.sleepers = (wake l.lfBlkhd env.sleepers).map (serveAll lock tl) := served
  rw [← inTurn] at at'
  refine ⟨_, spare, env', ?_, at'⟩
  rw [lfSetLoop, lfFindoverlap_found isHit isCase]
  simp only [lfWakelock, ends.1 old] at loop ⊢
  rw [loop, append_assoc, append_assoc]
  rfl

end Turns

/-- The setting loop links the new lock once, at its place. -/
theorem lfSetLoop_placed (lrng : lock.Ranged) {spare : Option Lockf}
    (restRanged : ∀ l ∈ tl, l.Ranged) (sort : OwnSorted tl) (fits : SetFits lock tl)
    (suff : EnoughFor spare lock tl) {fuel : Nat} (fueled : tl.length < fuel)
    (prev : List Lockf) (env : Env φ) : Sets lock spare fuel prev tl env := by
  induction tl generalizing fuel prev env with
  | nil =>
    obtain ⟨fuel, rfl⟩ : ∃ less, fuel = less + 1 := ⟨fuel - 1, by simp at fueled; omega⟩
    exact .behind (by simp [lfFindoverlap]) (by simp) (by simp [AllBehind])
  | cons l tl ih =>
    obtain ⟨fuel, rfl⟩ : ∃ less, fuel = less + 1 := ⟨fuel - 1, by simp at fueled; omega⟩
    obtain ⟨ranged, tailRanged⟩ := forall_mem_cons.mp restRanged
    have tailSorted : OwnSorted tl := (pairwise_cons.mp sort).2
    have order := ranged.ordered
    have lt : tl.length < fuel := by simp only [length_cons] at fueled; omega
    rcases search_cases ranged lrng with ⟨skip, hm⟩ | ⟨own, later, hm⟩ | isHit
    · exact Sets.skip (ih tailRanged tailSorted (forall_mem_cons.mp fits).2
        (fun hn m mem => suff hn m (mem_cons_of_mem l mem)) (by omega) (prev ++ [l]) env)
        ranged lrng skip hm
    · have tail : AllBehind lock (l :: tl) := by
        intro m mem ownM
        rcases mem_cons.mp mem with rfl | mem
        · exact later
        · exact AllBehind.of_sorted sort own (by unfold Precedes at later; omega) m mem
            ownM
      exact .behind (lfFindoverlap_stop ranged lrng own later ..)
        (tail.not_hit lrng restRanged) tail
    · obtain ⟨own, leftHit, rightHit⟩ := (hit_iff ranged lrng).mp isHit
      -- the own locks that follow start behind this one
      have startsAfter : ∀ m ∈ tl, m.lfId = lock.lfId → lock.lfStart < m.lfStart := by
        intro m mem ownM
        have next := (pairwise_cons.mp sort).1 m mem (by rw [own, ownM])
        unfold Precedes at next
        omega
      have tailUncut : ∀ m ∈ tl, ¬ Cuts lock m := by
        intro m mem cut
        have begins := startsAfter m mem cut.1
        have fit := (fits m (mem_cons_of_mem l mem) cut).1
        omega
      rcases ovcaseOf_cases ranged lrng leftHit rightHit with
        ⟨isCase, eqS, eqEnd⟩ | ⟨isCase, contains, notEnd, path, differ⟩ |
        ⟨isCase, inside, within⟩ | ⟨isCase, old, within⟩ | ⟨isCase, later, notEnd, past⟩
      · exact .retypes isHit isCase own eqS eqEnd
      · exact .divides ranged lrng isHit own tailRanged sort fits suff isCase contains
          notEnd path differ
      · exact .covers lrng isHit tailRanged tailSorted tailUncut startsAfter lt
          isCase inside within
      · exact .follows ranged lrng isHit tailRanged tailSorted tailUncut startsAfter lt
          isCase old within
      · exact .cutsStart ranged lrng isHit own tailRanged sort fits isCase later notEnd past

end NetBSD.Kern.VfsLockf
