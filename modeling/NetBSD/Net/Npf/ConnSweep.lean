import NetBSD.Net.Npf.ConnList

/-!
Owns what each operation of `npf_conn_gc` does to the lists of connections: the
verdict on the next connection, the way in and out of its critical section, the
move to the private list, and at the end the new tail and the destruction of what
was moved.
-/

namespace NetBSD.Net.Npf.Conn

open NetBSD.Machine Function List Option

variable {sys : System} {onList onRecent onGc : List ConnId} {c : ConnId} {con s' : NpfConn}
  {flush : Bool} {tsnow : Timespec} {prev gclist : Option ConnId} {fr : GcFrame}

section

variable (lists : Lists sys onList onRecent onGc)

include lists

theorem Lists.inGc_eq_false
    (notLocked : ∀ fr, sys.gc ≠ .locked fr) (fnd : sys.conns c = some con) :
    con.inGc = false := by
  by_contra inGc
  obtain ⟨fr, isLocked, _⟩ := lists.locked c con fnd (by simpa using inGc)
  exact notLocked fr isLocked

theorem Lists.move (notLocked : ∀ fr, sys.gc ≠ .locked fr) {gc : Gc} {tail : Option ConnId}
    {scanned : List (ConnId × Bool)}
    (place : GcPlace { sys with gc := gc, cd_tail := tail, scanned := scanned } onList onGc) :
    Lists { sys with gc := gc, cd_tail := tail, scanned := scanned } onList onRecent onGc where
  __ := lists
  locked := fun c con fnd inGc => by
    rw [lists.inGc_eq_false notLocked fnd] at inGc
    simp at inGc
  place := place

theorem Lists.moveWriting (fnd : sys.conns c = some con) (notOnGc : c ∉ onGc)
    (eqNext : s'.c_next = con.c_next) (eqQueue : s'.enqueued = con.enqueued) {gc : Gc}
    (locked : ∀ oth hit', Function.update sys.conns c (some s') oth = some hit' →
      hit'.inGc = true → ∃ fr, gc = .locked fr ∧ fr.con = oth)
    (plc : GcPlace { sys.put c s' with gc := gc } onList onGc) :
    Lists { sys.put c s' with gc := gc } onList onRecent onGc := by
  have next : nextOf (Function.update sys.conns c (some s')) = nextOf sys.conns :=
    nextOf_update_same fnd eqNext
  refine ⟨?_, ?_, lists.nodup, ?_, ?_, locked, plc⟩
  · simpa only [System.put, next] using lists.list
  · simpa only [System.put, next] using lists.recent
  · intro oth
    rw [lists.mem_iff]
    by_cases same : oth = c
    · subst same
      simp [System.put, fnd, eqQueue]
    · simp [System.put, same]
  · intro oth isIn con' isCon
    simp only [System.put, Function.update_of_ne (ne_of_mem_of_not_mem isIn notOnGc)] at isCon
    exact lists.settled oth isIn con' isCon

theorem Lists.scan_at (isGc : sys.gc = .scan flush tsnow prev (some c) gclist) :
    ∃ con tl, sys.conns c = some con ∧ onList = kept sys.scanned ++ c :: tl ∧
      prev = (kept sys.scanned).getLast? ∧ con.c_next = tl.head? ∧
      Chain (nextOf sys.conns) gclist onGc none := by
  have plc := lists.place
  simp only [GcPlace, isGc] at plc
  obtain ⟨tl, lst, isPrev, hd, chn⟩ := plc
  cases tl with
  | nil => simp at hd
  | cons fst tl =>
    obtain rfl : c = fst := by simpa using hd
    obtain ⟨con, fnd, _⟩ := lists.live (c := c) (by simp [lst])
    have next := (lst ▸ lists.list).next_eq
    simp only [nextOf, fnd] at next
    exact ⟨con, tl, fnd, lst, isPrev, next, chn⟩

theorem Lists.keep
    (isGc : sys.gc = .scan flush tsnow prev (some c) gclist) (fnd : sys.conns c = some con) :
    Lists { sys with
      scanned := sys.scanned ++ [(c, false)]
      gc := .scan flush tsnow (some c) con.c_next gclist } onList onRecent onGc := by
  obtain ⟨con', tl, hit', lst, isPrev, next', chn⟩ := lists.scan_at isGc
  obtain rfl : con' = con := some.inj (hit'.symm.trans fnd)
  apply lists.move (by simp [isGc])
  exact ⟨tl, by simp [lst], by simp, next', chn⟩

theorem Lists.condemn
    (isGc : sys.gc = .scan flush tsnow prev (some c) gclist) (fnd : sys.conns c = some con) :
    Lists { sys with
      scanned := sys.scanned ++ [(c, true)]
      gc := .enter ⟨flush, tsnow, prev, c, con.c_next, gclist⟩ } onList onRecent onGc := by
  obtain ⟨con', tl, hit', lst, isPrev, next', chn⟩ := lists.scan_at isGc
  obtain rfl : con' = con := some.inj (hit'.symm.trans fnd)
  apply lists.move (by simp [isGc])
  exact ⟨tl, by simpa using lst, by simpa using isPrev, next', chn⟩

theorem Lists.settail (isGc : sys.gc = .scan flush tsnow prev none gclist) :
    npfConndbSettail sys prev = some { sys with cd_tail := prev } ∧
      Lists { sys with cd_tail := prev, gc := .drain gclist } onList onRecent onGc := by
  have plc := lists.place
  simp only [GcPlace, isGc] at plc
  obtain ⟨tl, lst, isPrev, hd, chn⟩ := plc
  obtain rfl : tl = [] := head?_eq_none_iff.mp hd.symm
  simp only [append_nil] at lst
  rw [← lst] at isPrev
  constructor
  · cases prev with
    | none =>
      have empty : sys.cd_list = none := by
        have := lists.list
        rwa [getLast?_eq_none_iff.mp isPrev.symm] at this
      simp [npfConndbSettail, empty]
    | some last =>
      obtain ⟨con, fnd, _⟩ := lists.live (c := last) (by
        simp [mem_of_getLast? isPrev.symm])
      have ends := lists.list.next_getLast isPrev.symm
      simp only [nextOf, fnd, bind_some] at ends
      simp [npfConndbSettail, fnd, ends]
  · apply lists.move (by simp [isGc])
    exact ⟨chn, isPrev, lst⟩

end

theorem InBody.live (body : InBody sys onList onGc fr)
    (lists : Lists sys onList onRecent onGc) :
    ∃ con, sys.conns fr.con = some con ∧ con.enqueued = true ∧ fr.con ∉ onGc := by
  obtain ⟨tl, lst, _⟩ := body
  obtain ⟨con, fnd, enqueued⟩ := lists.live (c := fr.con) (by simp [lst])
  have nodup := lists.nodup
  grind

theorem InBody.congr {oth : System} (body : InBody sys onList onGc fr)
    (sameScanned : oth.scanned = sys.scanned)
    (eqNext : nextOf oth.conns = nextOf sys.conns) : InBody oth onList onGc fr := by
  unfold InBody at body ⊢
  rwa [sameScanned, eqNext]

section

variable (lists : Lists sys onList onRecent onGc)

include lists

theorem Lists.enterGc (isGc : sys.gc = .enter fr)
    (fnd : sys.conns fr.con = some con) (eqNext : s'.c_next = con.c_next)
    (eqQueue : s'.enqueued = con.enqueued) (inGc : s'.inGc = true) :
    Lists { sys.put fr.con s' with gc := .locked fr } onList onRecent onGc := by
  have body : InBody sys onList onGc fr := by
    have plc := lists.place
    simpa only [GcPlace, isGc] using plc
  obtain ⟨_, _, _, notOnGc⟩ := body.live lists
  apply lists.moveWriting fnd notOnGc eqNext eqQueue
  · intro oth hit' hit othersGc
    by_cases same : oth = fr.con
    · exact ⟨fr, rfl, same.symm⟩
    · rw [Function.update_of_ne same] at hit
      rw [lists.inGc_eq_false (by simp [isGc]) hit] at othersGc
      simp at othersGc
  · refine ⟨body.congr rfl (nextOf_update_same fnd eqNext), ?_⟩
    intro con' isCon
    simp only [System.put, update_self, some.injEq] at isCon
    rwa [← isCon]

theorem Lists.leaveGc (isGc : sys.gc = .locked fr) (fnd : sys.conns fr.con = some con)
    (eqNext : s'.c_next = con.c_next) (eqQueue : s'.enqueued = con.enqueued)
    (notGc : s'.inGc = false) (done : s'.settled = true) :
    Lists { sys.put fr.con s' with gc := .dequeue fr } onList onRecent onGc := by
  have body : InBody sys onList onGc fr := by
    have plc := lists.place
    simp only [GcPlace, isGc] at plc
    exact plc.1
  obtain ⟨_, _, _, notOnGc⟩ := body.live lists
  apply lists.moveWriting fnd notOnGc eqNext eqQueue
  · intro oth hit' hit othersGc
    by_cases same : oth = fr.con
    · subst same
      rw [update_self] at hit
      obtain rfl := some.inj hit
      simp [notGc] at othersGc
    · rw [Function.update_of_ne same] at hit
      obtain ⟨frame', isLocked, isCon⟩ := lists.locked oth hit' hit othersGc
      rw [isGc] at isLocked
      obtain rfl := Gc.locked.inj isLocked
      exact (same isCon.symm).elim
  · refine ⟨body.congr rfl (nextOf_update_same fnd eqNext), ?_⟩
    intro con' isCon
    simp only [System.put, update_self, some.injEq] at isCon
    rwa [← isCon]

/-- A settled connection moved from the list to the private list of the collector, given that the
links were written so. -/
theorem Lists.transfer (isGc : sys.gc = .dequeue fr) (body : InBody sys onList onGc fr)
    (fnd : sys.conns fr.con = some con) (done : con.settled = true)
    {tl : List ConnId} (lst : onList = kept sys.scanned ++ fr.con :: tl)
    (next' : fr.next = tl.head?) {conns : ConnId → Option NpfConn} {list : Option ConnId}
    (rel : Relinked sys.conns conns)
    (relisted : Chain (nextOf conns) list (kept sys.scanned ++ tl) none)
    (untouched : ∀ c ∈ onRecent ++ onGc, nextOf conns c = nextOf sys.conns c)
    (link : nextOf conns fr.con = fr.gclist) :
    Lists { sys with
      conns := conns, cd_list := list
      gc := .scan fr.flush fr.tsnow fr.prev fr.next (some fr.con) }
      (kept sys.scanned ++ tl) onRecent (fr.con :: onGc) := by
  obtain ⟨_, _, isPrev, _, chn⟩ := body
  have chain : Chain (nextOf conns) (some fr.con) (fr.con :: onGc) none :=
    ⟨rfl, link ▸ chn.congr (fun c isIn => untouched c (by simp [isIn]))⟩
  have nodup := lists.nodup
  rw [lst] at nodup
  refine ⟨relisted, lists.recent.congr (fun c isIn => untouched c (by simp [isIn])), ?_, ?_, ?_, ?_,
    tl, rfl, isPrev, next', chain⟩
  · grind
  · intro c
    have bef := lists.mem_iff c
    have sameMem : c ∈ kept sys.scanned ++ tl ++ onRecent ++ fr.con :: onGc ↔
        c ∈ onList ++ onRecent ++ onGc := by
      rw [lst]
      simp only [mem_append, mem_cons]
      grind
    rw [sameMem, bef]
    constructor
    · rintro ⟨con', hit', enqueued⟩
      obtain ⟨next, foundNext, _⟩ := rel.some c con' hit'
      exact ⟨_, foundNext, enqueued⟩
    · rintro ⟨con', hit', enqueued⟩
      obtain ⟨con'', found'', same, _⟩ := rel.back hit'
      exact ⟨con'', found'', by rw [same] at enqueued; exact enqueued⟩
  · intro c isIn con' hit'
    obtain ⟨con'', found'', same, _⟩ := rel.back hit'
    rw [same]
    rcases mem_cons.mp isIn with rfl | isIn
    · obtain rfl := some.inj (found''.symm.trans fnd)
      exact done
    · exact lists.settled c isIn con'' found''
  · intro c con' hit' inGc
    obtain ⟨con'', found'', same, _⟩ := rel.back hit'
    rw [same] at inGc
    have notGc := lists.inGc_eq_false (by simp [isGc]) found''
    exact absurd (show con''.inGc = true from inGc) (by simp [notGc])

/-- A settled connection moves to the collector's list. -/
theorem Lists.dequeue (isGc : sys.gc = .dequeue fr) :
    ∃ con mid tl, sys.conns fr.con = some con ∧ con.settled = true ∧
      npfConndbDequeue sys fr.con con fr.prev = some mid ∧
      mid.cd_hashtbl = sys.cd_hashtbl ∧ mid.held = sys.held ∧
      Relinked sys.conns
        (Function.update mid.conns fr.con (some { con with c_next := fr.gclist })) ∧
      Lists { mid.put fr.con { con with c_next := fr.gclist } with
        gc := .scan fr.flush fr.tsnow fr.prev fr.next (some fr.con) }
        (kept sys.scanned ++ tl) onRecent (fr.con :: onGc) := by
  obtain ⟨body, isSettled⟩ : InBody sys onList onGc fr ∧
      ∀ con, sys.conns fr.con = some con → con.settled = true := by
    have plc := lists.place
    simpa only [GcPlace, isGc] using plc
  obtain ⟨con, fnd, enqueued, notOnGc⟩ := body.live lists
  have done := isSettled con fnd
  obtain ⟨tl, lst, isPrev, next', chn⟩ := id body
  have isLink : con.c_next = nextOf sys.conns fr.con := by simp [nextOf, fnd]
  have nodup := lists.nodup
  rw [lst] at nodup
  rcases eq_nil_or_concat (kept sys.scanned) with isNil | ⟨pre, p, isConcat⟩
  · -- the head of the list is taken off
    rw [isNil] at isPrev nodup
    have onHead : Chain (nextOf sys.conns) sys.cd_list (fr.con :: tl) none := by
      have := lists.list
      rwa [lst, isNil] at this
    have notRest : fr.con ∉ tl := by grind
    have ans : npfConndbDequeue sys fr.con con fr.prev =
        some { sys with cd_list := con.c_next } := by
      simp [npfConndbDequeue, isPrev, onHead.1]
    refine ⟨con, _, tl, fnd, done, ans, rfl, rfl, .update fnd enqueued _, ?_⟩
    apply lists.transfer isGc body fnd done lst next' (.update fnd enqueued _)
    · rw [isNil, nextOf_update, isLink]
      exact onHead.2.update_of_notMem notRest
    · intro c isIn
      exact nextOf_update_of_ne (by rintro rfl; grind) _
    · simp [nextOf]
  -- the connection before it is linked to the one behind it
  rw [concat_eq_append] at isConcat
  rw [isConcat] at isPrev nodup
  have onMiddle : Chain (nextOf sys.conns) sys.cd_list
      (pre ++ [p] ++ fr.con :: tl) none := by
    have := lists.list
    rwa [lst, isConcat] at this
  obtain ⟨bef, hbef, beforeEnqueued⟩ := lists.live (c := p) (by simp [lst, isConcat])
  have apart : fr.con ≠ p := by grind
  have ans : npfConndbDequeue sys fr.con con fr.prev =
      some (sys.put p { bef with c_next := con.c_next }) := by
    simp [npfConndbDequeue, isPrev, hbef]
  have stillFound : Function.update sys.conns p
      (some { bef with c_next := con.c_next }) fr.con = some con := by
    rw [Function.update_of_ne apart, fnd]
  have rel := (Relinked.update hbef beforeEnqueued con.c_next).trans
    (.update stillFound enqueued fr.gclist)
  refine ⟨con, _, tl, fnd, done, ans, rfl, rfl, rel, ?_⟩
  apply lists.transfer isGc body fnd done lst next' rel
  · have unl := onMiddle.unlink (nodup.sublist (by simp))
    rw [isConcat, nextOf_update, nextOf_update, isLink]
    exact unl.update_of_notMem (by grind)
  · intro c isIn
    rw [nextOf_update_of_ne (by rintro rfl; grind), nextOf_update_of_ne (by rintro rfl; grind)]
  · simp [nextOf]

/-- The collector frees the head of its list. -/
theorem Lists.destroy (isGc : sys.gc = .drain (some c)) :
    ∃ con tl, sys.conns c = some con ∧ con.settled = true ∧ onGc = c :: tl ∧
      Lists { sys with conns := Function.update sys.conns c none, gc := .drain con.c_next }
        onList onRecent tl := by
  obtain ⟨chn, isTail, isKept⟩ : Chain (nextOf sys.conns) (some c) onGc none ∧
      sys.cd_tail = onList.getLast? ∧ onList = kept sys.scanned := by
    have plc := lists.place
    simpa only [GcPlace, isGc] using plc
  cases onGc with
  | nil => simp at chn
  | cons fst tl =>
    obtain rfl : c = fst := by simpa using chn.1
    obtain ⟨con, fnd, enqueued⟩ := lists.live (c := c) (by simp)
    have nodup := lists.nodup
    have apart : ∀ oth, oth ∈ onList ++ onRecent ++ tl → oth ≠ c := by
      grind
    have next : ∀ oth ∈ onList ++ onRecent ++ tl,
        nextOf (Function.update sys.conns c none) oth = nextOf sys.conns oth :=
      fun oth isIn => nextOf_update_of_ne (apart oth isIn) _
    have isLink : nextOf sys.conns c = con.c_next := by simp [nextOf, fnd]
    refine ⟨con, tl, fnd, lists.settled c (by simp) con fnd, rfl, ?_⟩
    refine ⟨lists.list.congr (fun oth isIn => next oth (by simp [isIn])),
      lists.recent.congr (fun oth isIn => next oth (by simp [isIn])), ?_, ?_, ?_, ?_, ?_⟩
    · exact nodup.sublist (by simp)
    · intro oth
      by_cases same : oth = c
      · subst same
        simp only [update_self, reduceCtorEq, false_and, exists_false, iff_false]
        exact fun isIn => apart oth isIn rfl
      · have bef := lists.mem_iff oth
        simp only [mem_append, mem_cons, same, false_or] at bef
        simpa only [mem_append, Function.update_of_ne same] using bef
    · intro oth isIn con' hit'
      simp only [Function.update_of_ne (apart oth (by simp [isIn]))] at hit'
      exact lists.settled oth (by simp [isIn]) con' hit'
    · intro oth con' hit' inGc
      have isSame : oth ≠ c := by
        rintro rfl
        simp at hit'
      simp only [Function.update_of_ne isSame] at hit'
      rw [lists.inGc_eq_false (by simp [isGc]) hit'] at inGc
      simp at inGc
    · refine ⟨?_, isTail, isKept⟩
      exact (isLink ▸ chn.2).congr (fun oth isIn => next oth (by simp [isIn]))

theorem Lists.finish (isGc : sys.gc = .drain none) :
    Lists { sys with gc := .idle } onList onRecent onGc := by
  obtain ⟨chn, isTail, isKept⟩ : Chain (nextOf sys.conns) none onGc none ∧
      sys.cd_tail = onList.getLast? ∧ onList = kept sys.scanned := by
    have plc := lists.place
    simpa only [GcPlace, isGc] using plc
  apply lists.move (by simp [isGc])
  refine ⟨?_, isTail, isKept⟩
  cases onGc with
  | nil => rfl
  | cons fst tl => simp at chn

end

end NetBSD.Net.Npf.Conn
