import NetBSD.Machine.Buckets
import NetBSD.Net.Npf.Conn
import NetBSD.Machine.Chain

/-!
Owns who has which entry in the connection database. The stage of the critical
section of a connection and its `CONN_REMOVED` flag fix which of its two entries
are in the trees; the database represents exactly these, so an insertion fails
only on a key that another entry has, and a removal returns the connection whose
entry it was asked for.
-/

namespace NetBSD.Net.Npf.Conn

open NetBSD.Machine Function List Option

/-- Whether an entry of a connection is in the database. -/
def NpfConn.inDatabase (con : NpfConn) (dir : Dir) : Bool :=
  match con.c_lock with
  | none | some (.enqueueRead _) | some (.enqueueCas _ _) | some (.establishExit _) =>
    !con.conn_removed
  | some .establishForw | some .establishErr | some .setnatErr | some .gcMark => false
  | some .establishBack | some .establishUndo | some (.setnatInsert _) | some .setnatUndo =>
    dir == .forw
  | some (.setnatRemove _ _) | some .gcForw => true
  | some .gcBack => dir == .back

/-- The key of an entry of a connection while that entry is in the database. -/
def NpfConn.owns (con : NpfConn) (dir : Dir) : Option Connkey :=
  if con.inDatabase dir then some (con.entry dir) else none

def ownedKey (conns : ConnId → Option NpfConn) (entry : Entry) : Option Connkey :=
  (conns entry.con).bind fun con => con.owns entry.dir

variable {con : NpfConn} {dir : Dir}

theorem NpfConn.entry_of_owns {key : Connkey} (has : con.owns dir = some key) :
    con.entry dir = key := by
  simp only [NpfConn.owns, ite_none_right_eq_some, some.injEq] at has
  exact has.2

theorem keyOf_of_ownedKey {sys : System} {e : Entry} {key : Connkey}
    (has : ownedKey sys.conns e = some key) : sys.keyOf e = some key := by
  obtain ⟨con, fnd, owns⟩ := bind_eq_some_iff.mp has
  simp [System.keyOf, fnd, NpfConn.entry_of_owns owns]

variable {conns : ConnId → Option NpfConn} {c : ConnId}

theorem ownedKey_eq (fnd : conns c = some con) (dir : Dir) :
    ownedKey conns ⟨c, dir⟩ = con.owns dir := by
  simp [ownedKey, fnd]

variable {s' : NpfConn}

theorem ownedKey_update_same (fnd : conns c = some con)
    (same : ∀ dir, s'.owns dir = con.owns dir) :
    ownedKey (Function.update conns c (some s')) = ownedKey conns := by
  funext e
  by_cases isCon : e.con = c
  · subst isCon
    simp [ownedKey, fnd, same]
  · simp [ownedKey, isCon]

/-- A connection written back with one of its entries moved in or out of the database. -/
theorem ownedKey_update_one (fnd : conns c = some con)
    (same : ∀ oth, oth ≠ dir → s'.owns oth = con.owns oth) :
    ownedKey (Function.update conns c (some s')) =
      Function.update (ownedKey conns) ⟨c, dir⟩ (s'.owns dir) := by
  funext ⟨oth, otherDir⟩
  by_cases isCon : oth = c
  · subst isCon
    by_cases isDir : otherDir = dir
    · subst isDir
      simp [ownedKey]
    · simp [ownedKey, fnd, isDir, same otherDir isDir]
  · simp [ownedKey, isCon]

theorem ownedKey_update_fresh (old new : Option NpfConn) (fnd : conns c = old)
    (oldNone : ∀ con, old = some con → ∀ dir, con.owns dir = none)
    (newNone : ∀ con, new = some con → ∀ dir, con.owns dir = none) :
    ownedKey (Function.update conns c new) = ownedKey conns := by
  funext e
  by_cases isCon : e.con = c
  · subst isCon
    cases old <;> cases new <;> simp_all [ownedKey]
  · simp [ownedKey, isCon]

section Table

variable (murmurhash2 : List (BitVec 32) → Nat)

/-- The database holds exactly the entries that the connections own. -/
structure Stored (conns : ConnId → Option NpfConn) (cd_hashtbl : Nat → Hashbucket) : Prop where
  represents : Represents (conndbHashBucket murmurhash2) (fun index => (cd_hashtbl index).hb_tree)
    (ownedKey conns)
  counted : ∀ index, (cd_hashtbl index).hb_count = (cd_hashtbl index).hb_tree.length

variable {murmurhash2} {sys : System} {key : Connkey}

theorem conndbFind_eq (sys : System) (key : Connkey) : conndbFind murmurhash2 sys key =
      (sys.cd_hashtbl (conndbHashBucket murmurhash2 key)).hb_tree.find?
        (fun e => sys.keyOf e = some key) := by
  unfold conndbFind
  congr 1
  funext e
  cases sys.keyOf e with
  | none => simp
  | some fnd =>
    rw [Bool.eq_iff_iff]
    simp [sameConnkey_iff]

section

variable (stored : Stored murmurhash2 sys.conns sys.cd_hashtbl)

include stored

theorem Stored.find_eq_some_iff {e : Entry} :
    conndbFind murmurhash2 sys key = some e ↔ ownedKey sys.conns e = some key := by
  rw [conndbFind_eq]
  exact stored.represents.find?_eq_some_iff (fun _ _ => keyOf_of_ownedKey)

theorem Stored.find_eq_none_iff :
    conndbFind murmurhash2 sys key = none ↔ ∀ e, ownedKey sys.conns e ≠ some key := by
  rw [conndbFind_eq]
  exact stored.represents.find?_eq_none_iff (fun _ _ => keyOf_of_ownedKey)

theorem Stored.lookup_eq_some (fnd : npfConndbLookup murmurhash2 sys key = some c) :
    ∃ con, sys.conns c = some con := by
  unfold npfConndbLookup at fnd
  split at fnd
  · simp at fnd
  · obtain ⟨e, ent, rfl⟩ := map_eq_some_iff.mp fnd
    obtain ⟨con, isCon, _⟩ := bind_eq_some_iff.mp (stored.find_eq_some_iff.mp ent)
    exact ⟨con, isCon⟩

def inserted (murmurhash2 : List (BitVec 32) → Nat) (system : System) (key : Connkey)
    (entry : Entry) : Nat → Hashbucket :=
  let index := conndbHashBucket murmurhash2 key
  Function.update system.cd_hashtbl index
    ⟨entry :: (system.cd_hashtbl index).hb_tree, (system.cd_hashtbl index).hb_count + 1⟩

def removed (murmurhash2 : List (BitVec 32) → Nat) (system : System) (key : Connkey)
    (entry : Entry) : Nat → Hashbucket :=
  let index := conndbHashBucket murmurhash2 key
  Function.update system.cd_hashtbl index
    ⟨(system.cd_hashtbl index).hb_tree.erase entry, (system.cd_hashtbl index).hb_count - 1⟩

/-- An insertion either meets a duplicate or stores an entry of a key that nobody has. -/
theorem npfConndbInsert_cases (key : Connkey) (e : Entry) :
    npfConndbInsert murmurhash2 sys key e = (sys, false) ∨
    ((∀ oth, ownedKey sys.conns oth ≠ some key) ∧
      npfConndbInsert murmurhash2 sys key e =
        ({ sys with cd_hashtbl := inserted murmurhash2 sys key e }, true)) := by
  cases found : conndbFind murmurhash2 sys key with
  | some oth =>
    simp [npfConndbInsert, found]
  | none =>
    right
    exact ⟨stored.find_eq_none_iff.mp found, by simp [npfConndbInsert, found, inserted]⟩

theorem npfConndbRemove_eq {e : Entry} (has : ownedKey sys.conns e = some key) :
    npfConndbRemove murmurhash2 sys key =
      ({ sys with cd_hashtbl := removed murmurhash2 sys key e }, some e.con) := by
  simp [npfConndbRemove, stored.find_eq_some_iff.mpr has, removed]

theorem Stored.insert (fnd : sys.conns c = some con) (miss : con.owns dir = none)
    (unowned : ∀ oth, ownedKey sys.conns oth ≠ some key)
    (here : s'.owns dir = some key)
    (same : ∀ oth, oth ≠ dir → s'.owns oth = con.owns oth) :
    Stored murmurhash2 (Function.update sys.conns c (some s'))
      (inserted murmurhash2 sys key ⟨c, dir⟩) := by
  constructor
  · rw [ownedKey_update_one fnd same, here]
    have wrote := stored.represents.insert (by rwa [ownedKey_eq fnd]) unowned
    convert wrote using 1
    funext index
    by_cases idx : index = conndbHashBucket murmurhash2 key
    · subst idx
      simp [inserted]
    · simp [inserted, idx]
  · intro index
    by_cases idx : index = conndbHashBucket murmurhash2 key
    · subst idx
      simp [inserted, stored.counted]
    · simpa [inserted, idx] using stored.counted index

theorem Stored.remove (fnd : sys.conns c = some con) (here : con.owns dir = some key)
    (miss : s'.owns dir = none)
    (same : ∀ oth, oth ≠ dir → s'.owns oth = con.owns oth) :
    Stored murmurhash2 (Function.update sys.conns c (some s'))
      (removed murmurhash2 sys key ⟨c, dir⟩) := by
  have has : ownedKey sys.conns ⟨c, dir⟩ = some key := by rwa [ownedKey_eq fnd]
  constructor
  · rw [ownedKey_update_one fnd same, miss]
    have wrote := stored.represents.erase has
    convert wrote using 1
    funext index
    by_cases idx : index = conndbHashBucket murmurhash2 key
    · subst idx
      simp [removed]
    · simp [removed, idx]
  · intro index
    by_cases idx : index = conndbHashBucket murmurhash2 key
    · subst idx
      have isIn := stored.represents.mem has
      simp [removed, stored.counted, length_erase_of_mem isIn]
    · simpa [removed, idx] using stored.counted index

theorem Stored.update_same (fnd : sys.conns c = some con)
    (same : ∀ dir, s'.owns dir = con.owns dir) :
    Stored murmurhash2 (Function.update sys.conns c (some s')) sys.cd_hashtbl := by
  refine ⟨?_, stored.counted⟩
  rw [ownedKey_update_same fnd same]
  exact stored.represents

end

end Table

/-!
### The three lists

The three lists of connections: `cd_list` with its tail, the stack
`cd_recent`, and the private list of `npf_conn_gc`. Every connection that its
creator has enqueued is on exactly one of them, and while the collector walks
`cd_list` the part before it is what it has looked at and kept.
-/

def nextOf (conns : ConnId → Option NpfConn) (c : ConnId) : Option ConnId :=
  (conns c).bind (·.c_next)

/-- Whether `npf_conndb_enqueue` is done for a connection. -/
def NpfConn.enqueued (con : NpfConn) : Bool :=
  match con.c_lock with
  | some .establishForw | some .establishBack | some .establishUndo | some .establishErr
  | some (.enqueueRead _) | some (.enqueueCas _ _) => false
  | _ => true

/-- Whether the collector is in the critical section of a connection. -/
def NpfConn.inGc (con : NpfConn) : Bool :=
  match con.c_lock with
  | some .gcForw | some .gcBack | some .gcMark => true
  | _ => false

/-- Whether the entries of a connection are removed for good. -/
def NpfConn.settled (con : NpfConn) : Bool :=
  con.conn_removed && con.c_lock.isNone

/-- The connections that the collector has looked at and not found expired. -/
def kept (scanned : List (ConnId × Bool)) : List ConnId :=
  (scanned.filter fun verdict => !verdict.2).map Prod.fst

@[simp]
theorem kept_snoc_expired (scan : List (ConnId × Bool)) (c : ConnId) :
    kept (scan ++ [(c, true)]) = kept scan := by
  simp [kept]

@[simp]
theorem kept_snoc_alive (scan : List (ConnId × Bool)) (c : ConnId) :
    kept (scan ++ [(c, false)]) = kept scan ++ [c] := by
  simp [kept]

/-- The collector is in the body of its first loop. -/
def InBody (system : System) (onList onGc : List ConnId) (frame : GcFrame) : Prop :=
  ∃ rest, onList = kept system.scanned ++ frame.con :: rest ∧
    frame.prev = (kept system.scanned).getLast? ∧ frame.next = rest.head? ∧
    Chain (nextOf system.conns) frame.gclist onGc none

/-- What holds of the lists wherever the collector is. -/
def GcPlace (system : System) (onList onGc : List ConnId) : Prop :=
  match system.gc with
  | .idle => onGc = [] ∧ system.cd_tail = onList.getLast? ∧ onList = kept system.scanned
  | .scan _ _ prev con gclist =>
    ∃ rest, onList = kept system.scanned ++ rest ∧ prev = (kept system.scanned).getLast? ∧
      con = rest.head? ∧ Chain (nextOf system.conns) gclist onGc none
  | .enter frame => InBody system onList onGc frame
  | .locked frame => InBody system onList onGc frame ∧
      ∀ con, system.conns frame.con = some con → con.inGc = true
  | .dequeue frame => InBody system onList onGc frame ∧
      ∀ con, system.conns frame.con = some con → con.settled = true
  | .drain con => Chain (nextOf system.conns) con onGc none ∧
      system.cd_tail = onList.getLast? ∧ onList = kept system.scanned

structure Lists (system : System) (onList onRecent onGc : List ConnId) : Prop where
  list : Chain (nextOf system.conns) system.cd_list onList none
  recent : Chain (nextOf system.conns) system.cd_recent onRecent none
  nodup : (onList ++ onRecent ++ onGc).Nodup
  mem_iff : ∀ c, c ∈ onList ++ onRecent ++ onGc ↔
    ∃ con, system.conns c = some con ∧ con.enqueued = true
  settled : ∀ c ∈ onGc, ∀ con, system.conns c = some con → con.settled = true
  locked : ∀ c con, system.conns c = some con → con.inGc = true →
    ∃ frame, system.gc = .locked frame ∧ frame.con = c
  place : GcPlace system onList onGc

theorem nextOf_update (conns : ConnId → Option NpfConn) (c : ConnId) (s' : NpfConn) :
    nextOf (Function.update conns c (some s')) =
      Function.update (nextOf conns) c s'.c_next := by
  funext oth
  by_cases same : oth = c
  · subst same
    simp [nextOf]
  · simp [nextOf, same]

theorem nextOf_update_of_ne {oth : ConnId} (apart : oth ≠ c) (new : Option NpfConn) :
    nextOf (Function.update conns c new) oth = nextOf conns oth := by
  simp [nextOf, apart]

theorem nextOf_update_same (fnd : conns c = some con) (same : s'.c_next = con.c_next) :
    nextOf (Function.update conns c (some s')) = nextOf conns := by
  rw [nextOf_update, same, show con.c_next = nextOf conns c by simp [nextOf, fnd]]
  exact update_eq_self c (nextOf conns)

/-- Only links of enqueued connections differ. -/
structure Relinked (conns conns' : ConnId → Option NpfConn) : Prop where
  some : ∀ c con, conns c = some con → ∃ next, conns' c = some { con with c_next := next } ∧
    (con.enqueued = false → next = con.c_next)
  none : ∀ c, conns c = none → conns' c = none

theorem Relinked.refl (conns : ConnId → Option NpfConn) : Relinked conns conns :=
  ⟨fun _ con fnd => ⟨con.c_next, fnd, fun _ => rfl⟩, fun _ unused => unused⟩

theorem Relinked.trans {fst snd third : ConnId → Option NpfConn}
    (prev : Relinked fst snd) (later : Relinked snd third) : Relinked fst third := by
  constructor
  · intro c con fnd
    obtain ⟨next, foundNext, same⟩ := prev.some c con fnd
    obtain ⟨next', foundNext', same'⟩ := later.some c _ foundNext
    exact ⟨next', foundNext', fun fresh => (same' fresh).trans (same fresh)⟩
  · intro c unused
    exact later.none c (prev.none c unused)

theorem Relinked.update (fnd : conns c = Option.some con) (enqueued : con.enqueued = true)
    (next : Option ConnId) :
    Relinked conns (Function.update conns c (Option.some { con with c_next := next })) := by
  constructor
  · intro oth con' hit'
    by_cases same : oth = c
    · subst same
      obtain rfl := some.inj (hit'.symm.trans fnd)
      exact ⟨next, by simp, fun fresh => by simp [enqueued] at fresh⟩
    · exact ⟨con'.c_next, by simpa [same] using hit', fun _ => rfl⟩
  · intro oth unused
    have apart : oth ≠ c := by
      rintro rfl
      simp [fnd] at unused
    simpa [apart] using unused

/-- A connection after the links were written was there before, with the same stage and flags. -/
theorem Relinked.back {conns' : ConnId → Option NpfConn} (rel : Relinked conns conns')
    (fnd : conns' c = Option.some con) :
    ∃ prev, conns c = Option.some prev ∧ con = { prev with c_next := con.c_next } ∧
      (prev.enqueued = false → con.c_next = prev.c_next) := by
  cases isBefore : conns c with
  | none => simp [rel.none c isBefore] at fnd
  | some prev =>
    obtain ⟨next, foundNext, same⟩ := rel.some c prev isBefore
    obtain rfl := some.inj (foundNext.symm.trans fnd)
    exact ⟨prev, rfl, rfl, same⟩

section Frame

variable {sys : System} {onList onRecent onGc : List ConnId} {c : ConnId} {con s' : NpfConn}

theorem Lists.live (lists : Lists sys onList onRecent onGc)
    (isIn : c ∈ onList ++ onRecent ++ onGc) :
    ∃ con, sys.conns c = some con ∧ con.enqueued = true :=
  (lists.mem_iff c).mp isIn

theorem Lists.notMem (lists : Lists sys onList onRecent onGc) (fnd : sys.conns c = some con)
    (fresh : con.enqueued = false) : c ∉ onList ++ onRecent ++ onGc := by
  intro isIn
  obtain ⟨other, oth, enqueued⟩ := lists.live isIn
  rw [fnd] at oth
  obtain rfl := some.inj oth
  simp [fresh] at enqueued

theorem GcPlace.congr {oth : System} (plc : GcPlace sys onList onGc)
    (sameGc : oth.gc = sys.gc) (sameScanned : oth.scanned = sys.scanned)
    (sameTail : oth.cd_tail = sys.cd_tail)
    (eqNext : ∀ c ∈ onGc, nextOf oth.conns c = nextOf sys.conns c)
    (sameInGc : ∀ fr, sys.gc = .locked fr → ∀ con, oth.conns fr.con = some con →
      ∃ bef, sys.conns fr.con = some bef ∧ (bef.inGc = true → con.inGc = true))
    (sameSettled : ∀ fr, sys.gc = .dequeue fr → ∀ con, oth.conns fr.con = some con →
      ∃ bef, sys.conns fr.con = some bef ∧
        (bef.settled = true → con.settled = true)) :
    GcPlace oth onList onGc := by
  unfold GcPlace at plc ⊢
  rw [sameGc]
  have body : ∀ fr, InBody sys onList onGc fr → InBody oth onList onGc fr := by
    rintro fr ⟨tl, lst, isPrev, next', chn⟩
    exact ⟨tl, by rwa [sameScanned], by rwa [sameScanned], next', chn.congr eqNext⟩
  cases isGc : sys.gc with
  | idle =>
    simp only [isGc, sameScanned, sameTail] at plc ⊢
    exact plc
  | scan flush tsnow prev con gclist =>
    simp only [isGc, sameScanned] at plc ⊢
    obtain ⟨tl, lst, isPrev, isCon, chn⟩ := plc
    exact ⟨tl, lst, isPrev, isCon, chn.congr eqNext⟩
  | enter fr =>
    simp only [isGc] at plc ⊢
    exact body fr plc
  | locked fr =>
    simp only [isGc] at plc ⊢
    refine ⟨body fr plc.1, fun con isCon => ?_⟩
    obtain ⟨bef, hbef, more⟩ := sameInGc fr isGc con isCon
    exact more (plc.2 bef hbef)
  | dequeue fr =>
    simp only [isGc] at plc ⊢
    refine ⟨body fr plc.1, fun con isCon => ?_⟩
    obtain ⟨bef, hbef, more⟩ := sameSettled fr isGc con isCon
    exact more (plc.2 bef hbef)
  | drain con =>
    simp only [isGc, sameScanned, sameTail] at plc ⊢
    exact ⟨plc.1.congr eqNext, plc.2⟩

/-- A connection written back on the same list. Its link may change only while it is on none. -/
theorem Lists.update (lists : Lists sys onList onRecent onGc)
    (fnd : sys.conns c = some con)
    (eqNext : con.enqueued = true → s'.c_next = con.c_next)
    (eqQueue : s'.enqueued = con.enqueued) (sameInGc : s'.inGc = con.inGc)
    (staysSettled : con.settled = true → s'.settled = true) (table : Nat → Hashbucket)
    (held : ConnId → Nat) : Lists { sys with
      conns := Function.update sys.conns c (some s'), cd_hashtbl := table, held := held }
      onList onRecent onGc := by
  have next : ∀ oth ∈ onList ++ onRecent ++ onGc,
      nextOf (Function.update sys.conns c (some s')) oth = nextOf sys.conns oth := by
    intro oth isIn
    cases isEnqueued : con.enqueued with
    | true => rw [nextOf_update_same fnd (eqNext isEnqueued)]
    | false =>
      rw [nextOf_update]
      exact update_of_ne (ne_of_mem_of_not_mem isIn (lists.notMem fnd isEnqueued)) _ _
  have cases_at : ∀ oth hit', Function.update sys.conns c (some s') oth = some hit' →
      ∃ prev, sys.conns oth = some prev ∧ hit'.enqueued = prev.enqueued ∧
        hit'.inGc = prev.inGc ∧ (prev.settled = true → hit'.settled = true) := by
    intro oth hit' hit
    by_cases same : oth = c
    · subst same
      rw [update_self] at hit
      obtain rfl := some.inj hit
      exact ⟨con, fnd, eqQueue, sameInGc, staysSettled⟩
    · rw [update_of_ne same] at hit
      exact ⟨hit', hit, rfl, rfl, id⟩
  refine ⟨lists.list.congr (fun oth isIn => next oth (by simp [isIn])),
    lists.recent.congr (fun oth isIn => next oth (by simp [isIn])), lists.nodup, ?_, ?_, ?_, ?_⟩
  · intro oth
    rw [lists.mem_iff]
    by_cases same : oth = c
    · subst same
      simp [fnd, eqQueue]
    · simp [same]
  · intro oth isIn con' isCon
    obtain ⟨prev, hbef, _, _, more⟩ := cases_at oth con' isCon
    exact more (lists.settled oth isIn prev hbef)
  · intro oth con' isCon inGc
    obtain ⟨prev, hbef, _, same, _⟩ := cases_at oth con' isCon
    exact lists.locked oth prev hbef (same ▸ inGc)
  · refine lists.place.congr rfl rfl rfl (fun oth isIn => next oth (by simp [isIn])) ?_ ?_
    · intro fr _ con' isCon
      obtain ⟨prev, hbef, _, same, _⟩ := cases_at fr.con con' isCon
      exact ⟨prev, hbef, fun inGc => same ▸ inGc⟩
    · intro fr _ con' isCon
      obtain ⟨prev, hbef, _, _, more⟩ := cases_at fr.con con' isCon
      exact ⟨prev, hbef, more⟩

/-- A new connection is on no list yet. -/
theorem Lists.create (lists : Lists sys onList onRecent onGc) (unused : sys.conns c = none)
    (fresh : s'.enqueued = false) (notGc : s'.inGc = false) :
    Lists (sys.put c s') onList onRecent onGc := by
  have apart : ∀ oth ∈ onList ++ onRecent ++ onGc, oth ≠ c := by
    rintro oth isIn rfl
    obtain ⟨con, isCon, _⟩ := lists.live isIn
    simp [unused] at isCon
  have next : ∀ oth ∈ onList ++ onRecent ++ onGc,
      nextOf (Function.update sys.conns c (some s')) oth = nextOf sys.conns oth := by
    intro oth isIn
    rw [nextOf_update]
    exact update_of_ne (apart oth isIn) _ _
  refine ⟨lists.list.congr (fun oth isIn => next oth (by simp [isIn])),
    lists.recent.congr (fun oth isIn => next oth (by simp [isIn])), lists.nodup, ?_, ?_, ?_, ?_⟩
  · intro oth
    rw [lists.mem_iff]
    by_cases same : oth = c
    · subst same
      simp [System.put, unused, fresh]
    · simp [System.put, same]
  · intro oth isIn con isCon
    simp only [System.put, update_of_ne (apart oth (by simp [isIn]))] at isCon
    exact lists.settled oth isIn con isCon
  · intro oth con isCon inGc
    by_cases same : oth = c
    · subst same
      simp only [System.put, update_self, some.injEq] at isCon
      simp [← isCon, notGc] at inGc
    · simp only [System.put, update_of_ne same] at isCon
      exact lists.locked oth con isCon inGc
  · have inBody : ∀ fr, InBody sys onList onGc fr → fr.con ≠ c := by
      rintro fr ⟨tl, lst, _⟩
      exact apart fr.con (by simp [lst])
    have plc := lists.place
    unfold GcPlace at plc
    refine lists.place.congr rfl rfl rfl (fun oth isIn => next oth (by simp [isIn])) ?_ ?_
    · intro fr isGc con isCon
      simp only [isGc] at plc
      simp only [System.put, update_of_ne (inBody fr plc.1)] at isCon
      exact ⟨con, isCon, id⟩
    · intro fr isGc con isCon
      simp only [isGc] at plc
      simp only [System.put, update_of_ne (inBody fr plc.1)] at isCon
      exact ⟨con, isCon, id⟩

end Frame

section Move

variable {sys : System} {onList onRecent onGc : List ConnId} {c : ConnId} {con s' : NpfConn}

/-- A connection enters the list of recent ones. -/
theorem Lists.enqueue (lists : Lists sys onList onRecent onGc)
    (fnd : sys.conns c = some con) (fresh : con.enqueued = false)
    (linked : s'.c_next = sys.cd_recent) (enqueued : s'.enqueued = true)
    (notGc : s'.inGc = false) :
    Lists { sys.put c s' with cd_recent := some c } onList (c :: onRecent) onGc := by
  have notMem := lists.notMem fnd fresh
  simp only [mem_append, not_or] at notMem
  have next : ∀ oth, oth ≠ c →
      nextOf (Function.update sys.conns c (some s')) oth = nextOf sys.conns oth :=
    fun oth apart => nextOf_update_of_ne apart _
  have els : ∀ cells : List ConnId, c ∉ cells → ∀ oth ∈ cells,
      nextOf (Function.update sys.conns c (some s')) oth = nextOf sys.conns oth :=
    fun cells apart oth isIn => next oth (ne_of_mem_of_not_mem isIn apart)
  refine ⟨lists.list.congr (els _ notMem.1.1), ?_, ?_, ?_, ?_, ?_, ?_⟩
  · refine ⟨rfl, ?_⟩
    have link : nextOf (Function.update sys.conns c (some s')) c = sys.cd_recent := by
      simp [nextOf, linked]
    simp only [System.put, link]
    exact lists.recent.congr (els _ notMem.1.2)
  · have nodup := lists.nodup
    grind
  · intro oth
    have prev := lists.mem_iff oth
    by_cases same : oth = c
    · subst same
      simp [System.put, enqueued]
    · simp only [mem_append, mem_cons, same, false_or, System.put,
        update_of_ne same] at prev ⊢
      exact prev
  · intro oth isIn con' isCon
    have apart : oth ≠ c := ne_of_mem_of_not_mem isIn notMem.2
    simp only [System.put, update_of_ne apart] at isCon
    exact lists.settled oth isIn con' isCon
  · intro oth con' isCon inGc
    by_cases same : oth = c
    · subst same
      simp only [System.put, update_self, some.injEq] at isCon
      simp [← isCon, notGc] at inGc
    · simp only [System.put, update_of_ne same] at isCon
      exact lists.locked oth con' isCon inGc
  · have inBody : ∀ fr, InBody sys onList onGc fr → fr.con ≠ c := by
      rintro fr ⟨tl, lst, _⟩ rfl
      simp [lst] at notMem
    have plc := lists.place
    unfold GcPlace at plc
    refine lists.place.congr rfl rfl rfl (els _ notMem.2) ?_ ?_
    · intro fr isGc con' isCon
      simp only [isGc] at plc
      simp only [System.put, update_of_ne (inBody fr plc.1)] at isCon
      exact ⟨con', isCon, id⟩
    · intro fr isGc con' isCon
      simp only [isGc] at plc
      simp only [System.put, update_of_ne (inBody fr plc.1)] at isCon
      exact ⟨con', isCon, id⟩

/-- The collector takes the recent connections over. -/
theorem Lists.getlist (lists : Lists sys onList onRecent onGc) (idle : sys.gc = .idle)
    (flush : Bool) (tsnow : Timespec) : ∃ s' con, npfConndbGetlist sys = some (s', con) ∧
      s'.cd_hashtbl = sys.cd_hashtbl ∧ s'.held = sys.held ∧
      Relinked sys.conns s'.conns ∧
      Lists { s' with gc := .scan flush tsnow none con none, scanned := [] }
        (onList ++ onRecent) [] [] := by
  obtain ⟨rfl, isTail, isKept⟩ : onGc = [] ∧ sys.cd_tail = onList.getLast? ∧
      onList = kept sys.scanned := by
    have plc := lists.place
    unfold GcPlace at plc
    simpa only [idle] using plc
  have notLocked : ∀ c con, sys.conns c = some con → con.inGc = true → False := by
    intro c con isCon inGc
    obtain ⟨fr, isLocked, _⟩ := lists.locked c con isCon inGc
    simp [idle] at isLocked
  rcases eq_nil_or_concat onList with rfl | ⟨pre, prev, rfl⟩
  · -- the list was empty, so the stack becomes the list
    have empty : sys.cd_list = none := lists.list
    have ans : npfConndbGetlist sys =
        some ({ sys with cd_recent := none, cd_list := sys.cd_recent }, sys.cd_recent) := by
      simp [npfConndbGetlist, isTail, empty]
    refine ⟨_, _, ans, rfl, rfl, .refl _, ?_⟩
    refine ⟨lists.recent, rfl, by simpa using lists.nodup, by simpa using lists.mem_iff,
      by simp, fun c con isCon inGc => (notLocked c con isCon inGc).elim, ?_⟩
    exact ⟨onRecent, by simp [kept], by simp [kept], lists.recent.head_eq, rfl⟩
  simp only [concat_eq_append] at lists isTail ⊢
  obtain ⟨last, lst, enqueued⟩ := lists.live (c := prev) (by simp)
  have ends : last.c_next = none := by
    have isTailCell : (pre ++ [prev]).getLast? = some prev := by simp
    have := lists.list.next_getLast isTailCell
    simpa [nextOf, lst] using this
  have nodup := lists.nodup
  have spliced := lists.list.splice lists.recent (by grind) (by grind)
  rw [← nextOf_update sys.conns prev { last with c_next := sys.cd_recent }] at spliced
  have ans : npfConndbGetlist sys =
      some ({ sys.put prev { last with c_next := sys.cd_recent } with cd_recent := none },
        sys.cd_list) := by
    simp [npfConndbGetlist, isTail, lst, ends]
  refine ⟨_, _, ans, rfl, rfl, .update lst enqueued _, ?_⟩
  refine ⟨spliced, rfl, by simpa using nodup, ?_, by simp, ?_, ?_⟩
  · intro c
    have bef := lists.mem_iff c
    simp only [append_nil] at bef ⊢
    rw [bef]
    by_cases same : c = prev
    · subst same
      simp [System.put, lst, NpfConn.enqueued]
    · simp [System.put, same]
  · intro c con isCon inGc
    by_cases same : c = prev
    · subst same
      simp only [System.put, update_self, some.injEq] at isCon
      subst isCon
      exact (notLocked c last lst inGc).elim
    · simp only [System.put, update_of_ne same] at isCon
      exact (notLocked c con isCon inGc).elim
  · exact ⟨pre ++ [prev] ++ onRecent, by simp [kept], by simp [kept], spliced.head_eq, rfl⟩

end Move

end NetBSD.Net.Npf.Conn
