import Mathlib.Algebra.Order.Ring.Nat
import Mathlib.Tactic.Common
import NetBSD.Machine.Trace

/-!
Owns the keys of the connection table of `sys/net/npf`: `npf_conn_conkey`,
`connkey_set_addr` and `connkey_set_id` of `npf_conn.c` and the comparison of
`npf_conndb.c`. A key is its first `NPF_CONN_KEYLEN` bytes, as 32-bit words; what
stands behind them in `ck_key` is never read.
-/

namespace NetBSD.Net.Npf.Conn

open Function

abbrev NpfAddr := Fin 4 → BitVec 32

/-- `npc_alen`, as `npf_cache_ip` sets it. -/
inductive Alen where
  | inAddr
  | in6Addr
deriving DecidableEq, Repr

def Alen.bytes : Alen → Nat
  | .inAddr => 4
  | .in6Addr => 16

/-- `NPF_SRC` and `NPF_DST`. -/
inductive End where
  | src
  | dst
deriving DecidableEq, Repr

def End.index : End → Nat
  | .src => 0
  | .dst => 1

/-- What the layer 4 header gives a key. ICMP has an identifier only where `NPC_ICMP_ID` is set. -/
inductive Layer4 where
  | tcp (sport dport : BitVec 16)
  | udp (sport dport : BitVec 16)
  | icmp (icmpId : Option (BitVec 16))
  | icmp6 (icmp6Id : Option (BitVec 16))
  | unsupported
deriving DecidableEq, Repr

/-- The part of `npf_cache_t` that `npf_conn_conkey` reads. -/
structure NpfCache where
  npc_alen : Alen
  npc_l4 : Layer4
  npc_ips : End → NpfAddr

def connGetalen (words : List (BitVec 32)) : Nat :=
  (words.headD 0 &&& 0xffff).toNat

def connKeylen (words : List (BitVec 32)) : Nat :=
  8 + 2 * connGetalen words

/-- `npf_connkey_t`, without the tree node around it. -/
structure Connkey where
  words : List (BitVec 32)
  family : connGetalen words = 4 ∨ connGetalen words = 16
  sized : 4 * words.length = connKeylen words
deriving DecidableEq

/-- The protocol number and the two identifiers, source first, or the failure of the switch. -/
def Layer4.ids : Layer4 → Option (BitVec 32 × (End → BitVec 16))
  | .tcp sport dport => some (6, fun | .src => sport | .dst => dport)
  | .udp sport dport => some (17, fun | .src => sport | .dst => dport)
  | .icmp (some icmpId) => some (1, fun _ => icmpId)
  | .icmp none => none
  | .icmp6 (some icmp6Id) => some (58, fun _ => icmp6Id)
  | .icmp6 none => none
  | .unsupported => none

def conkeyWords (npc : NpfCache) (forw : Bool) (proto : BitVec 32) (ids : End → BitVec 16) :
    List (BitVec 32) :=
  let isrc := if forw then End.src else .dst
  let idst := if forw then End.dst else .src
  let alen := npc.npc_alen.bytes
  (proto <<< 16 ||| (BitVec.ofNat 32 alen &&& 0xffff)) ::
  (((ids isrc).setWidth 32 <<< 16) ||| (ids idst).setWidth 32) :: if alen = 4 then
      [npc.npc_ips isrc 0, npc.npc_ips idst 0]
    else
      (List.ofFn (npc.npc_ips isrc)).take (alen / 4) ++
        (List.ofFn (npc.npc_ips idst)).take (alen / 4)

variable {ids : End → BitVec 16} {proto : BitVec 32} {npc : NpfCache}

/-- The first word holds the address length beside the four protocols that have keys. -/
theorem connGetalen_conkeyWords {forw : Bool} (hasIds : npc.npc_l4.ids = some (proto, ids)) :
    connGetalen (conkeyWords npc forw proto ids) = npc.npc_alen.bytes := by
  have known : proto = 6 ∨ proto = 17 ∨ proto = 1 ∨ proto = 58 := by
    revert hasIds
    cases npc.npc_l4 with
    | tcp | udp => simp +contextual [Layer4.ids, eq_comm]
    | icmp icmpId => cases icmpId <;> simp +contextual [Layer4.ids, eq_comm]
    | icmp6 icmp6Id => cases icmp6Id <;> simp +contextual [Layer4.ids, eq_comm]
    | unsupported => simp [Layer4.ids]
  simp only [connGetalen, conkeyWords, List.headD_cons]
  rcases known with rfl | rfl | rfl | rfl <;> cases npc.npc_alen <;> decide

theorem length_conkeyWords (npc : NpfCache) (forw : Bool) (proto : BitVec 32)
    (ids : End → BitVec 16) :
    4 * (conkeyWords npc forw proto ids).length = 8 + 2 * npc.npc_alen.bytes := by
  cases found : npc.npc_alen <;> simp [conkeyWords, found, Alen.bytes]

theorem family_conkeyWords (forw : Bool) (hasIds : npc.npc_l4.ids = some (proto, ids)) :
    connGetalen (conkeyWords npc forw proto ids) = 4 ∨
      connGetalen (conkeyWords npc forw proto ids) = 16 := by
  rw [connGetalen_conkeyWords hasIds]
  cases npc.npc_alen <;> simp [Alen.bytes]

theorem sized_conkeyWords (forw : Bool) (hasIds : npc.npc_l4.ids = some (proto, ids)) :
    4 * (conkeyWords npc forw proto ids).length = connKeylen (conkeyWords npc forw proto ids) := by
  rw [length_conkeyWords, connKeylen, connGetalen_conkeyWords hasIds]

/-- `npf_conn_conkey`. The source and destination are swapped for the backwards stream. -/
def npfConnConkey (npc : NpfCache) (forw : Bool) : Option Connkey :=
  match hasIds : npc.npc_l4.ids with
  | none => none
  | some (proto, ids) =>
    some ⟨conkeyWords npc forw proto ids, family_conkeyWords forw hasIds,
      sized_conkeyWords forw hasIds⟩

theorem Connkey.length_pos (key : Connkey) : 0 < key.words.length := by
  have sized := key.sized
  unfold connKeylen at sized
  omega

def setAddrWords (words : List (BitVec 32)) (naddr : NpfAddr) (di : End) : List (BitVec 32) :=
  let nwords := connGetalen words / 4
  let offset := 2 + nwords * di.index
  words.take offset ++ (List.ofFn naddr).take nwords ++ words.drop (offset + nwords)

theorem connGetalen_setAddrWords (key : Connkey) (naddr : NpfAddr) (di : End) :
    connGetalen (setAddrWords key.words naddr di) = connGetalen key.words := by
  have nonempty := key.length_pos
  unfold connGetalen
  cases found : key.words with
  | nil => simp [found] at nonempty
  | cons fst tl => simp [setAddrWords, add_comm 2, List.take_succ_cons]

theorem length_setAddrWords (key : Connkey) (naddr : NpfAddr) (di : End) :
    (setAddrWords key.words naddr di).length = key.words.length := by
  have len := key.sized
  unfold connKeylen at len
  have ends : di.index = 0 ∨ di.index = 1 := by cases di <;> simp [End.index]
  rcases key.family with four | sixteen <;> rcases ends with zero | one <;>
    simp [setAddrWords, *] <;> omega

def connkeySetAddr (key : Connkey) (naddr : NpfAddr) (di : End) : Connkey where
  words := setAddrWords key.words naddr di
  family := (connGetalen_setAddrWords key naddr di).symm ▸ key.family
  sized := by
    rw [length_setAddrWords, connKeylen, connGetalen_setAddrWords]
    exact key.sized

def setIdWords (words : List (BitVec 32)) (id : BitVec 16) (di : End) : List (BitVec 32) :=
  let oid := words.getD 1 0
  let shift := if di = .src then 16 else 0
  let mask := (0xffff0000 : BitVec 32) >>> shift
  words.set 1 ((id.setWidth 32 <<< shift) ||| (oid &&& mask))

theorem connGetalen_setIdWords (words : List (BitVec 32)) (id : BitVec 16) (di : End) :
    connGetalen (setIdWords words id di) = connGetalen words := by
  cases words <;> rfl

def connkeySetId (key : Connkey) (id : BitVec 16) (di : End) : Connkey where
  words := setIdWords key.words id di
  family := (connGetalen_setIdWords key.words id di).symm ▸ key.family
  sized := by
    rw [connKeylen, connGetalen_setIdWords, setIdWords, List.length_set]
    exact key.sized

/-- Whether `conndb_rbtree_cmp_nodes` finds no difference: the shorter of the two lengths is
compared. -/
def sameConnkey (ck1 ck2 : Connkey) : Bool :=
  let keylen := min (connKeylen ck1.words) (connKeylen ck2.words)
  ck1.words.take (keylen / 4) = ck2.words.take (keylen / 4)

theorem sameConnkey_iff {ck1 ck2 : Connkey} : sameConnkey ck1 ck2 = true ↔ ck1 = ck2 := by
  constructor
  · intro same
    simp only [sameConnkey, decide_eq_true_eq] at same
    have size1 := ck1.sized
    have size2 := ck2.sized
    have family1 := ck1.family
    have family2 := ck2.family
    have sameHead : ck1.words.headD 0 = ck2.words.headD 0 := by
      unfold connKeylen at size1 size2 same
      have taken := congrArg (List.headD · 0) same
      have pos : 0 < min (8 + 2 * connGetalen ck1.words) (8 + 2 * connGetalen ck2.words) / 4 := by
        omega
      obtain ⟨more, isMore⟩ := Nat.exists_eq_succ_of_ne_zero pos.ne'
      rw [isMore] at taken
      cases words1 : ck1.words <;> cases words2 : ck2.words <;> simp_all
    have sameLen : connKeylen ck1.words = connKeylen ck2.words := by
      unfold connKeylen connGetalen
      rw [sameHead]
    rw [sameLen, min_self, ← size2, Nat.mul_div_cancel_left _ (by omega), List.take_length,
      show ck2.words.length = ck1.words.length by omega, List.take_length] at same
    cases ck1
    cases ck2
    simpa using same
  · rintro rfl
    simp [sameConnkey]

/-!
### The system of threads

The connections of `sys/net/npf/npf_conn.c` and their database,
`npf_conndb.c`, as a system of threads. One step of the system is one operation
that other threads can see: a search, insertion or removal in the database, a
write under `c_lock` or an atomic write to a flag, a counter or a list head. A
thread inside the critical section of a connection is the value of its `c_lock`:
what that thread does next. A failed assertion and a use of a connection that was
destroyed are `none`; a thread that has to wait leaves the state as it is.
-/

/-- The address of a connection. The pool may hand it out again after it was destroyed. -/
abbrev ConnId := Nat

/-- The two entries of a connection: `c_forw_entry` and `c_back_entry`. -/
inductive Dir where
  | forw
  | back
deriving DecidableEq, Repr

/-- A node of the trees, by the connection it is embedded in (`ck_backptr`). -/
structure Entry where
  con : ConnId
  dir : Dir
deriving DecidableEq, Repr

structure Timespec where
  tv_sec : Int
  tv_nsec : Int
deriving DecidableEq, Repr

def timespecsubSec (tsp usp : Timespec) : Int :=
  if tsp.tv_nsec - usp.tv_nsec < 0 then tsp.tv_sec - usp.tv_sec - 1 else tsp.tv_sec - usp.tv_sec

/-- What `npf_nat_gettrans` returns for a translation entry. -/
structure NpfNat where
  taddr : NpfAddr
  tport : BitVec 16

/-- `NPF_NATIN` and `NPF_NATOUT`. -/
inductive Ntype where
  | natin
  | natout
deriving DecidableEq, Repr

def natTypeDimap : Ntype → End
  | .natout => .dst
  | .natin => .src

/-- What the thread that holds `c_lock` does next. `error` is the error of `npf_conn_establish`. -/
inductive Section where
  | establishForw
  | establishBack
  | establishUndo
  | establishErr
  | enqueueRead (error : Bool)
  | enqueueCas (error : Bool) (head : Option ConnId)
  | establishExit (error : Bool)
  | setnatRemove (nt : NpfNat) (tidx : End)
  | setnatInsert (nt : NpfNat)
  | setnatUndo
  | setnatErr
  | gcForw
  | gcBack
  | gcMark

/-- `npf_conn_t`. `c_etime` is what `npf_state_etime` answers for its protocol state. -/
structure NpfConn where
  c_forw_entry : Connkey
  c_back_entry : Connkey
  conn_active : Bool
  conn_expire : Bool
  conn_removed : Bool
  c_next : Option ConnId
  c_nat : Option NpfNat
  c_lock : Option Section
  c_refcnt : Nat
  c_atime : Timespec
  c_etime : Int

def NpfConn.entry (con : NpfConn) : Dir → Connkey
  | .forw => con.c_forw_entry
  | .back => con.c_back_entry

/-- `npf_hashbucket_t`. Only the nodes of the tree matter, not its shape. -/
structure Hashbucket where
  hb_tree : List Entry
  hb_count : Nat
deriving DecidableEq, Repr

/-- The variables of `npf_conn_gc` in the body of its first loop. -/
structure GcFrame where
  flush : Bool
  tsnow : Timespec
  prev : Option ConnId
  con : ConnId
  next : Option ConnId
  gclist : Option ConnId

/-- Where the only thread that may run `npf_conn_gc` is. -/
inductive Gc where
  | idle
  | scan (flush : Bool) (tsnow : Timespec) (prev con gclist : Option ConnId)
  | enter (frame : GcFrame)
  | locked (frame : GcFrame)
  | dequeue (frame : GcFrame)
  | drain (con : Option ConnId)

/-- The database and the connections. `held` counts the references that callers have, and `scanned`
lists what the last `npf_conn_gc` looked at with its verdict; the code stores neither. -/
structure System where
  conns : ConnId → Option NpfConn
  cd_hashtbl : Nat → Hashbucket
  cd_recent : Option ConnId
  cd_list : Option ConnId
  cd_tail : Option ConnId
  gc : Gc
  held : ConnId → Nat
  scanned : List (ConnId × Bool)

def npfConndbCreate : System where
  conns := fun _ => none
  cd_hashtbl := fun _ => ⟨[], 0⟩
  cd_recent := none
  cd_list := none
  cd_tail := none
  gc := .idle
  held := fun _ => 0
  scanned := []

def System.put (system : System) (c : ConnId) (con : NpfConn) : System :=
  { system with conns := update system.conns c (some con) }

def System.keyOf (system : System) (entry : Entry) : Option Connkey :=
  (system.conns entry.con).map fun con => con.entry entry.dir

section Database

-- `murmurhash2` with the seed of the table, on the words of a key.
variable (murmurhash2 : List (BitVec 32) → Nat)

def conndbHashBucket (key : Connkey) : Nat :=
  murmurhash2 key.words % 1024

/-- `rb_tree_find_node` in the bucket of the key. -/
def conndbFind (system : System) (key : Connkey) : Option Entry :=
  (system.cd_hashtbl (conndbHashBucket murmurhash2 key)).hb_tree.find? fun entry =>
    (system.keyOf entry).any (sameConnkey · key)

def npfConndbLookup (system : System) (key : Connkey) : Option ConnId :=
  if (system.cd_hashtbl (conndbHashBucket murmurhash2 key)).hb_count = 0 then none
  else (conndbFind murmurhash2 system key).map (·.con)

def npfConndbInsert (system : System) (key : Connkey) (entry : Entry) : System × Bool :=
  let index := conndbHashBucket murmurhash2 key
  let hb := system.cd_hashtbl index
  match conndbFind murmurhash2 system key with
  | some _ => (system, false)
  | none =>
    ({ system with
        cd_hashtbl := update system.cd_hashtbl index
          ⟨entry :: hb.hb_tree, hb.hb_count + 1⟩ }, true)

def npfConndbRemove (system : System) (key : Connkey) : System × Option ConnId :=
  let index := conndbHashBucket murmurhash2 key
  let hb := system.cd_hashtbl index
  match conndbFind murmurhash2 system key with
  | some foundkey =>
    ({ system with
        cd_hashtbl := update system.cd_hashtbl index
          ⟨hb.hb_tree.erase foundkey, hb.hb_count - 1⟩ }, some foundkey.con)
  | none => (system, none)

/-- `npf_conn_establish` up to the critical section: the pool gave out `c`, and both keys exist. -/
def npfConnEstablish (system : System) (c : ConnId) (npc : NpfCache) (now : Timespec)
    (etime : Int) : System :=
  match system.conns c, npfConnConkey npc true, npfConnConkey npc false with
  | none, some fw, some bk =>
    system.put c {
      c_forw_entry := fw, c_back_entry := bk, conn_active := false, conn_expire := false,
      conn_removed := false, c_next := none, c_nat := none, c_lock := some .establishForw,
      c_refcnt := 1, c_atime := now, c_etime := etime }
  | _, _, _ => system

/-- `npf_conn_setnat` up to the removal of the backwards entry. The caller holds a reference. -/
def npfConnSetnat (system : System) (c : ConnId) (npc : NpfCache) (nt : NpfNat) (ntype : Ntype) :
    Option System :=
  if system.held c = 0 then some system
  else match system.conns c with
  | none => none
  | some con =>
    if con.c_refcnt = 0 then none
    else if (npfConnConkey npc false).isNone then some system
    else match con.c_lock with
    | some _ => some system
    | none =>
      if con.conn_expire then some system
      else if con.conn_removed then none
      else if con.c_nat.isSome then some system
      else some (system.put c { con with c_lock := some (.setnatRemove nt (natTypeDimap ntype)) })

/-- One operation of the thread in the critical section of `npf_conn_establish` or
`npf_conn_setnat` of a connection. -/
def sectionStep (system : System) (c : ConnId) (con : NpfConn) : Section → Option System
  | .establishForw =>
    match npfConndbInsert murmurhash2 system con.c_forw_entry ⟨c, .forw⟩ with
    | (after, true) => some (after.put c { con with c_lock := some .establishBack })
    | (after, false) => some (after.put c { con with c_lock := some .establishErr })
  | .establishBack =>
    match npfConndbInsert murmurhash2 system con.c_back_entry ⟨c, .back⟩ with
    | (after, true) => some (after.put c { con with c_lock := some (.enqueueRead false) })
    | (after, false) => some (after.put c { con with c_lock := some .establishUndo })
  | .establishUndo =>
    match npfConndbRemove murmurhash2 system con.c_forw_entry with
    | (after, ret) =>
      if ret = some c then some (after.put c { con with c_lock := some .establishErr })
      else none
  | .establishErr =>
    some (system.put c { con with
      conn_removed := true, conn_expire := true, c_refcnt := con.c_refcnt - 1
      c_lock := some (.enqueueRead true) })
  -- `npf_conndb_enqueue` reads the head, links to it, and starts again if the head has moved.
  | .enqueueRead error =>
    some (system.put c { con with
      c_next := system.cd_recent, c_lock := some (.enqueueCas error system.cd_recent) })
  | .enqueueCas error head =>
    if system.cd_recent = head then
      some { system.put c { con with c_lock := some (.establishExit error) } with
        cd_recent := some c }
    else some (system.put c { con with c_lock := some (.enqueueRead error) })
  | .establishExit error =>
    some { system.put c { con with c_lock := none } with
      held := if error then system.held
        else update system.held c (system.held c + 1) }
  | .setnatRemove nt tidx =>
    match npfConndbRemove murmurhash2 system con.c_back_entry with
    | (after, ret) =>
      if ret = some c then
        let bk := connkeySetAddr con.c_back_entry nt.taddr tidx
        some (after.put c { con with
          c_back_entry := if nt.tport = 0 then bk else connkeySetId bk nt.tport tidx
          c_lock := some (.setnatInsert nt) })
      else none
  | .setnatInsert nt =>
    match npfConndbInsert murmurhash2 system con.c_back_entry ⟨c, .back⟩ with
    | (after, true) => some (after.put c { con with c_nat := some nt, c_lock := none })
    | (after, false) => some (after.put c { con with c_lock := some .setnatUndo })
  | .setnatUndo =>
    match npfConndbRemove murmurhash2 system con.c_forw_entry with
    | (after, ret) =>
      if ret = some c then some (after.put c { con with c_lock := some .setnatErr })
      else none
  | .setnatErr =>
    some (system.put c { con with conn_removed := true, conn_expire := true, c_lock := none })
  | .gcForw | .gcBack | .gcMark => some system

def npfConnExpire (system : System) (c : ConnId) : System :=
  match system.conns c with
  | none => system
  | some con => system.put c { con with conn_expire := true }

/-- The end of a reference that a caller holds. -/
def dropReference (system : System) (c : ConnId) (con : NpfConn) : Option System :=
  if con.c_refcnt = 0 then none
  else some { system.put c { con with c_refcnt := con.c_refcnt - 1 } with
    held := update system.held c (system.held c - 1) }

def npfConnRelease (system : System) (c : ConnId) : Option System :=
  if system.held c = 0 then some system
  else match system.conns c with
  | none => none
  | some con =>
    if con.conn_active || con.conn_expire then dropReference system c con
    else dropReference system c { con with conn_active := true }

/-- The part of `npf_conn_lookup` under the lock of the bucket: a reference is acquired. -/
def npfConnAcquire (system : System) (key : Connkey) : Option System :=
  match npfConndbLookup murmurhash2 system key with
  | none => some system
  | some c => match system.conns c with
    | none => none
    | some con => some { system.put c { con with c_refcnt := con.c_refcnt + 1 } with
        held := update system.held c (system.held c + 1) }

/-- The rest of `npf_conn_lookup` where the connection does not match: the reference is dropped. -/
def npfConnMismatch (system : System) (c : ConnId) : Option System :=
  if system.held c = 0 then some system
  else match system.conns c with
  | none => none
  | some con => dropReference system c con

/-- The activity of a connection in use: `npf_conn_lookup` and `npf_state_inspect` change its time
stamp and its protocol state. -/
def npfConnInspect (system : System) (c : ConnId) (now : Timespec) (etime : Int) : Option System :=
  if system.held c = 0 then some system
  else match system.conns c with
  | none => none
  | some con => some (system.put c { con with c_atime := now, c_etime := etime })

def npfConnExpired (con : NpfConn) (tsnow : Timespec) : Bool :=
  con.conn_expire || decide (timespecsubSec tsnow con.c_atime > con.c_etime)

def npfConndbGetlist (system : System) : Option (System × Option ConnId) :=
  let con := system.cd_recent
  match system.cd_tail with
  | none =>
    if system.cd_list ≠ none then none
    else some ({ system with cd_recent := none, cd_list := con }, con)
  | some prev => match system.conns prev with
    | none => none
    | some last =>
      if last.c_next ≠ none then none
      else some ({ system.put prev { last with c_next := con } with cd_recent := none },
        system.cd_list)

def npfConndbDequeue (system : System) (c : ConnId) (con : NpfConn) (prev : Option ConnId) :
    Option System :=
  match prev with
  | none => if system.cd_list ≠ some c then none else some { system with cd_list := con.c_next }
  | some p => match system.conns p with
    | none => none
    | some before => some (system.put p { before with c_next := con.c_next })

def npfConndbSettail (system : System) (con : Option ConnId) : Option System :=
  match con with
  | none => if system.cd_list ≠ none then none else some { system with cd_tail := none }
  | some c => match system.conns c with
    | none => none
    | some last => if last.c_next ≠ none then none else some { system with cd_tail := some c }

def gcSectionStep (system : System) (frame : GcFrame) (con : NpfConn) : Section → Option System
  | .gcForw =>
    match npfConndbRemove murmurhash2 system con.c_forw_entry with
    | (after, ret) =>
      if ret = some frame.con then
        some (after.put frame.con { con with c_lock := some .gcBack })
      else none
  | .gcBack =>
    match npfConndbRemove murmurhash2 system con.c_back_entry with
    | (after, ret) =>
      if ret = some frame.con then
        some (after.put frame.con { con with c_lock := some .gcMark })
      else none
  | .gcMark =>
    some { system.put frame.con { con with
      conn_removed := true, conn_expire := true, c_lock := none } with gc := .dequeue frame }
  | _ => none

/-- One operation of the thread that runs `npf_conn_gc`. -/
def gcStep (system : System) : Option System :=
  match system.gc with
  | .idle => some system
  | .scan flush tsnow prev (some c) gclist => match system.conns c with
    | none => none
    | some con =>
      let expired := npfConnExpired con tsnow || flush
      let noted := { system with scanned := system.scanned ++ [(c, expired)] }
      if expired then
        some { noted with gc := .enter ⟨flush, tsnow, prev, c, con.c_next, gclist⟩ }
      else some { noted with gc := .scan flush tsnow (some c) con.c_next gclist }
  | .scan _ _ prev none gclist =>
    (npfConndbSettail system prev).map fun after => { after with gc := .drain gclist }
  | .enter frame => match system.conns frame.con with
    | none => none
    | some con => match con.c_lock with
      | some _ => some system
      | none =>
        let first := if con.conn_removed then Section.gcMark else .gcForw
        some { system.put frame.con { con with c_lock := some first } with gc := .locked frame }
  | .locked frame => match system.conns frame.con with
    | none => none
    | some con => con.c_lock.bind (gcSectionStep murmurhash2 system frame con)
  | .dequeue frame => match system.conns frame.con with
    | none => none
    | some con =>
      match npfConndbDequeue system frame.con con frame.prev with
      | none => none
      | some after =>
        some { after.put frame.con { con with c_next := frame.gclist } with
          gc := .scan frame.flush frame.tsnow frame.prev frame.next (some frame.con) }
  | .drain none => some { system with gc := .idle }
  | .drain (some c) => match system.conns c with
    | none => none
    | some con =>
      if con.c_refcnt ≠ 0 then some system
      -- `npf_conn_destroy`
      else some { system with
        conns := update system.conns c none, gc := .drain con.c_next }

def npfConnGc (system : System) (flush : Bool) (tsnow : Timespec) : Option System :=
  match system.gc with
  | .idle => (npfConndbGetlist system).map fun (after, con) =>
    { after with gc := .scan flush tsnow none con none, scanned := [] }
  | _ => some system

inductive Event where
  | establish (c : ConnId) (npc : NpfCache) (now : Timespec) (etime : Int)
  | setnat (c : ConnId) (npc : NpfCache) (nt : NpfNat) (ntype : Ntype)
  | resume (c : ConnId)
  | expire (c : ConnId)
  | release (c : ConnId)
  | acquire (key : Connkey)
  | mismatch (c : ConnId)
  | inspect (c : ConnId) (now : Timespec) (etime : Int)
  | gcCall (flush : Bool) (tsnow : Timespec)
  | gcResume

def step (system : System) : Event → Option System
  | .establish c npc now etime => some (npfConnEstablish system c npc now etime)
  | .setnat c npc nt ntype => npfConnSetnat system c npc nt ntype
  | .resume c => match system.conns c with
    | none => some system
    | some con => match con.c_lock with
      | none => some system
      | some stage => sectionStep murmurhash2 system c con stage
  | .expire c => some (npfConnExpire system c)
  | .release c => npfConnRelease system c
  | .acquire key => npfConnAcquire murmurhash2 system key
  | .mismatch c => npfConnMismatch system c
  | .inspect c now etime => npfConnInspect system c now etime
  | .gcCall flush tsnow => npfConnGc system flush tsnow
  | .gcResume => gcStep murmurhash2 system

end Database

end NetBSD.Net.Npf.Conn
