import Mathlib.Data.BitVec
import Mathlib.Logic.Function.Basic

/-!
Owns the IPv4 reassembly of `sys/netinet/ip_reass.c`: the hash table of reassembly
queues with its counters, `ip_reass_packet`, `ip_reass_slowtimo` and
`ip_reass_drain`. The payload of a fragment is a list of bytes and stands for the
mbuf chain behind the header. Statistics are left out.
-/

namespace NetBSD.Netinet.Reass

/-- What a reassembly queue is found by. -/
structure Key where
  ip_src : UInt32
  ip_dst : UInt32
  ip_id : UInt16
  ip_p : UInt8
deriving DecidableEq, Repr

/-- A fragment as `ip_input` hands it over: the header is complete and `ip_len` is the length of the
packet. `offset` is the fragment offset in units of 8 bytes. -/
structure Fragment where
  key : Key
  ip_tos : UInt8
  ip_hl : Nat
  offset : Nat
  mf : Bool
  data : List UInt8
  hlInside : 5 ≤ ip_hl ∧ ip_hl ≤ 15
  offsetInside : offset < 8192
  lenInside : 4 * ip_hl + data.length < 65536

theorem hl_five : 5 ≤ 5 ∧ 5 ≤ 15 := by decide

/-- A fragment of zeroes, at most 1023, behind a header without options. -/
def zeroes (key : Key) (offset : Nat) (mf : Bool) (len : Nat) : Fragment :=
  ⟨key, 0, 5, offset % 8192, mf, List.replicate (len % 1024) 0, hl_five,
    Nat.mod_lt _ (by decide), by
      have := Nat.mod_lt len (show 1024 > 0 by decide)
      rw [List.length_replicate]
      omega⟩

/-- `ipfr_qent_t`, with the fields of the header it points to. -/
structure Entry where
  ip_off : UInt16
  ip_len : UInt16
  ip_hl : Nat
  ipqe_mff : Bool
  ipqe_m : List UInt8
deriving DecidableEq, Repr

structure Queue where
  key : Key
  ipq_fragq : List Entry
  ipq_ttl : Nat
  ipq_nfrags : UInt16
  ipq_tos : UInt8
deriving DecidableEq, Repr

structure State where
  ip_frags : Nat → List Queue
  ip_nfragpackets : BitVec 32
  ip_nfrags : BitVec 32
  ip_maxfragpackets : Int
  ip_maxfrags : Int
  dropscanidx : Nat

structure Packet where
  key : Key
  ip_hl : Nat
  ip_len : UInt16
  payload : List UInt8
deriving DecidableEq, Repr

inductive Errno where
  | EINVAL
  | ENOMEM
deriving DecidableEq, Repr

/-- What a call returns: an error, or whether there is a packet. -/
abbrev Reply := Except Errno (Option Packet)

def hashSize : Nat := 64

def ipfragttl : Nat := 60

def ipreassHash (key : Key) : Nat :=
  let x := key.ip_src
  let low : UInt32 := x &&& 0xf
  let high : UInt32 := ((x >>> 8) &&& 0xf) <<< 4
  (((low ||| high) ^^^ key.ip_id.toUInt32) &&& 63).toNat

def replaceQueue (key : Key) (new : Option Queue) : List Queue → List Queue
  | [] => []
  | fp :: rest => if fp.key = key then new.toList ++ rest else fp :: replaceQueue key new rest

/-- The table with one bucket rewritten. -/
def State.setBucket (state : State) (hash : Nat) (bucket : List Queue) : State :=
  { state with ip_frags := Function.update state.ip_frags hash bucket }

/-- The counters after `ip_freef` of a queue. -/
def State.uncount (state : State) (fp : Queue) : State :=
  { state with
    ip_nfrags := state.ip_nfrags - BitVec.ofNat 32 fp.ipq_nfrags.toNat
    ip_nfragpackets := state.ip_nfragpackets - 1#32 }

/-- `m_adj` by a positive count, with the fields that describe the data. -/
def Entry.trim (entry : Entry) (i : Nat) : Entry :=
  { entry with
    ip_off := UInt16.ofNat (entry.ip_off.toNat + i)
    ip_len := UInt16.ofNat (entry.ip_len.toNat - i)
    ipqe_m := entry.ipqe_m.drop i }

/-- The end of an entry, as an `int`. -/
def Entry.stop (entry : Entry) : Nat := entry.ip_off.toNat + entry.ip_len.toNat

/-- The loop over the succeeding segments, which trims or dequeues them: the segments that stay and
how many were dequeued. -/
def overlapLoop (stop : Nat) : List Entry → List Entry × Nat
  | [] => ([], 0)
  | q :: rest =>
    if stop ≤ q.ip_off.toNat then (q :: rest, 0)
    else
      let i := stop - q.ip_off.toNat
      if i < q.ip_len.toNat then (q.trim i :: rest, 0)
      else
        let (kept, dequeued) := overlapLoop stop rest
        (kept, dequeued + 1)

/-- The incoming segment without what the preceding one provides; `none` is `dropfrag`. -/
def trimByPrevious (previous : Option Entry) (entry : Entry) : Option Entry :=
  match previous with
  | none => some entry
  | some p =>
    if p.stop > entry.ip_off.toNat then
      let i := p.stop - entry.ip_off.toNat
      if i ≥ entry.ip_len.toNat then none else some (entry.trim i)
    else some entry

/-- The queue of entries with a new one in its place, and how many were dequeued for it. -/
def place (entries : List Entry) (entry : Entry) : Option (List Entry × Nat) :=
  let before := entries.takeWhile fun q => decide (q.ip_off.toNat ≤ entry.ip_off.toNat)
  let after := entries.dropWhile fun q => decide (q.ip_off.toNat ≤ entry.ip_off.toNat)
  (trimByPrevious before.getLast? entry).map fun trimmed =>
    let (kept, dequeued) := overlapLoop trimmed.stop after
    (before ++ trimmed :: kept, dequeued)

/-- The check for complete reassembly: the length of the entries, where they follow each other
without a gap. -/
def scan : Nat → List Entry → Option Nat
  | next, [] => some next
  | next, q :: rest =>
    if q.ip_off.toNat ≠ next then none else scan (next + q.ip_len.toNat) rest

def Queue.packet (fp : Queue) (first : Entry) (next : Nat) : Packet :=
  ⟨fp.key, first.ip_hl, UInt16.ofNat (4 * first.ip_hl + next), fp.ipq_fragq.flatMap Entry.ipqe_m⟩

/-- The last part of `ip_reass`: the queue is looked at with the new segment in it. `others` is the
bucket as a function of what becomes of the queue. -/
def finish (state : State) (hash : Nat) (others : Option Queue → List Queue) (fp : Queue) :
    State × Option Packet :=
  let waiting := (state.setBucket hash (others (some fp)), none)
  match scan 0 fp.ipq_fragq, fp.ipq_fragq.head?, fp.ipq_fragq.getLast? with
  | some next, some first, some last =>
    if last.ipqe_mff then waiting
    else
      let removed := (state.setBucket hash (others none)).uncount fp
      if next + 4 * first.ip_hl > 65535 then (removed, none)
      else (removed, some (fp.packet first next))
  | _, _, _ => waiting

def ipReassQueue (state : State) (hash : Nat) (fp : Queue)
    (entry : Entry) : State × Option Packet :=
  match place fp.ipq_fragq entry with
  | none => (state, none)
  | some (entries, dequeued) =>
    finish { state with ip_nfrags := state.ip_nfrags + 1#32 - BitVec.ofNat 32 dequeued } hash
      (fun new => replaceQueue fp.key new (state.ip_frags hash))
      { fp with
        ipq_fragq := entries
        ipq_nfrags := fp.ipq_nfrags + 1 - UInt16.ofNat dequeued }

def ipReassNew (state : State) (hash : Nat) (key : Key) (tos : UInt8) (entry : Entry)
    (allocated : Bool) : State × Option Packet :=
  if 0 ≤ state.ip_maxfragpackets ∧ state.ip_maxfragpackets ≤ state.ip_nfragpackets.toInt then
    (state, none)
  else if !allocated then (state, none)
  else
    finish { state with
        ip_nfrags := state.ip_nfrags + 1#32
        ip_nfragpackets := state.ip_nfragpackets + 1#32 } hash
      (fun new => new.toList ++ state.ip_frags hash) ⟨key, [entry], ipfragttl, 1, tos⟩

/-- The checks of `ip_reass_packet` on a fragment alone. -/
def Fragment.acceptable (frag : Fragment) : Bool :=
  let hlen := 4 * frag.ip_hl
  let off := 8 * frag.offset
  let flen := frag.data.length
  !(decide ((if off > 0 then off + hlen else hlen + flen) < 68) ||
    (frag.mf && (decide (flen = 0) || decide (flen % 8 ≠ 0))))

def Fragment.entry (frag : Fragment) : Entry :=
  ⟨UInt16.ofNat (8 * frag.offset), UInt16.ofNat frag.data.length, frag.ip_hl, frag.mf, frag.data⟩

/-- `ip_reass_packet`; the flags are the answers of `pool_cache_get` and of `malloc`. -/
def ipReassPacket (state : State) (frag : Fragment) (gotEntry gotQueue : Bool) : State × Reply :=
  if !frag.acceptable then (state, .error .EINVAL)
  else
    let hash := ipreassHash frag.key
    match (state.ip_frags hash).find? fun fp => decide (fp.key = frag.key) with
    | some fp =>
      if fp.ipq_tos ≠ frag.ip_tos then (state, .error .EINVAL)
      else if !gotEntry then (state, .error .ENOMEM)
      else
        let (after, packet) := ipReassQueue state hash fp frag.entry
        (after, .ok packet)
    | none =>
      if !gotEntry then (state, .error .ENOMEM)
      else
        let (after, packet) := ipReassNew state hash frag.key frag.ip_tos frag.entry gotQueue
        (after, .ok packet)

/-- The queues of the table, bucket by bucket. -/
def State.queues (state : State) : List Queue := (List.range hashSize).flatMap state.ip_frags

def Queue.age (fp : Queue) (ticks : Nat) : Queue :=
  { fp with ipq_ttl := if fp.ipq_ttl ≤ ticks then 0 else fp.ipq_ttl - ticks }

/-- The loop that finds the median in the histogram, from a TTL downwards. -/
def medianLoop (histo : Nat → BitVec 32) (keepfraction : BitVec 32) : Nat → BitVec 32 → Nat
  | 0, _ => 4294967295
  | i + 1, median =>
    let median := median + histo i
    if keepfraction ≤ median then i else medianLoop histo keepfraction i median

def countFrags (queues : List Queue) : BitVec 32 :=
  queues.foldr (fun fp total => BitVec.ofNat 32 fp.ipq_nfrags.toNat + total) 0#32

def ipReassTtlDecr (state : State) (ticks : Nat) : Option (State × Nat) :=
  let aged := fun i => (state.ip_frags i).map fun fp => fp.age ticks
  let expired := (List.range hashSize).flatMap fun i =>
    (aged i).filter fun fp => decide (fp.ipq_ttl = 0)
  let kept := { state with ip_frags := fun i => (aged i).filter fun fp => decide (fp.ipq_ttl ≠ 0) }
  let after := expired.foldl State.uncount kept
  if after.ip_nfrags = countFrags after.queues then
    let histo := fun ttl => countFrags (after.queues.filter fun fp => decide (fp.ipq_ttl = ttl))
    let dropfraction := BitVec.sdiv after.ip_nfrags 2#32
    some (after, medianLoop histo (after.ip_nfrags - dropfraction) (ipfragttl + 1) 0#32)
  else none

def ipReassDrain (state : State) (entered : Bool) : Option State :=
  if entered then do
    let (state, medianTicks) ← ipReassTtlDecr state 0
    let (state, _) ← ipReassTtlDecr state medianTicks
    some state
  else some state

def State.emptyBucket (state : State) (i : Nat) : State :=
  (state.ip_frags i).foldl State.uncount (state.setBucket i [])

/-- The loop of `ip_reass_slowtimo` that drains buckets, with the index it ends at. -/
def drainLoop (dropscanidx : Nat) : Nat → Nat → State → State × Nat
  | 0, i, state => (state, i)
  | fuel + 1, i, state =>
    if state.ip_nfragpackets.toInt > state.ip_maxfragpackets then
      let state := state.emptyBucket i
      let i := if i + 1 ≥ hashSize then 0 else i + 1
      if i = dropscanidx then (state, i) else drainLoop dropscanidx fuel i state
    else (state, i)

/-- The last part of `ip_reass_slowtimo`. -/
def drainOver (state : State) : State :=
  if state.ip_maxfragpackets < 0 then state
  else
    let (after, i) := drainLoop state.dropscanidx hashSize state.dropscanidx state
    { after with dropscanidx := i }

/-- The first part of `ip_reass_slowtimo`: the queues age by one tick, and the older half goes when
there are too many fragments. -/
def ageQueues (state : State) (nmbclusters : Int) : Option State := do
  let (state, medianTtl) ← ipReassTtlDecr state 1
  let state := { state with ip_maxfrags := nmbclusters.tdiv 4 }
  if state.ip_nfrags.toInt > state.ip_maxfrags then
    (ipReassTtlDecr state medianTtl).map Prod.fst
  else some state

def ipReassSlowtimo (state : State) (nmbclusters : Int) : Option State :=
  (ageQueues state nmbclusters).map drainOver

inductive Event where
  | packet (frag : Fragment) (gotEntry gotQueue : Bool)
  | slowtimo (nmbclusters : Int)
  | drain (entered : Bool)
  | setMax (maxfragpackets : Int)

def step (state : State) : Event → Option (State × Option Packet)
  | .packet frag gotEntry gotQueue =>
    let (after, reply) := ipReassPacket state frag gotEntry gotQueue
    some (after, reply.toOption.join)
  | .slowtimo nmbclusters => (ipReassSlowtimo state nmbclusters).map fun after => (after, none)
  | .drain entered => (ipReassDrain state entered).map fun after => (after, none)
  | .setMax maxfragpackets => some ({ state with ip_maxfragpackets := maxfragpackets }, none)

def next (state : State) (event : Event) : Option State := (step state event).map Prod.fst

def initial (maxfrags : Int) : State := ⟨fun _ => [], 0#32, 0#32, 200, maxfrags, 0⟩

end NetBSD.Netinet.Reass
