import Mathlib.Algebra.Order.Ring.Nat
import Mathlib.Logic.Function.Basic

/-!
Owns the lockless producer/consumer queue of `sys/kern/subr_pcq.c` under
sequentially consistent interleaving: each load, store and compare-and-swap of
`pcq_pc` and `pcq_items` is one step, and any number of threads may be inside
`pcq_put` while one is inside `pcq_get`. What a step makes visible to a caller,
and the reservation of a slot, is its event.
-/

namespace NetBSD.Kern.SubrPcq

def pcqMaxlen : Nat := 0xffff

/-! ### Indices -/

def pcqSplit (v : UInt32) : Nat × Nat := ((v &&& 0xffff).toNat, (v >>> 16).toNat)

def pcqCombine (p c : Nat) : UInt32 := UInt32.ofNat p ||| (UInt32.ofNat c <<< 16)

def pcqAdvance (nitems pc : Nat) : Nat := if pc + 1 = nitems then 0 else pc + 1

/-! ### Threads -/

/-- Where a thread is in `pcq_put`. -/
inductive Producer (α : Type) where
  | idle
  /-- Before the load of `pcq_pc`. -/
  | trying (item : α)
  /-- Before the compare-and-swap of the value loaded. -/
  | loaded (item : α) (v : UInt32)
  /-- Before the store into the slot. -/
  | reserved (item : α) (op : Nat)

/-- Where the one consumer is in `pcq_get`. -/
inductive Consumer (α : Type) where
  | idle
  /-- Before the load of `pcq_items[c]`. -/
  | loaded (v : UInt32)
  /-- Before `pcq_items[c] = NULL`. -/
  | holding (item : α) (v : UInt32)
  /-- Before the compare-and-swap. -/
  | cleared (item : α) (v nv : UInt32)
  /-- Before the load after a failed compare-and-swap. -/
  | reloading (item : α)

/-- `struct pcq` and the threads that use it. -/
structure Pcq (α : Type) where
  pcq_nitems : Nat
  pcq_pc : UInt32
  pcq_items : Nat → Option α
  producers : Nat → Producer α
  consumer : Consumer α

inductive Event (α : Type) where
  /-- A producer's compare-and-swap succeeded. -/
  | reserve (thread : Nat) (item : α)
  /-- `pcq_put` returned true. -/
  | put (thread : Nat)
  /-- `pcq_put` returned false. -/
  | full (thread : Nat)
  /-- `pcq_get` returned an item. -/
  | got (item : α)
  /-- `pcq_get` returned NULL for equal indices. -/
  | empty
  /-- `pcq_get` returned NULL for an empty slot. -/
  | unfilled

inductive Action (α : Type) where
  /-- A thread outside of the queue calls `pcq_put`. -/
  | call (thread : Nat) (item : α)
  /-- The next step of a thread inside `pcq_put`. -/
  | produce (thread : Nat)
  /-- The next step of the consumer, which calls `pcq_get` when it is idle. -/
  | consume

section Step

variable {α : Type}

def Pcq.setProducer (q : Pcq α) (thread : Nat) (producer : Producer α) : Pcq α :=
  { q with producers := Function.update q.producers thread producer }

def Pcq.setItem (q : Pcq α) (i : Nat) (value : Option α) : Pcq α :=
  { q with pcq_items := Function.update q.pcq_items i value }

/-- The load at the head of the loop of `pcq_put`, and the test for a full queue. -/
def Pcq.putLoad (q : Pcq α) (thread : Nat) (item : α) : Pcq α × Option (Event α) :=
  let v := q.pcq_pc
  let op := (pcqSplit v).1
  let c := (pcqSplit v).2
  if pcqAdvance q.pcq_nitems op = c then (q.setProducer thread .idle, some (.full thread))
  else (q.setProducer thread (.loaded item v), none)

def Pcq.putCas (q : Pcq α) (thread : Nat) (item : α) (v : UInt32) : Pcq α × Option (Event α) :=
  let op := (pcqSplit v).1
  let c := (pcqSplit v).2
  let nv := pcqCombine (pcqAdvance q.pcq_nitems op) c
  if q.pcq_pc = v then
    ({ q with pcq_pc := nv }.setProducer thread (.reserved item op), some (.reserve thread item))
  else (q.setProducer thread (.trying item), none)

def Pcq.put (q : Pcq α) (thread : Nat) : Pcq α × Option (Event α) :=
  match q.producers thread with
  | .idle => (q, none)
  | .trying item => q.putLoad thread item
  | .loaded item v => q.putCas thread item v
  | .reserved item op => ((q.setItem op (some item)).setProducer thread .idle, some (.put thread))

/-- `nv` for the value that the consumer expects. -/
def Pcq.nextPc (q : Pcq α) (v : UInt32) : UInt32 :=
  pcqCombine (pcqSplit v).1 (pcqAdvance q.pcq_nitems (pcqSplit v).2)

def Pcq.get (q : Pcq α) : Pcq α × Option (Event α) :=
  match q.consumer with
  | .idle =>
    let v := q.pcq_pc
    if (pcqSplit v).1 = (pcqSplit v).2 then (q, some .empty)
    else ({ q with consumer := .loaded v }, none)
  | .loaded v =>
    match q.pcq_items (pcqSplit v).2 with
    | none => ({ q with consumer := .idle }, some .unfilled)
    | some item => ({ q with consumer := .holding item v }, none)
  | .holding item v =>
    ({ q.setItem (pcqSplit v).2 none with consumer := .cleared item v (q.nextPc v) }, none)
  | .cleared item v nv =>
    if q.pcq_pc = v then ({ q with pcq_pc := nv, consumer := .idle }, some (.got item))
    else ({ q with consumer := .reloading item }, none)
  | .reloading item =>
    ({ q with consumer := .cleared item q.pcq_pc (q.nextPc q.pcq_pc) }, none)

def Pcq.step (q : Pcq α) : Action α → Pcq α × Option (Event α)
  | .call thread item =>
    match q.producers thread with
    | .idle => (q.setProducer thread (.trying item), none)
    | _ => (q, none)
  | .produce thread => q.put thread
  | .consume => q.get

def pcqCreate (nitems : Nat) : Pcq α := ⟨nitems, 0, fun _ => none, fun _ => .idle, .idle⟩

end Step

/-! ### What callers saw -/

/-- A slot that was reserved. -/
structure Ticket (α : Type) where
  thread : Nat
  item : α
  /-- Whether its `pcq_put` returned true. -/
  filled : Bool

/-- The reservations in the order of their compare-and-swaps, and the items that
`pcq_get` returned, in order. -/
structure Ledger (α : Type) where
  tickets : List (Ticket α)
  returned : List α

section Ledger

variable {α : Type}

def Ticket.fill (thread : Nat) (ticket : Ticket α) : Ticket α :=
  if ticket.thread = thread then { ticket with filled := true } else ticket

def Ledger.record (ledger : Ledger α) : Option (Event α) → Ledger α
  | some (.reserve thread item) =>
    { ledger with tickets := ledger.tickets ++ [⟨thread, item, false⟩] }
  | some (.put thread) => { ledger with tickets := ledger.tickets.map (Ticket.fill thread) }
  | some (.got item) => { ledger with returned := ledger.returned ++ [item] }
  | _ => ledger

/-- The queue and the ledger after a sequence of steps. -/
def play (nitems : Nat) (actions : List (Action α)) : Pcq α × Ledger α :=
  actions.foldl (fun (q, ledger) action => ((q.step action).1, ledger.record (q.step action).2))
    (pcqCreate nitems, ⟨[], []⟩)

end Ledger

end NetBSD.Kern.SubrPcq
