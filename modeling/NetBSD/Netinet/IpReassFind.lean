import Mathlib.Data.List.Nodup
import NetBSD.Netinet.IpReass

/-!
Owns the reassembly table as a map from keys to queues. `receive` is what
`ip_reass_packet` does to the queue of its own key; the queues of other keys stay
as they are, and the timers only take queues away.
-/

namespace NetBSD.Netinet.Reass

open List Option State

def State.find (state : State) (key : Key) : Option Queue :=
  (state.ip_frags (ipreassHash key)).find? fun fp => decide (fp.key = key)

/-- No bucket has two queues with one key. -/
def Unique (state : State) : Prop := ∀ i, ((state.ip_frags i).map Queue.key).Nodup

/-- What becomes of a queue that a segment was put into, and the packet it makes. -/
def Queue.outcome (fp : Queue) : Option Queue × Option Packet :=
  match scan 0 fp.ipq_fragq, fp.ipq_fragq.head?, fp.ipq_fragq.getLast? with
  | some next, some first, some last =>
    if last.ipqe_mff then (some fp, none)
    else if next + 4 * first.ip_hl > 65535 then (none, none)
    else (none, some (fp.packet first next))
  | _, _, _ => (some fp, none)

def Queue.enter (fp : Queue) (entries : List Entry) (dequeued : Nat) : Queue :=
  { fp with
    ipq_fragq := entries
    ipq_nfrags := fp.ipq_nfrags + 1 - UInt16.ofNat dequeued }

def Fragment.queue (frag : Fragment) : Queue :=
  ⟨frag.key, [frag.entry], ipfragttl, 1, frag.ip_tos⟩

def State.room (state : State) (gotQueue : Bool) : Bool :=
  gotQueue && !decide (0 ≤ state.ip_maxfragpackets ∧
    state.ip_maxfragpackets ≤ state.ip_nfragpackets.toInt)

def receive (frag : Fragment) (found : Option Queue) (gotEntry room : Bool) :
    Option Queue × Reply :=
  if !frag.acceptable then (found, .error .EINVAL)
  else
    match found with
    | some fp =>
      if fp.ipq_tos ≠ frag.ip_tos then (found, .error .EINVAL)
      else if !gotEntry then (found, .error .ENOMEM)
      else
        match place fp.ipq_fragq frag.entry with
        | none => (found, .ok none)
        | some (entries, dequeued) =>
          ((fp.enter entries dequeued).outcome.1, .ok (fp.enter entries dequeued).outcome.2)
    | none =>
      if !gotEntry then (none, .error .ENOMEM)
      else if !room then (none, .ok none)
      else (frag.queue.outcome.1, .ok frag.queue.outcome.2)

inductive Joins (frag : Fragment) : Option Queue → Queue → Prop where
  | enters (old : Queue) (entries : List Entry) (dequeued : Nat)
      (isPlaced : place old.ipq_fragq frag.entry = some (entries, dequeued)) :
      Joins frag (some old) (old.enter entries dequeued)
  | creates : Joins frag none frag.queue

theorem receive_cases (frag : Fragment) (fnd : Option Queue) (gotE rm : Bool) :
    ((receive frag fnd gotE rm).1 = fnd ∧
      (receive frag fnd gotE rm).2.toOption.join = none) ∨
    ∃ fp, Joins frag fnd fp ∧
      receive frag fnd gotE rm = (fp.outcome.1, .ok fp.outcome.2) := by
  unfold receive
  split
  · exact .inl ⟨rfl, rfl⟩
  cases fnd with
  | some fp =>
    dsimp only
    split
    · exact .inl ⟨rfl, rfl⟩
    split
    · exact .inl ⟨rfl, rfl⟩
    · split
      · exact .inl ⟨rfl, rfl⟩
      · rename_i ents dequeued hpl
        exact .inr ⟨_, .enters fp ents dequeued hpl, rfl⟩
  | none =>
    dsimp only
    split
    · exact .inl ⟨rfl, rfl⟩
    · split
      · exact .inl ⟨rfl, rfl⟩
      · exact .inr ⟨_, .creates, rfl⟩

section Buckets

variable {bucket : List Queue} {key other : Key} {fp : Queue}

theorem find?_key (fnd : bucket.find? (fun fp => decide (fp.key = key)) = some fp) :
    fp.key = key := by
  simpa using find?_some fnd

theorem find?_cons_key {tail : List Queue} (same : fp.key = key) :
    (fp :: tail).find? (fun fp => decide (fp.key = key)) = some fp :=
  find?_cons_of_pos (decide_eq_true same)

theorem find?_cons_other {tail : List Queue} (ne : fp.key ≠ key) :
    (fp :: tail).find? (fun fp => decide (fp.key = key)) =
      tail.find? fun fp => decide (fp.key = key) :=
  find?_cons_of_neg (by simpa using ne)

theorem find?_absent (miss : key ∉ bucket.map Queue.key) :
    bucket.find? (fun fp => decide (fp.key = key)) = none := by
  refine find?_eq_none.mpr fun fp isIn => ?_
  have ne : fp.key ≠ key := by
    rintro rfl
    exact miss (mem_map_of_mem isIn)
  exact fun same => ne (of_decide_eq_true same)

variable {new : Option Queue}

theorem find?_replaceQueue_other (sameKey : ∀ fp, new = some fp → fp.key = key)
    (ne : other ≠ key) :
    (replaceQueue key new bucket).find? (fun fp => decide (fp.key = other)) =
      bucket.find? (fun fp => decide (fp.key = other)) := by
  induction bucket with
  | nil => rfl
  | cons head tail ih =>
    unfold replaceQueue
    by_cases isKey : head.key = key
    · rw [if_pos isKey, find?_cons_other (isKey ▸ Ne.symm ne)]
      cases new with
      | none => rfl
      | some fp => exact find?_cons_other (sameKey fp rfl ▸ Ne.symm ne)
    · rw [if_neg isKey]
      by_cases oth : head.key = other
      · rw [find?_cons_key oth, find?_cons_key oth]
      · rw [find?_cons_other oth, find?_cons_other oth, ih]

theorem find?_replaceQueue_self (sameKey : ∀ fp, new = some fp → fp.key = key)
    (dist : (bucket.map Queue.key).Nodup) (isIn : key ∈ bucket.map Queue.key) :
    (replaceQueue key new bucket).find? (fun fp => decide (fp.key = key)) = new := by
  induction bucket with
  | nil => simp at isIn
  | cons head tail ih =>
    rw [map_cons, nodup_cons] at dist
    unfold replaceQueue
    by_cases isKey : head.key = key
    · rw [if_pos isKey]
      cases new with
      | none => exact find?_absent (isKey ▸ dist.1)
      | some fp => exact find?_cons_key (sameKey fp rfl)
    · rw [if_neg isKey, find?_cons_other isKey]
      rw [map_cons, mem_cons] at isIn
      exact ih dist.2 (isIn.resolve_left (Ne.symm isKey))

theorem keys_replaceQueue (sameKey : ∀ fp, new = some fp → fp.key = key) :
    ((replaceQueue key new bucket).map Queue.key).Sublist (bucket.map Queue.key) := by
  induction bucket with
  | nil => exact List.Sublist.refl _
  | cons head tail ih =>
    unfold replaceQueue
    by_cases isKey : head.key = key
    · rw [if_pos isKey]
      cases new with
      | none => exact sublist_cons_self _ _
      | some fp =>
        rw [toList_some, singleton_append, map_cons, map_cons,
          sameKey fp rfl, isKey]
    · rw [if_neg isKey]
      exact ih.cons_cons _

theorem keys_age (ticks : Nat) :
    (bucket.map fun fp => fp.age ticks).map Queue.key = bucket.map Queue.key := by
  rw [List.map_map]
  rfl

theorem find?_filter_age (dist : (bucket.map Queue.key).Nodup) (keeps : Queue → Bool)
    (ticks : Nat) :
    ((bucket.map fun fp => fp.age ticks).filter keeps).find? (fun fp => decide (fp.key = key)) =
      none ∨
    ∃ fp, bucket.find? (fun fp => decide (fp.key = key)) = some fp ∧
      ((bucket.map fun fp => fp.age ticks).filter keeps).find? (fun fp => decide (fp.key = key)) =
        some (fp.age ticks) := by
  induction bucket with
  | nil => exact .inl rfl
  | cons head tail ih =>
    rw [map_cons, nodup_cons] at dist
    rw [map_cons]
    by_cases isKey : head.key = key
    · by_cases isKept : keeps (head.age ticks) = true
      · rw [filter_cons_of_pos isKept, find?_cons_key isKey]
        exact .inr ⟨head, rfl, find?_cons_key isKey⟩
      · rw [filter_cons_of_neg isKept]
        have tl := (filter_sublist (p := keeps) (l := tail.map fun fp => fp.age ticks)).map
          Queue.key
        rw [keys_age] at tl
        exact .inl (find?_absent fun isIn => dist.1 (isKey ▸ tl.subset isIn))
    · rw [find?_cons_other isKey]
      by_cases isKept : keeps (head.age ticks) = true
      · rw [filter_cons_of_pos isKept, find?_cons_other (by exact isKey)]
        exact ih dist.2
      · rw [filter_cons_of_neg isKept]
        exact ih dist.2

end Buckets

section Thinned

/-- One state comes from another by taking queues away and by ageing those that stay. -/
structure Thinned (state after : State) : Prop where
  unique : Unique after
  finds : ∀ key, after.find key = none ∨
    ∃ fp ttl, state.find key = some fp ∧ after.find key = some { fp with ipq_ttl := ttl }

variable {st s' last : State}

theorem Thinned.refl (unique : Unique st) : Thinned st st where
  unique := unique
  finds := by
    intro key
    cases found : st.find key with
    | none => exact .inl rfl
    | some fp => exact .inr ⟨fp, fp.ipq_ttl, rfl, rfl⟩

theorem Thinned.trans (fst : Thinned st s') (snd : Thinned s' last) :
    Thinned st last where
  unique := snd.unique
  finds := by
    intro key
    rcases snd.finds key with isGone | ⟨fp, ttl, fnd, lst⟩
    · exact .inl isGone
    · rcases fst.finds key with isGone | ⟨old, oldTtl, oldFound, isOld⟩
      · rw [isGone] at fnd
        cases fnd
      · obtain rfl := some.inj (isOld.symm.trans fnd)
        exact .inr ⟨old, ttl, oldFound, lst⟩

theorem Thinned.of_frags (thinned : Thinned st s') (last : State)
    (same : last.ip_frags = s'.ip_frags) : Thinned st last where
  unique := by
    intro i
    rw [same]
    exact thinned.unique i
  finds := by
    intro key
    have sameFind : last.find key = s'.find key := by
      rw [find, same, find]
    rw [sameFind]
    exact thinned.finds key

theorem frags_foldl_uncount (freed : List Queue) (st : State) :
    (freed.foldl uncount st).ip_frags = st.ip_frags := by
  induction freed generalizing st with
  | nil => rfl
  | cons head tail ih =>
    rw [foldl_cons, ih]
    rfl

/-- The table without the queues whose time is over. -/
def State.unexpired (state : State) (ticks : Nat) : State :=
  { state with ip_frags := fun i =>
      ((state.ip_frags i).map fun fp => fp.age ticks).filter fun fp => decide (fp.ipq_ttl ≠ 0) }

theorem thinned_unexpired (unique : Unique st) (ticks : Nat) :
    Thinned st (st.unexpired ticks) where
  unique := by
    intro i
    have keys := unique i
    rw [← keys_age ticks] at keys
    exact keys.sublist (filter_sublist.map _)
  finds := by
    intro key
    rcases find?_filter_age (unique (ipreassHash key)) (fun fp => decide (fp.ipq_ttl ≠ 0)) ticks with
      isGone | ⟨fp, fnd, isKept⟩
    · exact .inl isGone
    · exact .inr ⟨fp, _, fnd, isKept⟩

theorem thinned_ttlDecr (unique : Unique st) {ticks median : Nat}
    (decremented : ipReassTtlDecr st ticks = some (s', median)) : Thinned st s' := by
  unfold ipReassTtlDecr at decremented
  dsimp only at decremented
  split at decremented
  · obtain ⟨rfl, _⟩ := Prod.mk.inj (some.inj decremented)
    exact (thinned_unexpired unique ticks).of_frags _ (frags_foldl_uncount _ _)
  · cases decremented

@[simp] theorem frags_setBucket_self (i : Nat) (bucket : List Queue) :
    (st.setBucket i bucket).ip_frags i = bucket :=
  Function.update_self i _ _

theorem frags_setBucket_other {i j : Nat} (ne : j ≠ i) (bucket : List Queue) :
    (st.setBucket i bucket).ip_frags j = st.ip_frags j :=
  Function.update_of_ne ne _ _

section

variable (unique : Unique st)

include unique

theorem thinned_emptyBucket (i : Nat) : Thinned st (st.emptyBucket i) := by
  have kept : Thinned st (st.setBucket i []) := by
    constructor
    · intro j
      by_cases same : j = i
      · rw [same, frags_setBucket_self]
        exact nodup_nil
      · rw [frags_setBucket_other same]
        exact unique j
    intro key
    by_cases same : ipreassHash key = i
    · refine .inl ?_
      rw [find, same, frags_setBucket_self]
      rfl
    · have sameFind : (st.setBucket i []).find key = st.find key := by
        rw [find, frags_setBucket_other same]
        rfl
      rw [sameFind]
      exact (Thinned.refl unique).finds key
  exact kept.of_frags _ (frags_foldl_uncount _ _)

theorem thinned_drainLoop (dropscanidx fuel i : Nat) :
    Thinned st (drainLoop dropscanidx fuel i st).1 := by
  induction fuel generalizing st i with
  | zero => exact .refl unique
  | succ fuel ih =>
    rw [drainLoop]
    split
    · have emptied := thinned_emptyBucket unique i
      dsimp only
      generalize (if i + 1 ≥ hashSize then 0 else i + 1) = next
      split
      · exact emptied
      · exact emptied.trans (ih emptied.unique next)
    · exact .refl unique

theorem thinned_drainOver : Thinned st (drainOver st) := by
  unfold drainOver
  split
  · exact .refl unique
  · exact (thinned_drainLoop unique st.dropscanidx hashSize st.dropscanidx).of_frags _ rfl

theorem thinned_slowtimo {nmbclusters : Int}
    (aged : ipReassSlowtimo st nmbclusters = some s') : Thinned st s' := by
  obtain ⟨over_, isOver, rfl⟩ := map_eq_some_iff.mp aged
  obtain ⟨⟨first, median⟩, fst, rst⟩ := bind_eq_some_iff.mp isOver
  have firstThinned := thinned_ttlDecr unique fst
  have thinned : Thinned st over_ := by
    dsimp only at rst
    split at rst
    · obtain ⟨⟨snd, tl⟩, h2, rfl⟩ := map_eq_some_iff.mp rst
      have limited := firstThinned.of_frags { first with ip_maxfrags := nmbclusters.tdiv 4 } rfl
      exact limited.trans (thinned_ttlDecr limited.unique h2)
    · obtain rfl := some.inj rst
      exact firstThinned.of_frags _ rfl
  exact thinned.trans (thinned_drainOver thinned.unique)

theorem thinned_drain {entered : Bool} (drained : ipReassDrain st entered = some s') :
    Thinned st s' := by
  unfold ipReassDrain at drained
  split at drained
  · obtain ⟨⟨first, median⟩, fst, tl⟩ := bind_eq_some_iff.mp drained
    obtain ⟨⟨snd, left⟩, h2, aft⟩ := bind_eq_some_iff.mp tl
    obtain rfl := some.inj aft
    have thinned := thinned_ttlDecr unique fst
    exact thinned.trans (thinned_ttlDecr thinned.unique h2)
  · obtain rfl := some.inj drained
    exact .refl unique

end

end Thinned

section Packet

variable {st : State} {key other : Key} {bucket : List Queue}

theorem find_setBucket_self : (st.setBucket (ipreassHash key) bucket).find key =
      bucket.find? fun fp => decide (fp.key = key) := by
  rw [find, frags_setBucket_self]

/-- Another key is found as before when it is found so in the bucket that was rewritten. -/
theorem find_setBucket_other (same : bucket.find? (fun fp => decide (fp.key = other)) =
      (st.ip_frags (ipreassHash key)).find? fun fp => decide (fp.key = other)) :
    (st.setBucket (ipreassHash key) bucket).find other = st.find other := by
  by_cases sameHash : ipreassHash other = ipreassHash key
  · rw [find, sameHash, frags_setBucket_self, same, find, sameHash]
  · rw [find, frags_setBucket_other sameHash, find]

theorem unique_setBucket (unique : Unique st) {i : Nat}
    (dist : (bucket.map Queue.key).Nodup) : Unique (st.setBucket i bucket) := by
  intro j
  by_cases same : j = i
  · rw [same, frags_setBucket_self]
    exact dist
  · rw [frags_setBucket_other same]
    exact unique j

theorem outcome_key {fp new : Queue} (isNew : fp.outcome.1 = some new) : new = fp := by
  unfold Queue.outcome at isNew
  split at isNew
  · split at isNew
    · exact (some.inj isNew).symm
    · split at isNew <;> cases isNew
  · exact (some.inj isNew).symm

theorem finish_eq (st : State) (i : Nat) (tl : Option Queue → List Queue) (fp : Queue) :
    (finish st i tl fp).1.ip_frags = (st.setBucket i (tl fp.outcome.1)).ip_frags ∧
      (finish st i tl fp).2 = fp.outcome.2 := by
  unfold finish Queue.outcome
  cases scan 0 fp.ipq_fragq with
  | none => exact ⟨rfl, rfl⟩
  | some next =>
    cases fp.ipq_fragq.head? with
    | none => exact ⟨rfl, rfl⟩
    | some fst =>
      cases fp.ipq_fragq.getLast? with
      | none => exact ⟨rfl, rfl⟩
      | some last =>
        dsimp only
        split
        · exact ⟨rfl, rfl⟩
        · split
          · exact ⟨rfl, rfl⟩
          · exact ⟨rfl, rfl⟩

/-- What a call does to the table, read as a map. -/
structure Received (state after : State) (frag : Fragment) (found : Option Queue) : Prop where
  unique : Unique after
  others : ∀ other, other ≠ frag.key → after.find other = state.find other
  own : after.find frag.key = found

section

variable (unique : Unique st)

include unique

theorem Received.unchanged (frag : Fragment) : Received st st frag (st.find frag.key) :=
  ⟨unique, fun _ _ => rfl, rfl⟩

variable {frag : Fragment}

theorem Received.of_bucket {s' : State} {fnd : Option Queue}
    (same : s'.ip_frags = (st.setBucket (ipreassHash frag.key) bucket).ip_frags)
    (dist : (bucket.map Queue.key).Nodup)
    (tl : ∀ other, other ≠ frag.key → bucket.find? (fun fp => decide (fp.key = other)) =
      (st.ip_frags (ipreassHash frag.key)).find? fun fp => decide (fp.key = other))
    (own : bucket.find? (fun fp => decide (fp.key = frag.key)) = fnd) :
    Received st s' frag fnd := by
  have sameFind : ∀ key, s'.find key =
      (st.setBucket (ipreassHash frag.key) bucket).find key := by
    intro key
    rw [find, same, find]
  constructor
  · intro i
    rw [same]
    exact unique_setBucket unique dist i
  · intro other ne
    rw [sameFind]
    exact find_setBucket_other (tl other ne)
  · rw [sameFind, find_setBucket_self, own]

theorem ipReassQueue_received {fp : Queue} (fnd : st.find frag.key = some fp)
    {ents : List Entry} {dequeued : Nat}
    (hpl : place fp.ipq_fragq frag.entry = some (ents, dequeued)) :
    Received st (ipReassQueue st (ipreassHash frag.key) fp frag.entry).1 frag
        (fp.enter ents dequeued).outcome.1 ∧
      (ipReassQueue st (ipreassHash frag.key) fp frag.entry).2 =
        (fp.enter ents dequeued).outcome.2 := by
  have isKey : fp.key = frag.key := find?_key fnd
  unfold ipReassQueue
  rw [hpl]
  obtain ⟨sameFrags, samePacket⟩ := finish_eq
    { st with ip_nfrags := st.ip_nfrags + 1#32 - BitVec.ofNat 32 dequeued }
    (ipreassHash frag.key)
    (fun new => replaceQueue fp.key new (st.ip_frags (ipreassHash frag.key)))
    (fp.enter ents dequeued)
  refine ⟨?_, samePacket⟩
  have sameKey : ∀ new, (fp.enter ents dequeued).outcome.1 = some new → new.key = fp.key := by
    intro new isNew
    rw [outcome_key isNew]
    rfl
  have isIn : fp.key ∈ (st.ip_frags (ipreassHash frag.key)).map Queue.key :=
    mem_map_of_mem (mem_of_find?_eq_some fnd)
  refine Received.of_bucket unique sameFrags ?_ ?_ ?_
  · exact (unique (ipreassHash frag.key)).sublist (keys_replaceQueue sameKey)
  · intro other ne
    exact find?_replaceQueue_other sameKey (by rwa [isKey])
  · rw [← isKey] at isIn ⊢
    exact find?_replaceQueue_self sameKey (by rw [isKey]; exact unique _) isIn

theorem finish_new_received (miss : st.find frag.key = none) (cnt : State)
    (same : cnt.ip_frags = st.ip_frags) :
    Received st (finish cnt (ipreassHash frag.key)
        (fun new => new.toList ++ st.ip_frags (ipreassHash frag.key)) frag.queue).1 frag
        frag.queue.outcome.1 ∧
      (finish cnt (ipreassHash frag.key)
        (fun new => new.toList ++ st.ip_frags (ipreassHash frag.key)) frag.queue).2 =
        frag.queue.outcome.2 := by
  obtain ⟨sameFrags, samePacket⟩ := finish_eq cnt (ipreassHash frag.key)
    (fun new => new.toList ++ st.ip_frags (ipreassHash frag.key)) frag.queue
  refine ⟨?_, samePacket⟩
  have eqSet : (cnt.setBucket (ipreassHash frag.key) (frag.queue.outcome.1.toList ++
      st.ip_frags (ipreassHash frag.key))).ip_frags =
      (st.setBucket (ipreassHash frag.key) (frag.queue.outcome.1.toList ++
        st.ip_frags (ipreassHash frag.key))).ip_frags := by
    simp only [setBucket, same]
  rw [eqSet] at sameFrags
  cases isNew : frag.queue.outcome.1 with
  | none =>
    rw [isNew] at sameFrags
    exact .of_bucket unique sameFrags (unique _) (fun _ _ => rfl) miss
  | some new =>
    rw [isNew] at sameFrags
    have isKey : new.key = frag.key := by
      rw [outcome_key isNew]
      rfl
    refine .of_bucket unique sameFrags ?_ ?_ ?_
    · rw [toList_some, singleton_append, map_cons, nodup_cons]
      refine ⟨fun isIn => ?_, unique _⟩
      obtain ⟨fp, inBucket, isSame⟩ := mem_map.mp isIn
      have skip := find?_eq_none.mp miss fp inBucket
      exact skip (decide_eq_true (isSame.trans isKey))
    · intro other ne
      exact find?_cons_other (isKey ▸ Ne.symm ne)
    · exact find?_cons_key isKey

/-- A packet does to its queue what `receive` says. -/
theorem ipReassPacket_received (frag : Fragment) (gotE gotQueue : Bool) :
    Received st (ipReassPacket st frag gotE gotQueue).1 frag
        (receive frag (st.find frag.key) gotE (st.room gotQueue)).1 ∧
      (ipReassPacket st frag gotE gotQueue).2 =
        (receive frag (st.find frag.key) gotE (st.room gotQueue)).2 := by
  unfold ipReassPacket receive
  dsimp only
  split
  · exact ⟨.unchanged unique frag, rfl⟩
  rw [← find]
  cases found : st.find frag.key with
  | some fp =>
    dsimp only
    split
    · exact ⟨found ▸ .unchanged unique frag, rfl⟩
    split
    · exact ⟨found ▸ .unchanged unique frag, rfl⟩
    cases isPlaced : place fp.ipq_fragq frag.entry with
    | none =>
      have same : ipReassQueue st (ipreassHash frag.key) fp frag.entry = (st, none) := by
        rw [ipReassQueue, isPlaced]
      rw [same]
      exact ⟨found ▸ .unchanged unique frag, rfl⟩
    | some at' =>
      obtain ⟨received, samePacket⟩ := ipReassQueue_received unique found isPlaced
      exact ⟨received, congrArg Except.ok samePacket⟩
  | none =>
    dsimp only
    split
    · exact ⟨found ▸ .unchanged unique frag, rfl⟩
    unfold ipReassNew room
    by_cases limited : 0 ≤ st.ip_maxfragpackets ∧
        st.ip_maxfragpackets ≤ st.ip_nfragpackets.toInt
    · rw [if_pos limited]
      simp only [limited, decide_true, Bool.not_true, Bool.and_false, Bool.not_false,
        if_true, and_self]
      exact ⟨found ▸ .unchanged unique frag, trivial⟩
    simp only [limited]
    cases gotQueue with
    | false => exact ⟨found ▸ .unchanged unique frag, rfl⟩
    | true =>
      obtain ⟨received, samePacket⟩ := finish_new_received unique found { st with
          ip_nfrags := st.ip_nfrags + 1#32
          ip_nfragpackets := st.ip_nfragpackets + 1#32 } rfl
      exact ⟨received, congrArg Except.ok samePacket⟩

end

end Packet

end NetBSD.Netinet.Reass
