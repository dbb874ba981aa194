import NetBSD.Machine.Tally
import NetBSD.Netinet.IpReass
import Mathlib.Data.List.TakeWhile
import NetBSD.Machine.Trace

/-!
Owns the counters of the reassembly table. They are kept modulo their widths by
every operation; a queue's own counter has 16 bits, so it is the number of its
entries only while there are fewer than 65536 of them.
-/

namespace NetBSD.Netinet.Reass

open NetBSD.Machine Function List Option UInt16 State

def Queue.entries (fp : Queue) : Nat := fp.ipq_fragq.length

/-- All counters are right modulo their widths, and every queue has an entry. -/
structure Accounted (state : State) : Prop where
  packets : state.ip_nfragpackets = BitVec.ofNat 32 state.queues.length
  counts : ∀ fp ∈ state.queues, fp.ipq_nfrags.toNat = fp.entries
  filled : ∀ fp ∈ state.queues, fp.ipq_fragq ≠ []
  frags : state.ip_nfrags = BitVec.ofNat 32 (tally Queue.entries state.queues)
  small : tally Queue.entries state.queues < 2 ^ 31
  index : state.dropscanidx < hashSize

variable {dequeued : Nat}

section Lists

theorem length_overlapLoop (stop : Nat) (ents : List Entry) :
    (overlapLoop stop ents).1.length + (overlapLoop stop ents).2 = ents.length := by
  induction ents with
  | nil => rfl
  | cons q tl ih =>
    unfold overlapLoop
    split
    · simp
    · dsimp only
      split
      · simp
      · simp only [length_cons]
        omega

theorem length_place {ents at' : List Entry} {e : Entry}
    (hpl : place ents e = some (at', dequeued)) :
    at'.length + dequeued = ents.length + 1 ∧ at' ≠ [] := by
  obtain ⟨trim, _, same⟩ := map_eq_some_iff.mp hpl
  obtain ⟨rfl, rfl⟩ := Prod.mk.inj same
  have whole := congrArg List.length (takeWhile_append_dropWhile (p := fun q : Entry =>
      decide (q.ip_off.toNat ≤ e.ip_off.toNat)) (l := ents))
  have tl := length_overlapLoop trim.stop
    (ents.dropWhile fun q => decide (q.ip_off.toNat ≤ e.ip_off.toNat))
  rw [length_append] at whole
  refine ⟨?_, by simp⟩
  simp only [length_append, length_cons]
  omega

variable {bucket : List Queue} {key : Key} {fp : Queue}

theorem tally_replaceQueue (meas : Queue → Nat)
    (fnd : bucket.find? (fun fp => decide (fp.key = key)) = some fp) (new : Option Queue) :
    tally meas (replaceQueue key new bucket) + meas fp =
      tally meas bucket + tally meas new.toList := by
  induction bucket with
  | nil => simp at fnd
  | cons head tail ih =>
    unfold replaceQueue
    by_cases same : head.key = key
    · obtain rfl : head = fp := by simpa [same] using fnd
      rw [if_pos same, tally_append, tally_cons]
      omega
    · rw [find?_cons_of_neg (by simpa using same)] at fnd
      have tl := ih fnd
      rw [if_neg same, tally_cons, tally_cons]
      omega

theorem mem_replaceQueue {new : Option Queue} {oth : Queue}
    (isIn : oth ∈ replaceQueue key new bucket) : oth ∈ bucket ∨ new = some oth := by
  induction bucket with
  | nil => simp [replaceQueue] at isIn
  | cons head tail ih =>
    unfold replaceQueue at isIn
    split at isIn
    · rcases mem_append.mp isIn with isNew | inTail
      · exact Or.inr (mem_toList.mp isNew)
      · exact Or.inl (mem_cons_of_mem _ inTail)
    · rcases mem_cons.mp isIn with rfl | inTail
      · exact Or.inl mem_cons_self
      · exact (ih inTail).imp (mem_cons_of_mem _) id

end Lists

section Counters

variable {st : State}

theorem ipreassHash_lt (key : Key) : ipreassHash key < hashSize := by
  exact Nat.and_lt_two_pow (n := 6) _ (by decide)

theorem mem_range_hash (key : Key) : ipreassHash key ∈ List.range hashSize :=
  mem_range.mpr (ipreassHash_lt key)

theorem tally_setBucket (st : State) (meas : Queue → Nat) (key : Key) (bucket : List Queue) :
    tally meas (st.setBucket (ipreassHash key) bucket).queues +
        tally meas (st.ip_frags (ipreassHash key)) =
      tally meas st.queues + tally meas bucket :=
  tally_update nodup_range (mem_range_hash key)

theorem foldl_uncount (queues : List Queue) (st : State) :
    queues.foldl uncount st = { st with
      ip_nfrags := st.ip_nfrags - BitVec.ofNat 32 (tally (fun fp => fp.ipq_nfrags.toNat) queues)
      ip_nfragpackets := st.ip_nfragpackets - BitVec.ofNat 32 queues.length } := by
  induction queues generalizing st with
  | nil => simp
  | cons head tail ih =>
    rw [foldl_cons, ih]
    simp only [uncount, tally_cons, length_cons]
    congr 1
    · rw [BitVec.ofNat_add]
      bv_omega
    · rw [BitVec.ofNat_add]
      bv_omega

theorem countFrags_eq (queues : List Queue) :
    countFrags queues = BitVec.ofNat 32 (tally (fun fp => fp.ipq_nfrags.toNat) queues) := by
  induction queues with
  | nil => rfl
  | cons head tail ih =>
    unfold countFrags at ih ⊢
    rw [foldr_cons, ih, tally_cons, BitVec.ofNat_add]

end Counters

section Freed

variable {st : State}

/-- Freeing queues takes their entries off the count. -/
theorem Accounted.freed (acct : Accounted st) (frags : Nat → List Queue)
    (freed : List Queue)
    (split : ∀ meas, tally meas ((List.range hashSize).flatMap frags) +
      tally meas freed = tally meas st.queues) :
    Accounted (freed.foldl uncount { st with ip_frags := frags }) := by
  have isKept : ∀ fp, fp ∈ (List.range hashSize).flatMap frags ∨ fp ∈ freed →
      fp ∈ st.queues := by
    intro fp isIn
    have cnt := split fun oth => if oth = fp then 1 else 0
    rw [← tally_pos_iff, ← tally_pos_iff] at isIn
    rw [← tally_pos_iff]
    omega
  have lens := split fun _ => 1
  have sums := split Queue.entries
  have same : tally (fun fp => fp.ipq_nfrags.toNat) freed = tally Queue.entries freed :=
    tally_congr fun fp isFreed => acct.counts fp (isKept fp (.inr isFreed))
  simp only [tally_one] at lens
  rw [foldl_uncount, same]
  have less : tally Queue.entries ((List.range hashSize).flatMap frags) < 2 ^ 31 := by
    have := acct.small
    omega
  have packets := acct.packets
  have nfrags := acct.frags
  rw [← lens, BitVec.ofNat_add] at packets
  rw [← sums, BitVec.ofNat_add] at nfrags
  constructor
  · show st.ip_nfragpackets - _ = BitVec.ofNat 32 (List.length (List.flatMap _ _))
    bv_omega
  · intro fp isIn
    exact acct.counts fp (isKept fp (.inl isIn))
  · intro fp isIn
    exact acct.filled fp (isKept fp (.inl isIn))
  · show st.ip_nfrags - _ = BitVec.ofNat 32 (tally Queue.entries (List.flatMap _ _))
    bv_omega
  · exact less
  · exact acct.index

/-- The table with every queue aged. -/
def State.aged (state : State) (ticks : Nat) : State :=
  { state with ip_frags := fun i => (state.ip_frags i).map fun fp => fp.age ticks }

theorem queues_aged (st : State) (ticks : Nat) :
    (st.aged ticks).queues = st.queues.map fun fp => fp.age ticks := by
  simp [queues, aged, map_flatMap]

theorem Accounted.aged (acct : Accounted st) (ticks : Nat) :
    Accounted (st.aged ticks) := by
  have same : tally Queue.entries (st.queues.map fun fp => fp.age ticks) =
      tally Queue.entries st.queues := by
    simp only [tally, List.map_map]
    rfl
  constructor
  · rw [queues_aged, length_map]
    exact acct.packets
  · rw [queues_aged]
    intro fp isIn
    obtain ⟨young, isYoung, rfl⟩ := mem_map.mp isIn
    exact acct.counts young isYoung
  · rw [queues_aged]
    intro fp isIn
    obtain ⟨young, isYoung, rfl⟩ := mem_map.mp isIn
    exact acct.filled young isYoung
  · rw [queues_aged, same]
    exact acct.frags
  · rw [queues_aged, same]
    exact acct.small
  · exact acct.index

theorem Accounted.countFrags (acct : Accounted st) :
    st.ip_nfrags = countFrags st.queues := by
  rw [countFrags_eq, acct.frags, tally_congr acct.counts]

theorem ipReassTtlDecr_spec (acct : Accounted st) (ticks : Nat) :
    ∃ s' median, ipReassTtlDecr st ticks = some (s', median) ∧ Accounted s' ∧
      s'.ip_maxfragpackets = st.ip_maxfragpackets := by
  have kept := (acct.aged ticks).freed
    (fun i => ((st.aged ticks).ip_frags i).filter fun fp => decide (fp.ipq_ttl ≠ 0))
    ((List.range hashSize).flatMap fun i =>
      ((st.aged ticks).ip_frags i).filter fun fp => decide (fp.ipq_ttl = 0)) (by
    intro meas
    simp only [← filter_flatMap]
    rw [add_comm]
    simp only [decide_not]
    exact tally_filter_add _ _)
  refine ⟨_, _, if_pos kept.countFrags, kept, ?_⟩
  rw [foldl_uncount]

theorem emptyBucket_spec (acct : Accounted st) {i : Nat} (inTable : i < hashSize) :
    Accounted (st.emptyBucket i) := by
  apply acct.freed (update st.ip_frags i [])
  intro meas
  exact tally_update nodup_range (mem_range.mpr inTable)

end Freed

section Packet

variable {st : State} {key : Key}

variable {fp : Queue}

theorem mem_setBucket {bucket : List Queue}
    (isIn : fp ∈ (st.setBucket (ipreassHash key) bucket).queues) :
    fp ∈ bucket ∨ fp ∈ st.queues :=
  mem_flatMap_update isIn

theorem mem_queues {fp : Queue} (isIn : fp ∈ st.ip_frags (ipreassHash key)) :
    fp ∈ st.queues :=
  mem_flatMap.mpr ⟨_, mem_range_hash key, isIn⟩

/-- What `finish` is entered with: the counters are those of the table with the queue in it, and the
other queues are those of the table without it. -/
structure Ready (state : State) (key : Key) (others : Option Queue → List Queue) (fp : Queue) :
    Prop where
  waiting : Accounted (state.setBucket (ipreassHash key) (others (some fp)))
  split : ∀ measure, tally measure (others none) + measure fp = tally measure (others (some fp))

theorem Ready.removed {tl : Option Queue → List Queue} (ready : Ready st key tl fp) :
    Accounted ((st.setBucket (ipreassHash key) (tl none)).uncount fp) := by
  have gone := ready.waiting.freed (st.setBucket (ipreassHash key) (tl none)).ip_frags
    [fp] (by
      intro meas
      have prev := tally_setBucket st meas key (tl none)
      have s' := tally_setBucket st meas key (tl (some fp))
      have split := ready.split meas
      rw [tally_cons, tally_nil]
      show tally meas (st.setBucket (ipreassHash key) (tl none)).queues + _ = _
      omega)
  exact gone

theorem finish_spec {tl : Option Queue → List Queue} (ready : Ready st key tl fp) :
    Accounted (finish st (ipreassHash key) tl fp).1 := by
  unfold finish
  split
  · split
    · exact ready.waiting
    · split
      · exact ready.removed
      · exact ready.removed
  · exact ready.waiting

theorem toNat_nfrags {nfrags : UInt16} {ents kept : Nat} (cnt : nfrags.toNat = ents)
    (sml : ents < 65535) (same : kept + dequeued = ents + 1) :
    (nfrags + 1 - UInt16.ofNat dequeued).toNat = kept := by
  rw [UInt16.toNat_sub, UInt16.toNat_add, toNat_ofNat', UInt16.toNat_one]
  omega

/-- A fragment that joins its queue is counted once. -/
theorem ipReassQueue_ready (acct : Accounted st)
    (rm : tally Queue.entries st.queues < 2 ^ 31 - 1) {e : Entry}
    (fnd : (st.ip_frags (ipreassHash key)).find? (fun fp => decide (fp.key = key)) = some fp)
    (sml : fp.entries < 65535) {ents : List Entry}
    (hpl : place fp.ipq_fragq e = some (ents, dequeued)) :
    Ready { st with ip_nfrags := st.ip_nfrags + 1#32 - BitVec.ofNat 32 dequeued } key
      (fun new => replaceQueue key new (st.ip_frags (ipreassHash key)))
      { fp with
        ipq_fragq := ents
        ipq_nfrags := fp.ipq_nfrags + 1 - UInt16.ofNat dequeued } := by
  obtain ⟨lens, isFilled⟩ := length_place hpl
  have isIn := mem_queues (mem_of_find?_eq_some fnd)
  have cnt := toNat_nfrags (acct.counts fp isIn) sml lens
  generalize isNew : ({ fp with
    ipq_fragq := ents
    ipq_nfrags := fp.ipq_nfrags + 1 - UInt16.ofNat dequeued } : Queue) = new
  have sameEntries : new.entries + dequeued = fp.entries + 1 := by
    rw [← isNew]
    exact lens
  have replaced := fun meas => tally_replaceQueue meas fnd (some new)
  have table := fun meas => tally_setBucket st meas key
    (replaceQueue key (some new) (st.ip_frags (ipreassHash key)))
  simp only [toList_some, tally_cons, tally_nil] at replaced
  have isOld : ∀ other ∈ (st.setBucket (ipreassHash key)
      (replaceQueue key (some new) (st.ip_frags (ipreassHash key)))).queues,
      other = new ∨ other ∈ st.queues := by
    intro other otherIn
    rcases mem_setBucket otherIn with inBucket | inTable
    · rcases mem_replaceQueue inBucket with oth | isSame
      · exact .inr (mem_queues oth)
      · exact .inl (some.inj isSame).symm
    · exact .inr inTable
  have packets := acct.packets
  have nfrags := acct.frags
  constructor
  · constructor
    · show st.ip_nfragpackets = BitVec.ofNat 32 (List.length (queues _))
      have lengthSame := table fun _ => 1
      have lengthBucket := replaced fun _ => 1
      simp only [tally_one] at lengthSame lengthBucket
      rw [packets]
      congr 1
      show _ = (st.setBucket _ _).queues.length
      omega
    · intro other otherIn
      rcases isOld other otherIn with rfl | inTable
      · rw [← isNew]
        exact cnt
      · exact acct.counts other inTable
    · intro other otherIn
      rcases isOld other otherIn with rfl | inTable
      · rw [← isNew]
        exact isFilled
      · exact acct.filled other inTable
    · show st.ip_nfrags + 1#32 - _ = BitVec.ofNat 32 (tally Queue.entries
        (st.setBucket _ _).queues)
      have sums := table Queue.entries
      have sumsBucket := replaced Queue.entries
      bv_omega
    · show tally Queue.entries (st.setBucket _ _).queues < 2 ^ 31
      have sums := table Queue.entries
      have sumsBucket := replaced Queue.entries
      omega
    · exact acct.index
  · intro meas
    have without := tally_replaceQueue meas fnd none
    have withNew := replaced meas
    simp only [toList_none, tally_nil] at without
    omega

/-- A fragment that opens a queue counts both. -/
theorem ipReassNew_ready (acct : Accounted st)
    (rm : tally Queue.entries st.queues < 2 ^ 31 - 1) (tos : UInt8) (e : Entry) :
    Ready { st with
        ip_nfrags := st.ip_nfrags + 1#32
        ip_nfragpackets := st.ip_nfragpackets + 1#32 } key
      (fun new => new.toList ++ st.ip_frags (ipreassHash key))
      ⟨key, [e], ipfragttl, 1, tos⟩ := by
  generalize isNew : (⟨key, [e], ipfragttl, 1, tos⟩ : Queue) = new
  have table := fun meas => tally_setBucket st meas key
    (new :: st.ip_frags (ipreassHash key))
  simp only [tally_cons] at table
  have isOld : ∀ other ∈ (st.setBucket (ipreassHash key)
      (new :: st.ip_frags (ipreassHash key))).queues, other = new ∨ other ∈ st.queues := by
    intro other otherIn
    rcases mem_setBucket otherIn with inBucket | inTable
    · rcases mem_cons.mp inBucket with isSame | oth
      · exact .inl isSame
      · exact .inr (mem_queues oth)
    · exact .inr inTable
  have oneEntry : new.entries = 1 := by
    rw [← isNew]
    rfl
  have packets := acct.packets
  have nfrags := acct.frags
  have sums := table Queue.entries
  constructor
  · constructor
    · show st.ip_nfragpackets + 1#32 = BitVec.ofNat 32 (st.setBucket _ _).queues.length
      have lengthSame := table fun _ => 1
      simp only [tally_one] at lengthSame
      show _ = BitVec.ofNat 32
        (st.setBucket _ (new :: st.ip_frags (ipreassHash key))).queues.length
      bv_omega
    · intro other otherIn
      rcases isOld other otherIn with rfl | inTable
      · rw [← isNew]
        rfl
      · exact acct.counts other inTable
    · intro other otherIn
      rcases isOld other otherIn with rfl | inTable
      · rw [← isNew]
        simp
      · exact acct.filled other inTable
    · show st.ip_nfrags + 1#32 = BitVec.ofNat 32 (tally Queue.entries
        (st.setBucket _ (new :: st.ip_frags (ipreassHash key))).queues)
      bv_omega
    · show tally Queue.entries
        (st.setBucket _ (new :: st.ip_frags (ipreassHash key))).queues < 2 ^ 31
      omega
    · exact acct.index
  · intro meas
    simp
    omega

/-- What the call needs for the counters to stay right: it hands its fragment to `ip_reass` only
where the queue has less than 65535 entries and all queues less than 2^31 - 1. -/
def PacketFine (state : State) (frag : Fragment) (gotEntry : Bool) : Prop :=
  frag.acceptable = true → gotEntry = true → tally Queue.entries state.queues < 2 ^ 31 - 1 ∧
    ∀ fp ∈ state.ip_frags (ipreassHash frag.key), fp.key = frag.key →
      fp.ipq_tos = frag.ip_tos → fp.entries < 65535

/-- A packet keeps the counts, whatever becomes of it. -/
theorem ipReassPacket_spec (acct : Accounted st) {frag : Fragment} {gotE : Bool}
    (fine : PacketFine st frag gotE) (gotQueue : Bool) :
    Accounted (ipReassPacket st frag gotE gotQueue).1 := by
  unfold ipReassPacket
  dsimp only
  split
  · exact acct
  rename_i acceptable
  have isAcceptable : frag.acceptable = true := by simpa using acceptable
  split
  · rename_i fp fnd
    have inBucket := mem_of_find?_eq_some fnd
    have sameKey : fp.key = frag.key := by simpa using find?_some fnd
    split
    · exact acct
    rename_i sameTos
    split
    · exact acct
    rename_i entryMissing
    obtain ⟨rm, sml⟩ := fine isAcceptable (by simpa using entryMissing)
    unfold ipReassQueue
    split
    · exact acct
    · rename_i ents dequeued hpl
      rw [sameKey]
      simpa only [sameKey] using finish_spec (ipReassQueue_ready acct rm fnd
        (sml fp inBucket sameKey (by simpa using sameTos)) hpl)
  · split
    · exact acct
    rename_i entryMissing
    obtain ⟨rm, _⟩ := fine isAcceptable (by simpa using entryMissing)
    unfold ipReassNew
    split
    · exact acct
    · split
      · exact acct
      · exact finish_spec (ipReassNew_ready acct rm _ _)

end Packet

/-!
### Whole runs

The accounting of reassembly over whole runs: the timer and drain functions, the drain loop of
`ip_reass_slowtimo`, and the fragments for which every counter stays the number it
stands for.
-/

section Drain

variable {st : State}

def State.emptied : Nat → Nat → State → State
  | 0, _, state => state
  | n + 1, i, state => emptied n (if i + 1 ≥ hashSize then 0 else i + 1) (state.emptyBucket i)

@[simp] theorem maxfragpackets_emptyBucket (i : Nat) :
    (st.emptyBucket i).ip_maxfragpackets = st.ip_maxfragpackets := by
  rw [emptyBucket, foldl_uncount]
  rfl

theorem frags_emptyBucket (i : Nat) :
    (st.emptyBucket i).ip_frags = update st.ip_frags i [] := by
  rw [emptyBucket, foldl_uncount]
  rfl

theorem toInt_ofNat_of_lt {n : Nat} (sml : n < 2 ^ 31) : (BitVec.ofNat 32 n).toInt = n := by
  have same : (BitVec.ofNat 32 n).toNat = n := by
    rw [BitVec.toNat_ofNat]
    omega
  rw [BitVec.toInt_eq_toNat_of_lt (by omega), same]

theorem Accounted.toInt_packets (acct : Accounted st) :
    st.ip_nfragpackets.toInt = st.queues.length := by
  have each : st.queues.length ≤ tally Queue.entries st.queues := by
    rw [← tally_one]
    exact tally_mono fun fp isIn => length_pos_of_ne_nil (acct.filled fp isIn)
  have := acct.small
  rw [acct.packets]
  exact toInt_ofNat_of_lt (by omega)

theorem Accounted.toInt_frags (acct : Accounted st) :
    st.ip_nfrags.toInt = tally (fun fp => fp.ipq_nfrags.toNat) st.queues := by
  rw [tally_congr acct.counts, acct.frags]
  exact toInt_ofNat_of_lt acct.small

theorem Accounted.toInt_of_empty (acct : Accounted st) {dropscanidx : Nat}
    (idx : dropscanidx < hashSize)
    (empty : ∀ j < hashSize, st.ip_frags ((dropscanidx + j) % hashSize) = []) :
    st.ip_nfragpackets.toInt = 0 := by
  have no : st.queues = [] := by
    refine flatMap_eq_nil_iff.mpr fun i isIn => ?_
    have inTable := mem_range.mp isIn
    have emp := empty ((i + hashSize - dropscanidx) % hashSize) (Nat.mod_lt _ (by decide))
    have same : (dropscanidx + (i + hashSize - dropscanidx) % hashSize) % hashSize = i := by
      unfold hashSize at *
      omega
    rwa [same] at emp
  rw [acct.toInt_packets, no]
  rfl

/-- The loop empties buckets one by one while the limit is exceeded. The buckets before the index
are empty, so that a loop that comes round has emptied the table. -/
theorem drainLoop_spec {dropscanidx : Nat} (idx : dropscanidx < hashSize)
    (limited : 0 ≤ st.ip_maxfragpackets) (acct : Accounted st) (fuel done : Nat)
    (whole : done + fuel = hashSize) {i : Nat} (next' : i = (dropscanidx + done) % hashSize)
    (empty : ∀ j < done, st.ip_frags ((dropscanidx + j) % hashSize) = []) :
    ∃ n ≤ fuel, (drainLoop dropscanidx fuel i st).1 = emptied n i st ∧
      (drainLoop dropscanidx fuel i st).2 < hashSize ∧
      Accounted (emptied n i st) ∧
      (emptied n i st).ip_nfragpackets.toInt ≤ st.ip_maxfragpackets ∧
      ∀ m < n, st.ip_maxfragpackets < (emptied m i st).ip_nfragpackets.toInt := by
  induction fuel generalizing st done i with
  | zero =>
    refine ⟨0, le_refl 0, rfl, ?_, acct, ?_, fun m less => by omega⟩
    · rw [next']
      exact Nat.mod_lt _ (by decide)
    · have eq0 := acct.toInt_of_empty idx fun j less => empty j (by omega)
      rw [emptied, eq0]
      exact limited
  | succ fuel ih =>
    have inTable : i < hashSize := by
      rw [next']
      exact Nat.mod_lt _ (by decide)
    by_cases exceeded : st.ip_nfragpackets.toInt > st.ip_maxfragpackets
    · generalize aft : (if i + 1 ≥ hashSize then 0 else i + 1) = after
      have isAfterNext : after = (dropscanidx + (done + 1)) % hashSize := by
        rw [← aft]
        unfold hashSize at *
        split <;> omega
      have emptyAfter : ∀ j < done + 1,
          (st.emptyBucket i).ip_frags ((dropscanidx + j) % hashSize) = [] := by
        intro j less
        rw [frags_emptyBucket]
        by_cases same : (dropscanidx + j) % hashSize = i
        · rw [same, update_self]
        · rw [update_of_ne same]
          refine empty j (lt_of_le_of_ne (by omega) ?_)
          rintro rfl
          exact same next'.symm
      obtain ⟨n, few, isEmptied, hins, isAccounted, stops, runs⟩ :=
        ih (by rwa [maxfragpackets_emptyBucket])
          (emptyBucket_spec acct inTable) (done + 1) (by omega) isAfterNext emptyAfter
      have rst : drainLoop dropscanidx (fuel + 1) i st =
          drainLoop dropscanidx fuel after (st.emptyBucket i) := by
        rw [drainLoop, if_pos exceeded, aft]
        by_cases isRound : after = dropscanidx
        · have last : fuel = 0 := by
            unfold hashSize at *
            omega
          subst last
          rw [if_pos isRound, drainLoop]
        · rw [if_neg isRound]
      have isStep : ∀ m, emptied (m + 1) i st =
          emptied m after (st.emptyBucket i) := by
        intro m
        rw [emptied, aft]
      rw [maxfragpackets_emptyBucket] at stops runs
      refine ⟨n + 1, by omega, ?_, ?_, ?_, ?_, ?_⟩
      · rw [rst, isStep, isEmptied]
      · rw [rst]
        exact hins
      · rw [isStep]
        exact isAccounted
      · rw [isStep]
        exact stops
      · intro m less
        cases m with
        | zero => exact exceeded
        | succ m =>
          rw [isStep]
          exact runs m (by omega)
    · refine ⟨0, by omega, ?_, ?_, acct, by simpa [emptied] using exceeded,
        fun m less => by omega⟩
      · rw [drainLoop, if_neg exceeded, emptied]
      · rw [drainLoop, if_neg exceeded]
        exact inTable

/-- The drain loop empties buckets while there are more queues than allowed, and no longer. -/
def DrainStops (state : State) : Prop :=
  0 ≤ state.ip_maxfragpackets → ∃ n i,
    drainOver state = { State.emptied n state.dropscanidx state with dropscanidx := i } ∧
    (drainOver state).ip_nfragpackets.toInt ≤ state.ip_maxfragpackets ∧
    ∀ m < n, state.ip_maxfragpackets <
      (State.emptied m state.dropscanidx state).ip_nfragpackets.toInt

theorem Accounted.withIndex (acct : Accounted st) {i : Nat} (idx : i < hashSize) :
    Accounted { st with dropscanidx := i } :=
  { acct with index := idx }

theorem drainOver_spec (acct : Accounted st) :
    Accounted (drainOver st) ∧ DrainStops st := by
  unfold DrainStops drainOver
  by_cases limited : st.ip_maxfragpackets < 0
  · rw [if_pos limited]
    exact ⟨acct, fun isLimited => absurd limited (by omega)⟩
  rw [if_neg limited]
  obtain ⟨n, few, isEmptied, hins, isAccounted, stops, runs⟩ :=
    drainLoop_spec acct.index (by omega) acct hashSize 0 (by simp)
      (i := st.dropscanidx) (Nat.mod_eq_of_lt acct.index).symm (by simp)
  dsimp only
  rw [isEmptied]
  exact ⟨isAccounted.withIndex hins, fun _ => ⟨n, _, rfl, stops, runs⟩⟩

theorem ageQueues_spec (acct : Accounted st) (nmbclusters : Int) :
    ∃ s', ageQueues st nmbclusters = some s' ∧ Accounted s' := by
  obtain ⟨aged, median, isAged, accountedAged, _⟩ := ipReassTtlDecr_spec acct 1
  have limited : Accounted { aged with ip_maxfrags := nmbclusters.tdiv 4 } :=
    { accountedAged with }
  obtain ⟨halved, _, isHalved, accountedHalved, _⟩ := ipReassTtlDecr_spec limited median
  unfold ageQueues
  simp only [isAged, bind_eq_bind, bind_some]
  split
  · exact ⟨halved, by rw [isHalved, map_some], accountedHalved⟩
  · exact ⟨_, rfl, limited⟩

theorem ipReassDrain_spec (acct : Accounted st) (entered : Bool) :
    ∃ s', ipReassDrain st entered = some s' ∧ Accounted s' := by
  obtain ⟨first, median, fst, accountedFirst, _⟩ := ipReassTtlDecr_spec acct 0
  obtain ⟨snd, tl, h2, accountedSecond, _⟩ := ipReassTtlDecr_spec accountedFirst median
  unfold ipReassDrain
  split
  · exact ⟨snd, by simp [fst, h2], accountedSecond⟩
  · exact ⟨st, rfl, acct⟩

end Drain

section Run

/-- What is to hold in every state reached: each counter is the number it stands for, no assertion
fails, and the drain loop stops as soon as the limit is kept. -/
structure Sound (state : State) : Prop where
  packets : state.ip_nfragpackets.toInt = state.queues.length
  counts : ∀ fp ∈ state.queues, fp.ipq_nfrags.toNat = fp.ipq_fragq.length
  frags : state.ip_nfrags.toInt = tally (fun fp => fp.ipq_nfrags.toNat) state.queues
  asserts : ∀ event, (step state event).isSome
  drains : ∀ nmbclusters aged, ageQueues state nmbclusters = some aged → DrainStops aged

/-- Only a fragment can make a counter wrong. -/
def Fine (state : State) : Event → Prop
  | .packet frag gotEntry _ => PacketFine state frag gotEntry
  | _ => True

instance (state : State) (event : Event) : Decidable (Fine state event) :=
  match event with
  | .packet frag gotEntry _ => inferInstanceAs (Decidable (frag.acceptable = true →
      gotEntry = true → tally Queue.entries state.queues < 2 ^ 31 - 1 ∧
        ∀ fp ∈ state.ip_frags (ipreassHash frag.key), fp.key = frag.key →
          fp.ipq_tos = frag.ip_tos → fp.entries < 65535))
  | .slowtimo _ | .drain _ | .setMax _ => isTrue trivial

theorem isSome_step {st : State} (acct : Accounted st) (event : Event) :
    (step st event).isSome := by
  cases event with
  | packet frag gotE gotQueue => rfl
  | slowtimo nmbclusters =>
    obtain ⟨s', aft, _⟩ := ageQueues_spec acct nmbclusters
    simp [step, ipReassSlowtimo, aft]
  | drain entered =>
    obtain ⟨s', aft, _⟩ := ipReassDrain_spec acct entered
    simp [step, aft]
  | setMax maxfragpackets => rfl

theorem Accounted.sound {st : State} (acct : Accounted st) : Sound st where
  packets := acct.toInt_packets
  counts := acct.counts
  frags := acct.toInt_frags
  asserts := isSome_step acct
  drains := by
    intro nmbclusters aged isAged
    obtain ⟨s', aft, accountedAfter⟩ := ageQueues_spec acct nmbclusters
    obtain rfl := some.inj (isAged.symm.trans aft)
    exact (drainOver_spec accountedAfter).2

theorem next_accounted {st : State} {event : Event} (acct : Accounted st)
    (fine : Fine st event) : ∃ s', next st event = some s' ∧ Accounted s' := by
  cases event with
  | packet frag gotE gotQueue =>
    exact ⟨_, rfl, ipReassPacket_spec acct fine gotQueue⟩
  | slowtimo nmbclusters =>
    obtain ⟨aged, isAged, accountedAged⟩ := ageQueues_spec acct nmbclusters
    exact ⟨_, by simp [next, step, ipReassSlowtimo, isAged], (drainOver_spec accountedAged).1⟩
  | drain entered =>
    obtain ⟨s', aft, accountedAfter⟩ := ipReassDrain_spec acct entered
    exact ⟨s', by simp [next, step, aft], accountedAfter⟩
  | setMax maxfragpackets =>
    exact ⟨_, rfl, { acct with }⟩

theorem accounted_initial (maxfrags : Int) : Accounted (initial maxfrags) := by
  have no : (initial maxfrags).queues = [] := by
    simp [queues, initial]
  constructor
  · rw [no]
    rfl
  · simp [no]
  · simp [no]
  · rw [no]
    rfl
  · simp [no]
  · simp [initial, hashSize]

/-- In a run whose fragments are all fine, every state reached is sound. -/
theorem ipReass_accounting (maxfrags : Int) (events : List Event)
    (fine : ∀ front event, front ++ [event] <+: events → ∀ reached,
      consume next front (initial maxfrags) = some reached → Fine reached event) :
    ∃ reached, consume next events (initial maxfrags) = some reached ∧ Sound reached := by
  obtain ⟨reached, eaten, acct⟩ := consume_invariant next Accounted Fine
    (fun _ _ => next_accounted) events (accounted_initial maxfrags) fine
  exact ⟨reached, eaten, acct.sound⟩

/-- A fragment of another datagram, which waits, and two slices of 48 and 32 bytes that complete
theirs, with the timer between them. -/
def slicesRun : List Event :=
  [.packet (zeroes ⟨1, 2, 3, 17⟩ 6 false 32) true true,
    .packet (zeroes ⟨1, 2, 4, 17⟩ 10 true 8) true true,
    .slowtimo 1000,
    .packet (zeroes ⟨1, 2, 3, 17⟩ 0 true 48) true true]

theorem ipReass_accounting_slices :
    ∃ reached, consume next slicesRun (initial 100) = some reached ∧ Sound reached ∧
      reached.ip_nfrags = 1#32 ∧ reached.ip_nfragpackets = 1#32 := by
  have allFine : AllFine next Fine slicesRun (initial 100) := by decide +kernel
  obtain ⟨reached, eaten, sound⟩ :=
    ipReass_accounting 100 slicesRun fun front event pre reached => allFine.along pre
  have counters : (consume next slicesRun (initial 100)).map
      (fun reached => (reached.ip_nfrags, reached.ip_nfragpackets)) = some (1#32, 1#32) := by
    decide +kernel
  rw [eaten] at counters
  obtain ⟨frags, packets⟩ := Prod.mk.inj (some.inj counters)
  exact ⟨reached, eaten, sound, frags, packets⟩

/-- The last fragment of a datagram, without data. -/
def emptyFragment : Fragment :=
  zeroes ⟨1, 2, 3, 17⟩ 10 false 0

/-- The table after the empty fragment came `n` times. -/
def crowded (n : Nat) : State :=
  { initial 100 with
    ip_frags := update (fun _ => []) (ipreassHash emptyFragment.key)
      [⟨emptyFragment.key, List.replicate n emptyFragment.entry, ipfragttl, UInt16.ofNat n, 0⟩]
    ip_nfragpackets := 1#32
    ip_nfrags := BitVec.ofNat 32 n }

theorem place_crowded (n : Nat) :
    place (List.replicate (n + 1) emptyFragment.entry) emptyFragment.entry =
      some (List.replicate (n + 2) emptyFragment.entry, 0) := by
  have all : ∀ q ∈ List.replicate (n + 1) emptyFragment.entry,
      decide (q.ip_off.toNat ≤ emptyFragment.entry.ip_off.toNat) = true := by
    intro q isIn
    rw [eq_of_mem_replicate isIn]
    decide
  unfold place
  rw [takeWhile_eq_self_iff.mpr all, dropWhile_eq_nil_iff.mpr all]
  dsimp only
  have longer : List.replicate (n + 1) emptyFragment.entry ++ [emptyFragment.entry] =
      List.replicate (n + 2) emptyFragment.entry := replicate_succ'.symm
  rw [getLast?_replicate, ← longer]
  rfl

theorem next_crowded (n : Nat) :
    next (crowded (n + 1)) (.packet emptyFragment true true) = some (crowded (n + 2)) := by
  have acceptable : emptyFragment.acceptable = true := by decide
  have sameTos : emptyFragment.ip_tos = 0 := rfl
  have wait : scan 0 (List.replicate (n + 2) emptyFragment.entry) = none := by
    rw [replicate_succ, scan]
    exact if_pos (by decide)
  simp only [next, step, ipReassPacket, acceptable, crowded, update_self,
    List.find?_cons_of_pos, decide_true, sameTos, ipReassQueue, place_crowded, finish, wait,
    map_some, Bool.not_true, Bool.false_eq_true, if_false, ne_eq, not_true_eq_false]
  have cnt : UInt16.ofNat (n + 1) + 1 - UInt16.ofNat 0 = UInt16.ofNat (n + 2) := by
    rw [← UInt16.toNat_inj, UInt16.toNat_sub, UInt16.toNat_add, toNat_ofNat',
      toNat_ofNat', toNat_ofNat', UInt16.toNat_one]
    omega
  have counted32 : BitVec.ofNat 32 (n + 1) + 1#32 - 0#32 = BitVec.ofNat 32 (n + 2) := by
    bv_omega
  simp only [setBucket, replaceQueue, cnt, counted32, update_idem, if_true,
    toList_some, append_nil]

theorem next_initial : next (initial 100) (.packet emptyFragment true true) = some (crowded 1) := by
  have acceptable : emptyFragment.acceptable = true := by decide
  have sameTos : emptyFragment.ip_tos = 0 := rfl
  have wait : scan 0 [emptyFragment.entry] = none := by decide
  simp [next, step, ipReassPacket, acceptable, sameTos, initial, ipReassNew, finish, wait,
    setBucket, crowded]

theorem consume_crowded (n : Nat) :
    consume next (List.replicate (n + 1) (.packet emptyFragment true true)) (initial 100) =
      some (crowded (n + 1)) := by
  induction n with
  | zero => simp [consume, next_initial]
  | succ n ih =>
    rw [replicate_succ', consume_append, ih]
    simp [consume, next_crowded]

/-- After 65536 empty fragments the queue's counter is 0. -/
theorem nfrags_wraps : ¬ ∀ (maxfrags : Int) (events : List Event),
    ∃ reached, consume next events (initial maxfrags) = some reached ∧ Sound reached := by
  intro always
  obtain ⟨reached, eaten, sound⟩ :=
    always 100 (List.replicate 65536 (.packet emptyFragment true true))
  rw [consume_crowded 65535] at eaten
  obtain rfl := some.inj eaten
  have isIn : ⟨emptyFragment.key, List.replicate 65536 emptyFragment.entry, ipfragttl,
      UInt16.ofNat 65536, 0⟩ ∈ (crowded 65536).queues := by
    refine @mem_queues (crowded 65536) emptyFragment.key _ ?_
    exact mem_singleton.mpr rfl
  have cnt := sound.counts _ isIn
  rw [length_replicate] at cnt
  exact absurd cnt (by decide)

end Run

end NetBSD.Netinet.Reass
