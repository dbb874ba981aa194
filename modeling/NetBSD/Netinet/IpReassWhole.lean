import NetBSD.Machine.Trace
import NetBSD.Netinet.IpReassBytes

/-!
Owns the reassembly of one datagram. While all fragments of a queue are slices of
one datagram its entries are sorted, disjoint slices that cover what the fragments
cover, and the packet is made by the fragment that completes the cover.
-/

namespace NetBSD.Netinet.Reass

open NetBSD.Machine List Option Fragment

/-- A datagram: its header is that of the slices at offset 0. -/
structure Datagram where
  ip_tos : UInt8
  ip_hl : Nat
  payload : List UInt8
  fits : payload.length + 4 * ip_hl ≤ 65535

structure Datagram.Slice (datagram : Datagram) (frag : Fragment) : Prop where
  tos : frag.ip_tos = datagram.ip_tos
  inside : 8 * frag.offset + frag.data.length ≤ datagram.payload.length
  data : frag.data = (datagram.payload.drop (8 * frag.offset)).take frag.data.length
  last : frag.mf = false ↔ 8 * frag.offset + frag.data.length = datagram.payload.length
  header : frag.offset = 0 → frag.ip_hl = datagram.ip_hl

/-- The fragment has the byte at an offset. -/
def Fragment.Covers (frag : Fragment) (x : Nat) : Prop :=
  8 * frag.offset ≤ x ∧ x < 8 * frag.offset + frag.data.length

instance (frag : Fragment) (x : Nat) : Decidable (frag.Covers x) :=
  inferInstanceAs (Decidable (_ ∧ _))

def Datagram.Covered (datagram : Datagram) (frags : List Fragment) : Prop :=
  ∀ x < datagram.payload.length, ∃ frag ∈ frags, frag.Covers x

instance (datagram : Datagram) (frags : List Fragment) : Decidable (datagram.Covered frags) :=
  inferInstanceAs (Decidable (∀ x < datagram.payload.length, ∃ frag ∈ frags, frag.Covers x))

def Datagram.packet (datagram : Datagram) (key : Key) : Packet :=
  ⟨key, datagram.ip_hl, UInt16.ofNat (4 * datagram.ip_hl + datagram.payload.length),
    datagram.payload⟩

structure Datagram.Part (datagram : Datagram) (entry : Entry) : Prop where
  inside : entry.stop ≤ datagram.payload.length
  data : entry.ipqe_m = (datagram.payload.drop entry.ip_off.toNat).take entry.ip_len.toNat
  last : entry.ipqe_mff = false ↔ entry.stop = datagram.payload.length
  header : entry.ip_off.toNat = 0 → entry.ip_hl = datagram.ip_hl

/-- The entry has the byte at an offset. -/
def Entry.Covers (entry : Entry) (x : Nat) : Prop := entry.ip_off.toNat ≤ x ∧ x < entry.stop

/-- The entries are in order and do not overlap. -/
def Sorted (entries : List Entry) : Prop :=
  entries.Pairwise fun left right => left.stop ≤ right.ip_off.toNat

structure Datagram.Holds (datagram : Datagram) (frags : List Fragment) (entries : List Entry) :
    Prop where
  parts : ∀ entry ∈ entries, datagram.Part entry
  sorted : Sorted entries
  covers : ∀ x, (∃ entry ∈ entries, entry.Covers x) ↔ ∃ frag ∈ frags, frag.Covers x

section Parts

variable {datagram : Datagram} {frag : Fragment} {e : Entry} {entries : List Entry}

theorem Datagram.length_le (datagram : Datagram) : datagram.payload.length ≤ 65535 := by
  have := datagram.fits
  omega

theorem stop_entry (frag : Fragment) : frag.entry.stop = 8 * frag.offset + frag.data.length := by
  rw [Entry.stop, off_entry, len_entry]

theorem covers_entry (frag : Fragment) (x : Nat) : frag.entry.Covers x ↔ frag.Covers x := by
  rw [Entry.Covers, stop_entry, off_entry, Covers]

theorem Datagram.Slice.part (slice : datagram.Slice frag) : datagram.Part frag.entry where
  inside := by
    rw [stop_entry]
    exact slice.inside
  data := by
    rw [off_entry, len_entry]
    exact slice.data
  last := by
    rw [stop_entry]
    exact slice.last
  header := by
    intro atStart
    rw [off_entry] at atStart
    exact slice.header (by omega)

theorem Datagram.Part.trim (part : datagram.Part e) {i : Nat} (aft : 0 < i)
    (lt : i < e.ip_len.toNat) : datagram.Part (e.trim i) := by
  have le := datagram.length_le
  have ends := part.inside
  rw [Entry.stop] at ends
  have noWrap : e.ip_off.toNat + i < 65536 := by omega
  constructor
  · rw [stop_trim noWrap lt.le]
    exact part.inside
  · rw [off_trim noWrap, len_trim]
    show e.ipqe_m.drop i = _
    rw [part.data, drop_take, drop_drop]
  · rw [stop_trim noWrap lt.le]
    exact part.last
  · intro atStart
    rw [off_trim noWrap] at atStart
    omega

theorem Datagram.Part.off_trim (part : datagram.Part e) {i : Nat}
    (lt : i < e.ip_len.toNat) :
    (e.trim i).ip_off.toNat = e.ip_off.toNat + i ∧ (e.trim i).stop = e.stop := by
  have le := datagram.length_le
  have ends := part.inside
  rw [Entry.stop] at ends
  exact ⟨Reass.off_trim (by omega), stop_trim (by omega) lt.le⟩

/-- The loop cuts what lies before `stop` and keeps the rest. -/
theorem overlapLoop_parts (stop : Nat) (parts : ∀ q ∈ entries, datagram.Part q)
    (sort : Sorted entries) :
    (∀ q ∈ (overlapLoop stop entries).1, datagram.Part q ∧ stop ≤ q.ip_off.toNat) ∧
      Sorted (overlapLoop stop entries).1 ∧
      ∀ x, (∃ q ∈ (overlapLoop stop entries).1, q.Covers x) ↔
        stop ≤ x ∧ ∃ q ∈ entries, q.Covers x := by
  induction entries with
  | nil => simp [overlapLoop, Sorted]
  | cons q tl ih =>
    obtain ⟨partFirst, partRest⟩ := forall_mem_cons.mp parts
    obtain ⟨firstBefore, restSorted⟩ := pairwise_cons.mp sort
    unfold overlapLoop
    by_cases s' : stop ≤ q.ip_off.toNat
    · rw [if_pos s']
      have allAfter : ∀ oth ∈ q :: tl, stop ≤ oth.ip_off.toNat := by
        intro oth isIn
        rcases mem_cons.mp isIn with rfl | mem
        · exact s'
        · have := firstBefore oth mem
          rw [Entry.stop] at this
          omega
      refine ⟨fun oth isIn => ⟨parts oth isIn, allAfter oth isIn⟩, sort, fun x => ?_⟩
      constructor
      · rintro ⟨oth, isIn, beg, ends⟩
        have := allAfter oth isIn
        exact ⟨by omega, oth, isIn, beg, ends⟩
      · exact fun both => both.2
    rw [if_neg s']
    by_cases part : stop - q.ip_off.toNat < q.ip_len.toNat
    · rw [if_pos part]
      obtain ⟨trimOff, trimStop⟩ := partFirst.off_trim part
      have beg : (q.trim (stop - q.ip_off.toNat)).ip_off.toNat = stop := by omega
      have ends : stop < q.stop := by
        rw [Entry.stop]
        omega
      refine ⟨?_, ?_, fun x => ?_⟩
      · intro oth isIn
        rcases mem_cons.mp isIn with rfl | mem
        · exact ⟨partFirst.trim (by omega) part, beg.ge⟩
        · have := firstBefore oth mem
          exact ⟨partRest oth mem, by omega⟩
      · refine pairwise_cons.mpr ⟨fun oth mem => ?_, restSorted⟩
        rw [trimStop]
        exact firstBefore oth mem
      · rw [exists_mem_cons_iff, exists_mem_cons_iff, Entry.Covers, trimStop, beg,
          Entry.Covers]
        constructor
        · rintro (inFirst | ⟨oth, mem, cov⟩)
          · exact ⟨inFirst.1, .inl ⟨by omega, inFirst.2⟩⟩
          · have := firstBefore oth mem
            have begins := cov.1
            exact ⟨by omega, .inr ⟨oth, mem, cov⟩⟩
        · rintro ⟨tail, inFirst | mem⟩
          · exact .inl ⟨tail, inFirst.2⟩
          · exact .inr mem
    · rw [if_neg part]
      obtain ⟨keptParts, keptSorted, keptCovers⟩ := ih partRest restSorted
      refine ⟨keptParts, keptSorted, fun x => ?_⟩
      rw [keptCovers x, exists_mem_cons_iff]
      constructor
      · exact fun both => ⟨both.1, .inr both.2⟩
      · rintro ⟨tail, inFirst | mem⟩
        · have ends := inFirst.2
          rw [Entry.stop] at ends
          omega
        · exact ⟨tail, mem⟩

theorem stop_le_last {prev : List Entry} {p q : Entry} (sort : Sorted prev)
    (last : prev.getLast? = some p) (isIn : q ∈ prev) : q = p ∨ q.stop ≤ p.ip_off.toNat := by
  obtain ⟨pre, rfl⟩ := getLast?_eq_some_iff.mp last
  rcases mem_append.mp isIn with inF | isP
  · exact .inr ((pairwise_append.mp sort).2.2 q inF p (mem_singleton.mpr rfl))
  · exact .inl (mem_singleton.mp isP)

/-- A slice put between the slices: nothing is lost and nothing added but its own bytes. -/
theorem place_parts (parts : ∀ q ∈ entries, datagram.Part q) (sort : Sorted entries)
    (part : datagram.Part e) {at' : List Entry} {dequeued : Nat}
    (hpl : place entries e = some (at', dequeued)) :
    (∀ q ∈ at', datagram.Part q) ∧ Sorted at' ∧
      ∀ x, (∃ q ∈ at', q.Covers x) ↔ (∃ q ∈ entries, q.Covers x) ∨ e.Covers x := by
  obtain ⟨prev, s', trim, rfl, hbef, aft, htrim, rfl⟩ := place_eq hpl
  obtain ⟨beforeParts, afterParts⟩ := forall_mem_append.mp parts
  obtain ⟨beforeSorted, afterSorted, _⟩ := pairwise_append.mp sort
  obtain ⟨keptParts, keptSorted, keptCovers⟩ := overlapLoop_parts trim.stop
    afterParts afterSorted
  -- the incoming slice starts where the preceding one ends, if that overlaps it
  have isEnd : datagram.Part trim ∧ trim.stop = e.stop ∧
      (∀ q ∈ prev, q.stop ≤ trim.ip_off.toNat) ∧
      ∀ x, e.ip_off.toNat ≤ x → x < trim.ip_off.toNat → ∃ q ∈ prev, q.Covers x := by
    rcases trimByPrevious_cases htrim with ⟨rfl, free⟩ | ⟨p, last, overlaps, lt, rfl⟩
    · refine ⟨part, rfl, fun q isIn => ?_, fun x beg ends => by omega⟩
      cases last : prev.getLast? with
      | none =>
        rw [getLast?_eq_none_iff.mp last] at isIn
        cases isIn
      | some p =>
        have hfr := free p last
        rcases stop_le_last beforeSorted last isIn with rfl | old
        · exact hfr
        · have := hbef p (mem_of_getLast? last)
          omega
    · obtain ⟨trimOff, trimStop⟩ := part.off_trim lt
      have mem := mem_of_getLast? last
      have beg := hbef p mem
      refine ⟨part.trim (by omega) lt, trimStop, fun q isIn => ?_, fun x fst second => ?_⟩
      · rcases stop_le_last beforeSorted last isIn with rfl | old
        · omega
        · omega
      · exact ⟨p, mem, by omega, by omega⟩
  obtain ⟨trimmedPart, sameStop, allBefore, isProvided⟩ := isEnd
  have bhd : ∀ q ∈ s', e.ip_off.toNat < q.ip_off.toNat := by
    intro q isIn
    cases s' with
    | nil => cases isIn
    | cons head tail =>
      have fst := aft head rfl
      rcases mem_cons.mp isIn with rfl | inTail
      · exact fst
      · have := (pairwise_cons.mp afterSorted).1 q inTail
        rw [Entry.stop] at this
        omega
  have ge : e.ip_off.toNat ≤ trim.ip_off.toNat ∧
      trim.ip_off.toNat ≤ trim.stop := by
    refine ⟨?_, Nat.le_add_right _ _⟩
    rcases trimByPrevious_cases htrim with ⟨rfl, _⟩ | ⟨p, _, _, lt, rfl⟩
    · exact le_refl _
    · rw [(part.off_trim lt).1]
      omega
  refine ⟨?_, ?_, fun x => ?_⟩
  · exact forall_mem_append.mpr ⟨beforeParts,
      forall_mem_cons.mpr ⟨trimmedPart, fun q isIn => (keptParts q isIn).1⟩⟩
  · refine pairwise_append.mpr ⟨beforeSorted, pairwise_cons.mpr
      ⟨fun q isIn => (keptParts q isIn).2, keptSorted⟩, fun q mem other isIn => ?_⟩
    have old := allBefore q mem
    rcases mem_cons.mp isIn with rfl | inKept
    · exact old
    · have := (keptParts other inKept).2
      omega
  · simp only [mem_append, mem_cons, or_and_right, exists_or, exists_eq_left, keptCovers x]
    constructor
    · rintro (mem | inTrimmed | ⟨_, inAfter⟩)
      · exact .inl (.inl mem)
      · exact .inr ⟨by have := inTrimmed.1; omega, by rw [← sameStop]; exact inTrimmed.2⟩
      · exact .inl (.inr inAfter)
    have inEntry : e.Covers x → (∃ q ∈ prev, q.Covers x) ∨ trim.Covers x := by
      rintro ⟨beg, ends⟩
      by_cases early : x < trim.ip_off.toNat
      · exact .inl (isProvided x beg early)
      · exact .inr ⟨by omega, by omega⟩
    rintro ((mem | ⟨q, isIn, cov⟩) | ent)
    · exact .inl mem
    · by_cases late : trim.stop ≤ x
      · exact .inr (.inr ⟨late, q, isIn, cov⟩)
      · have := bhd q isIn
        have beg := cov.1
        rcases inEntry ⟨by omega, by omega⟩ with mem | inTrimmed
        · exact .inl mem
        · exact .inr (.inl inTrimmed)
    · rcases inEntry ent with mem | inTrimmed
      · exact .inl mem
      · exact .inr (.inl inTrimmed)

theorem place_none (isDropped : place entries e = none) {x : Nat} (cov : e.Covers x) :
    ∃ q ∈ entries, q.Covers x := by
  have trim := map_eq_none_iff.mp isDropped
  unfold trimByPrevious at trim
  cases isLast : (entries.takeWhile fun q =>
      decide (q.ip_off.toNat ≤ e.ip_off.toNat)).getLast? with
  | none =>
    rw [isLast] at trim
    cases trim
  | some p =>
    rw [isLast] at trim
    dsimp only at trim
    have isIn := mem_of_getLast? isLast
    have pss := mem_takeWhile_imp isIn
    have beg := of_decide_eq_true pss
    split at trim
    · split at trim
      · have begins := cov.1
        have ends := cov.2
        rw [Entry.stop] at ends
        exact ⟨p, ( takeWhile_prefix _).subset isIn, by omega, by omega⟩
      · cases trim
    · cases trim

end Parts

section Scan

variable {datagram : Datagram} {entries : List Entry}

variable {start : Nat}

theorem scan_of_covers (lt : start ≤ datagram.payload.length)
    (parts : ∀ q ∈ entries, datagram.Part q) (sort : Sorted entries)
    (tail : ∀ q ∈ entries, start ≤ q.ip_off.toNat)
    (cov : ∀ x, start ≤ x → x < datagram.payload.length → ∃ q ∈ entries, q.Covers x) :
    scan start entries = some datagram.payload.length := by
  induction entries generalizing start with
  | nil =>
    by_cases atEnd : start = datagram.payload.length
    · rw [scan, atEnd]
    · obtain ⟨q, isIn, _⟩ := cov start (le_refl _) (by omega)
      cases isIn
  | cons q tl ih =>
    obtain ⟨partFirst, partRest⟩ := forall_mem_cons.mp parts
    obtain ⟨firstBefore, restSorted⟩ := pairwise_cons.mp sort
    have firstBehind := tail q mem_cons_self
    have ends := partFirst.inside
    have isStop : q.stop = q.ip_off.toNat + q.ip_len.toNat := rfl
    have next : q.ip_off.toNat = start := by
      by_cases atEnd : start = datagram.payload.length
      · omega
      · obtain ⟨oth, isIn, beg, _⟩ := cov start (le_refl _) (by omega)
        rcases mem_cons.mp isIn with rfl | mem
        · omega
        · have := firstBefore oth mem
          omega
    rw [scan, if_neg (by omega), ← next]
    refine ih ends partRest restSorted firstBefore fun x late isIn => ?_
    obtain ⟨oth, inAll, covers⟩ := cov x (by omega) isIn
    rcases mem_cons.mp inAll with rfl | mem
    · exact absurd covers.2 (by omega)
    · exact ⟨oth, mem, covers⟩

theorem covers_of_scan {next : Nat} (scn : scan start entries = some next) {x : Nat}
    (beg : start ≤ x) (ends : x < next) : ∃ q ∈ entries, q.Covers x := by
  induction entries generalizing start with
  | nil =>
    have same := some.inj scn
    omega
  | cons q tl ih =>
    unfold scan at scn
    split at scn
    · cases scn
    by_cases inFirst : x < start + q.ip_len.toNat
    · refine ⟨q, mem_cons_self, by omega, ?_⟩
      rw [Entry.stop]
      omega
    · obtain ⟨oth, mem, cov⟩ := ih scn (by omega)
      exact ⟨oth, mem_cons_of_mem q mem, cov⟩

theorem stop_last_of_scan {next : Nat} (scn : scan start entries = some next) {last : Entry}
    (lst : entries.getLast? = some last) : last.stop = next := by
  induction entries generalizing start with
  | nil => cases lst
  | cons q tl ih =>
    unfold scan at scn
    split at scn
    · cases scn
    cases tl with
    | nil =>
      rw [getLast?_singleton] at lst
      obtain rfl := some.inj lst
      obtain rfl := some.inj scn
      rw [Entry.stop]
      omega
    | cons snd oths =>
      exact ih scn lst

theorem payload_of_scan {next : Nat} (parts : ∀ q ∈ entries, datagram.Part q)
    (scn : scan start entries = some next) :
    entries.flatMap Entry.ipqe_m = (datagram.payload.drop start).take (next - start) := by
  induction entries generalizing start with
  | nil =>
    obtain rfl := some.inj scn
    simp
  | cons q tl ih =>
    obtain ⟨partFirst, partRest⟩ := forall_mem_cons.mp parts
    unfold scan at scn
    split at scn
    · cases scn
    have le := (stop_of_scan scn).1
    have beg : q.ip_off.toNat = start := by omega
    have whole : next - start = q.ip_len.toNat + (next - (start + q.ip_len.toNat)) := by
      omega
    rw [flatMap_cons, ih partRest scn, partFirst.data, beg, whole,
      take_add, drop_drop]

/-- The datagram goes up once it is covered. -/
theorem outcome_of_holds {frags : List Fragment} {fp : Queue}
    (holds : datagram.Holds frags fp.ipq_fragq) (full : fp.ipq_fragq ≠ []) :
    fp.outcome = if datagram.Covered frags then (none, some (datagram.packet fp.key))
      else (some fp, none) := by
  have fst := head?_eq_some_head full
  have lst := getLast?_eq_some_getLast full
  generalize fp.ipq_fragq.head full = first at fst
  generalize fp.ipq_fragq.getLast full = last at lst
  have lastPart := holds.parts last (mem_of_getLast? lst)
  unfold Queue.outcome
  rw [fst, lst]
  by_cases cov : datagram.Covered frags
  · have scn : scan 0 fp.ipq_fragq = some datagram.payload.length := by
      refine scan_of_covers (Nat.zero_le _) holds.parts holds.sorted (fun q _ => Nat.zero_le _)
        fun x _ lt => ?_
      exact (holds.covers x).mpr (cov x lt)
    have noMore : last.ipqe_mff = false :=
      lastPart.last.mpr (stop_last_of_scan scn lst)
    have atStart : first.ip_off.toNat = 0 := by
      obtain ⟨tl, isCons⟩ := head?_eq_some_iff.mp fst
      rw [isCons, scan] at scn
      by_contra notStart
      rw [if_pos notStart] at scn
      cases scn
    have sameHeader : first.ip_hl = datagram.ip_hl :=
      (holds.parts first (mem_of_head? fst)).header atStart
    have payload := payload_of_scan holds.parts scn
    rw [Nat.sub_zero, drop_zero, List.take_length] at payload
    have fits := datagram.fits
    rw [scn, if_pos cov]
    dsimp only
    rw [noMore, if_neg Bool.false_ne_true, if_neg (by omega), Queue.packet, payload, sameHeader]
    rfl
  · rw [if_neg cov]
    cases scn : scan 0 fp.ipq_fragq with
    | none => rfl
    | some next =>
      dsimp only
      have more : last.ipqe_mff = true := by
        by_contra noMore
        have ends := lastPart.last.mp (by simpa using noMore)
        rw [stop_last_of_scan scn lst] at ends
        refine cov fun x lt => (holds.covers x).mp ?_
        exact covers_of_scan scn (Nat.zero_le x) (by omega)
      rw [more, if_pos rfl]

end Scan

/-!
### Whole runs

What `ip_reass_packet` returns over whole runs. A run is tracked with the
fragments handed in so far and, for each key, those that count since its queue was
created.
-/

structure Tracked where
  state : State
  sent : List Fragment
  since : Key → List Fragment

def Event.sent : Event → List Fragment
  | .packet frag _ _ => [frag]
  | _ => []

def Event.counted (counts : Fragment → Bool) (key : Key) : Event → List Fragment
  | .packet frag gotEntry _ =>
    if frag.key = key ∧ counts frag = true ∧ gotEntry = true then [frag] else []
  | _ => []

def Tracked.after (tracked : Tracked) (counts : Fragment → Bool) (event : Event) (state : State) :
    Tracked :=
  { state := state
    sent := tracked.sent ++ event.sent
    since := fun key =>
      if (state.find key).isSome then tracked.since key ++ event.counted counts key else [] }

def track (counts : Fragment → Bool) (tracked : Tracked) (event : Event) : Option Tracked :=
  (next tracked.state event).map (tracked.after counts event)

def start (maxfrags : Int) : Tracked := ⟨initial maxfrags, [], fun _ => []⟩

def Reply.packet (reply : Reply) : Option Packet := reply.toOption.join

/-- Every packet that a call returns is made of bytes received for its key. -/
def OnlyReceived (tracked : Tracked) : Prop :=
  ∀ frag gotEntry gotQueue packet,
    (ipReassPacket tracked.state frag gotEntry gotQueue).2.packet = some packet →
    packet.Right (tracked.sent ++ [frag]) frag.key

/-- When the fragments that count since the queue was created are slices of one datagram, a call
returns it exactly when its fragment completes the cover. -/
def ReturnsDatagrams (counts : Fragment → Bool) (tracked : Tracked) : Prop :=
  ∀ (frag : Fragment) (datagram : Datagram), counts frag = true →
    (tracked.state.find frag.key = none → tracked.state.room true = true) →
    (∀ other ∈ tracked.since frag.key ++ [frag], datagram.Slice other) →
    (ipReassPacket tracked.state frag true true).2.packet =
      if datagram.Covered (tracked.since frag.key ++ [frag]) then
        some (datagram.packet frag.key)
      else none

/-- A queue whose fragments are slices of a datagram holds what they cover, and that is not all. -/
def Waits (frags : List Fragment) (fp : Queue) : Prop :=
  ∀ datagram : Datagram, (∀ frag ∈ frags, datagram.Slice frag) →
    fp.ipq_tos = datagram.ip_tos ∧ datagram.Holds frags fp.ipq_fragq ∧ ¬ datagram.Covered frags

def Keeps (found : Option Queue) (frags : List Fragment) : Prop :=
  match found with
  | none => frags = []
  | some fp => Waits frags fp

section Receive

variable {datagram : Datagram} {frags : List Fragment} {frag : Fragment}

theorem exists_covers_append {x : Nat} :
    (∃ oth ∈ frags ++ [frag], oth.Covers x) ↔ (∃ oth ∈ frags, oth.Covers x) ∨
      frag.Covers x := by
  simp only [mem_append, mem_singleton, or_and_right, exists_or, exists_eq_left]

variable {found : Option Queue}

theorem Joins.holds {fp : Queue} (joins : Joins frag found fp) (keeps : Keeps found frags)
    (slices : ∀ oth ∈ frags ++ [frag], datagram.Slice oth) :
    fp.ipq_tos = datagram.ip_tos ∧ datagram.Holds (frags ++ [frag]) fp.ipq_fragq ∧
      fp.ipq_fragq ≠ [] := by
  obtain ⟨oldSlices, newSlices⟩ := forall_mem_append.mp slices
  have slice := newSlices frag mem_cons_self
  cases joins with
  | enters old entries dequeued hpl =>
    obtain ⟨sameTos, holds, _⟩ := keeps datagram oldSlices
    obtain ⟨parts, sort, cov⟩ := place_parts holds.parts holds.sorted slice.part hpl
    refine ⟨sameTos, ⟨parts, sort, fun x => ?_⟩, ?_⟩
    · rw [exists_covers_append, ← holds.covers, ← covers_entry]
      exact cov x
    · obtain ⟨prev, s', trim, _, _, _, _, lst⟩ := place_eq hpl
      rw [Queue.enter, lst]
      simp
  | creates =>
    obtain rfl : frags = [] := keeps
    refine ⟨slice.tos, ⟨?_, ?_, fun x => ?_⟩, cons_ne_nil _ _⟩
    · intro e isIn
      obtain rfl := mem_singleton.mp isIn
      exact slice.part
    · exact pairwise_singleton _ _
    · rw [exists_covers_append, ← covers_entry]
      simp [queue]

theorem Joins.outcome {fp : Queue} (joins : Joins frag found fp) (keeps : Keeps found frags)
    (slices : ∀ oth ∈ frags ++ [frag], datagram.Slice oth) (sameKey : fp.key = frag.key) :
    fp.outcome.2 =
      (if datagram.Covered (frags ++ [frag]) then some (datagram.packet frag.key) else none) ∧
    ∀ new, fp.outcome.1 = some new → new.ipq_tos = datagram.ip_tos ∧
      datagram.Holds (frags ++ [frag]) new.ipq_fragq ∧ ¬ datagram.Covered (frags ++ [frag]) := by
  obtain ⟨sameTos, holds, full⟩ := joins.holds keeps slices
  rw [outcome_of_holds holds full]
  by_cases cov : datagram.Covered (frags ++ [frag])
  · rw [if_pos cov, if_pos cov, sameKey]
    exact ⟨rfl, fun new miss => by cases miss⟩
  · rw [if_neg cov, if_neg cov]
    refine ⟨rfl, fun new isNew => ?_⟩
    obtain rfl := some.inj isNew
    exact ⟨sameTos, holds, cov⟩

/-- A slice completes the datagram or is held with the others. -/
theorem receive_slices {rm : Bool} (acceptable : frag.acceptable = true)
    (isKey : ∀ fp, found = some fp → fp.key = frag.key) (keeps : Keeps found frags)
    (slices : ∀ oth ∈ frags ++ [frag], datagram.Slice oth) :
    ((found = none → rm = true) → (receive frag found true rm).2.packet =
      if datagram.Covered (frags ++ [frag]) then some (datagram.packet frag.key) else none) ∧
    ∀ new, (receive frag found true rm).1 = some new → new.ipq_tos = datagram.ip_tos ∧
      datagram.Holds (frags ++ [frag]) new.ipq_fragq ∧ ¬ datagram.Covered (frags ++ [frag]) := by
  obtain ⟨oldSlices, newSlices⟩ := forall_mem_append.mp slices
  unfold receive
  rw [acceptable]
  cases found with
  | some fp =>
    obtain ⟨sameTos, holds, notCovered⟩ := keeps datagram oldSlices
    have isTos : fp.ipq_tos = frag.ip_tos :=
      sameTos.trans (newSlices frag mem_cons_self).tos.symm
    simp only [isTos, if_false, ne_eq, not_true_eq_false]
    cases isPlaced : place fp.ipq_fragq frag.entry with
    | none =>
      -- the preceding slice has all bytes of this one
      have same : ∀ x, (∃ oth ∈ frags ++ [frag], oth.Covers x) ↔
          ∃ oth ∈ frags, oth.Covers x := by
        intro x
        rw [exists_covers_append, or_iff_left_iff_imp]
        intro covers
        rw [← covers_entry] at covers
        exact (holds.covers x).mp (place_none isPlaced covers)
      have stillNot : ¬ datagram.Covered (frags ++ [frag]) :=
        fun cov => notCovered fun x inside => (same x).mp (cov x inside)
      rw [if_neg stillNot]
      refine ⟨fun _ => rfl, fun new isNew => ?_⟩
      obtain rfl := some.inj isNew
      exact ⟨sameTos, ⟨holds.parts, holds.sorted, fun x => (holds.covers x).trans (same x).symm⟩,
        stillNot⟩
    | some at' =>
      obtain ⟨entries, dequeued⟩ := at'
      obtain ⟨packet, waits⟩ := (Joins.enters fp entries dequeued isPlaced).outcome keeps slices
        (isKey fp rfl)
      exact ⟨fun _ => packet, waits⟩
  | none =>
    have joins : Joins frag none frag.queue := .creates
    obtain ⟨packet, waits⟩ := joins.outcome keeps slices rfl
    cases rm with
    | true => exact ⟨fun _ => packet, waits⟩
    | false =>
      refine ⟨fun hasRoom => ?_, fun new absent => ?_⟩
      · cases hasRoom rfl
      · cases absent

theorem receive_refused {gotE rm : Bool}
    (refused : ¬ (frag.acceptable = true ∧ gotE = true)) :
    (receive frag found gotE rm).1 = found := by
  unfold receive
  by_cases acceptable : frag.acceptable = true
  · have noEntry : gotE = false := by
      simpa [acceptable] using refused
    rw [acceptable, noEntry]
    cases found with
    | some fp =>
      dsimp only
      split
      · rename_i wrong
        cases wrong
      · split
        · rfl
        · rfl
    | none => rfl
  · rw [if_pos (by simpa using acceptable)]

theorem Keeps.received {gotE rm : Bool} (keeps : Keeps found frags)
    (isKey : ∀ fp, found = some fp → fp.key = frag.key) :
    Keeps (receive frag found gotE rm).1 (if (receive frag found gotE rm).1.isSome then
        frags ++ (if frag.key = frag.key ∧ frag.acceptable = true ∧ gotE = true then [frag]
          else [])
      else []) := by
  by_cases taken : frag.acceptable = true ∧ gotE = true
  · obtain ⟨acceptable, rfl⟩ := taken
    cases isNew : (receive frag found true rm).1 with
    | none => rfl
    | some new =>
      rw [isSome_some, if_pos rfl, if_pos ⟨rfl, acceptable, rfl⟩]
      intro datagram slices
      exact (receive_slices acceptable isKey keeps slices).2 new isNew
  · have notTaken : ¬ (frag.key = frag.key ∧ frag.acceptable = true ∧ gotE = true) :=
      fun all => taken all.2
    rw [receive_refused taken, if_neg notTaken, append_nil]
    cases found with
    | none => rfl
    | some fp => exact keeps

end Receive

section Run

/-- What holds of every tracked state. -/
structure Tracks (tracked : Tracked) : Prop where
  unique : Unique tracked.state
  faithful : Faithful tracked.state tracked.sent
  keeps : ∀ key, Keeps (tracked.state.find key) (tracked.since key)

theorem Keeps.thinned {st s' : State} (thinned : Thinned st s') {key : Key}
    {frags : List Fragment} (keeps : Keeps (st.find key) frags) :
    Keeps (s'.find key) (if (s'.find key).isSome then frags ++ [] else []) := by
  rw [append_nil]
  rcases thinned.finds key with isGone | ⟨fp, ttl, found, isKept⟩
  · rw [isGone]
    rfl
  · rw [isKept]
    rw [found] at keeps
    exact keeps

theorem Tracks.thinned {tracked : Tracked} (tracks : Tracks tracked) {st : State}
    (thinned : Thinned tracked.state st) {event : Event} (notSent : event.sent = [])
    (notCounted : ∀ key, event.counted acceptable key = []) :
    Tracks (tracked.after acceptable event st) where
  unique := thinned.unique
  faithful := by
    rw [Tracked.after, notSent, append_nil]
    exact tracks.faithful.thinned thinned
  keeps := by
    intro key
    simp only [Tracked.after, notCounted]
    exact (tracks.keeps key).thinned thinned

/-- The ghost history follows every event. -/
theorem track_tracks {tracked s' : Tracked} {event : Event} (tracks : Tracks tracked)
    (moved : track acceptable tracked event = some s') : Tracks s' := by
  obtain ⟨st, next', rfl⟩ := map_eq_some_iff.mp moved
  cases event with
  | packet frag gotE gotQueue =>
    have isState : (ipReassPacket tracked.state frag gotE gotQueue).1 = st :=
      some.inj next'
    obtain ⟨received, _⟩ := ipReassPacket_received tracks.unique frag gotE gotQueue
    rw [isState] at received
    constructor
    · exact received.unique
    · exact (tracks.faithful.received received).1
    · intro key
      simp only [Tracked.after]
      by_cases same : key = frag.key
      · subst same
        rw [received.own]
        exact (tracks.keeps frag.key).received fun fp found => find?_key found
      · have notCounted : Event.counted acceptable key
            (.packet frag gotE gotQueue) = [] :=
          if_neg fun all => same all.1.symm
        rw [received.others key same, notCounted]
        exact (tracks.keeps key).thinned (.refl tracks.unique)
  | slowtimo nmbclusters =>
    obtain ⟨aged, isAged, rfl⟩ : ∃ aged, ipReassSlowtimo tracked.state nmbclusters = some aged ∧
        aged = st := by
      simpa [next, step] using next'
    exact tracks.thinned (thinned_slowtimo tracks.unique isAged) rfl fun _ => rfl
  | drain entered =>
    obtain ⟨drained, isDrained, rfl⟩ : ∃ drained,
        ipReassDrain tracked.state entered = some drained ∧ drained = st := by
      simpa [next, step] using next'
    exact tracks.thinned (thinned_drain tracks.unique isDrained) rfl fun _ => rfl
  | setMax maxfragpackets =>
    have thinned := (Thinned.refl tracks.unique).of_frags
      { tracked.state with ip_maxfragpackets := maxfragpackets } rfl
    obtain rfl := some.inj next'
    exact tracks.thinned thinned rfl fun _ => rfl

theorem tracks_start (maxfrags : Int) : Tracks (start maxfrags) where
  unique := fun _ => nodup_nil
  faithful := by
    intro key fp found
    cases found
  keeps := fun _ => rfl

/-- In every state reached a call returns only bytes received for its key, and a datagram whose
slices pass the checks exactly when it is complete. -/
theorem ipReass_returns (maxfrags : Int) (events : List Event) (tracked : Tracked)
    (reached : consume (track Fragment.acceptable) events (start maxfrags) = some tracked) :
    OnlyReceived tracked ∧ ReturnsDatagrams Fragment.acceptable tracked := by
  have tracks : Tracks tracked := consume_safe (track acceptable) Tracks
    (fun _ _ => True) (fun _ _ _ holds _ moved => track_tracks holds moved) events
    (tracks_start maxfrags) (fun _ _ _ _ _ => trivial) reached
  constructor
  · intro frag gotE gotQueue packet made
    obtain ⟨received, sameReply⟩ := ipReassPacket_received tracks.unique frag gotE gotQueue
    rw [sameReply] at made
    exact (tracks.faithful.received received).2 packet made
  · intro frag datagram acceptable hasRoom slices
    obtain ⟨_, sameReply⟩ := ipReassPacket_received tracks.unique frag true true
    rw [sameReply]
    exact (receive_slices acceptable (fun fp found => find?_key found) (tracks.keeps frag.key)
      slices).1 hasRoom

/-- The last 32 bytes of 80. They are accepted and create a queue. -/
def lastSlice : Fragment :=
  zeroes ⟨1, 2, 3, 17⟩ 6 false 32

/-- The 48 bytes before them. -/
def openingSlice : Fragment :=
  zeroes ⟨1, 2, 3, 17⟩ 0 true 48

def wholeDatagram : Datagram := ⟨0, 5, List.replicate 80 0, by decide⟩

/-- The last slice waits while the timer runs; then the opening slice completes the datagram. -/
theorem ipReass_returns_last : ∃ tracked,
    consume (track Fragment.acceptable) [.packet lastSlice true true, .slowtimo 1000] (start 100) =
        some tracked ∧ OnlyReceived tracked ∧
      (ipReassPacket tracked.state openingSlice true true).2.packet =
        some (wholeDatagram.packet openingSlice.key) := by
  obtain ⟨tracked, eaten, since⟩ : ∃ tracked,
      consume (track Fragment.acceptable) [.packet lastSlice true true, .slowtimo 1000]
        (start 100) = some tracked ∧
      tracked.since openingSlice.key = [lastSlice] ∧
        (tracked.state.find openingSlice.key).isSome := ⟨_, rfl, rfl, rfl⟩
  obtain ⟨received, returns⟩ := ipReass_returns 100 _ tracked eaten
  have isPacket := returns openingSlice wholeDatagram rfl
    (fun miss => by rw [miss] at since; cases since.2)
  rw [since.1] at isPacket
  have slices : ∀ frag ∈ [lastSlice, openingSlice], wholeDatagram.Slice frag := by
    intro frag isIn
    simp only [mem_cons, not_mem_nil, or_false] at isIn
    rcases isIn with rfl | rfl
    · exact ⟨by decide, by decide, by decide, by decide, by decide⟩
    · exact ⟨by decide, by decide, by decide, by decide, by decide⟩
  exact ⟨tracked, eaten, received, (isPacket slices).trans (if_pos (by decide))⟩

/-- The first 40 bytes of 80: the packet has less than 68 bytes. -/
def firstSlice : Fragment :=
  zeroes ⟨1, 2, 3, 17⟩ 0 true 40

/-- The 8 bytes behind them: they start less than 68 bytes behind the start of the packet. -/
def middleSlice : Fragment :=
  zeroes ⟨1, 2, 3, 17⟩ 5 true 8

theorem slices_wholeDatagram :
    ∀ frag ∈ [lastSlice, firstSlice, middleSlice], wholeDatagram.Slice frag := by
  intro frag isIn
  simp only [mem_cons, not_mem_nil, or_false] at isIn
  rcases isIn with rfl | rfl | rfl
  · exact ⟨by decide, by decide, by decide, by decide, by decide⟩
  · exact ⟨by decide, by decide, by decide, by decide, by decide⟩
  · exact ⟨by decide, by decide, by decide, by decide, by decide⟩

theorem tracked_shortSlices : ∃ tracked,
    consume (track fun _ => true) [.packet lastSlice true true, .packet firstSlice true true]
      (start 100) = some tracked ∧
    tracked.since middleSlice.key = [lastSlice, firstSlice] ∧
    tracked.state.find middleSlice.key = some lastSlice.queue ∧
    (ipReassPacket tracked.state middleSlice true true).2.packet = none :=
  ⟨_, rfl, rfl, rfl, rfl⟩

/-- With the slices counted that are refused as too short, the datagram is not returned. -/
theorem shortSlices_refused : ¬ ∀ (maxfrags : Int) (events : List Event) (tracked : Tracked),
    consume (track fun _ => true) events (start maxfrags) = some tracked →
    OnlyReceived tracked ∧ ReturnsDatagrams (fun _ => true) tracked := by
  intro always
  obtain ⟨tracked, eaten, since, found, noPacket⟩ := tracked_shortSlices
  have ret := (always 100 _ tracked eaten).2 middleSlice wholeDatagram rfl
  rw [since, found] at ret
  have isPacket := ret (fun miss => by cases miss) slices_wholeDatagram
  cases isPacket

end Run

end NetBSD.Netinet.Reass
