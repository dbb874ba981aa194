import Mathlib.Data.List.TakeWhile
import NetBSD.Netinet.IpReassFind

/-!
Owns the bytes of a reassembly queue, whatever fragments arrive. As long as no
entry reaches 65536 every byte was carried by a fragment of the same key at its
offset; an entry that reaches it stays until another does, and a queue with such an
entry never makes a packet.
-/

namespace NetBSD.Netinet.Reass

open List Option UInt16

def Fragment.Carries (frag : Fragment) (x : Nat) (byte : UInt8) : Prop :=
  8 * frag.offset ≤ x ∧ frag.data[x - 8 * frag.offset]? = some byte

def Carried (sent : List Fragment) (key : Key) (entry : Entry) : Prop :=
  ∀ j byte, entry.ipqe_m[j]? = some byte →
    ∃ frag ∈ sent, frag.key = key ∧ frag.Carries (entry.ip_off.toNat + j) byte

structure Held (sent : List Fragment) (key : Key) (entries : List Entry) : Prop where
  lengths : ∀ entry ∈ entries, entry.ipqe_m.length = entry.ip_len.toNat
  carried : (∃ entry ∈ entries, 65536 ≤ entry.stop) ∨ ∀ entry ∈ entries, Carried sent key entry

section Trim

variable {sent : List Fragment} {key : Key} {e : Entry} {i : Nat}

theorem length_trim (len : e.ipqe_m.length = e.ip_len.toNat)
    (_part : i < e.ip_len.toNat) :
    (e.trim i).ipqe_m.length = (e.trim i).ip_len.toNat := by
  have sml := e.ip_len.toNat_lt
  simp only [Entry.trim, length_drop, toNat_ofNat']
  omega

theorem off_trim (lt : e.ip_off.toNat + i < 65536) :
    (e.trim i).ip_off.toNat = e.ip_off.toNat + i := by
  simp only [Entry.trim, toNat_ofNat']
  omega

theorem len_trim : (e.trim i).ip_len.toNat = e.ip_len.toNat - i := by
  have sml := e.ip_len.toNat_lt
  simp only [Entry.trim, toNat_ofNat']
  omega

theorem stop_trim (lt : e.ip_off.toNat + i < 65536) (part : i ≤ e.ip_len.toNat) :
    (e.trim i).stop = e.stop := by
  rw [Entry.stop, off_trim lt, len_trim, Entry.stop]
  omega

theorem Carried.trim (carried : Carried sent key e) (lt : e.ip_off.toNat + i < 65536) :
    Carried sent key (e.trim i) := by
  intro j byte isByte
  have isOld : e.ipqe_m[i + j]? = some byte := by
    rw [← getElem?_drop]
    exact isByte
  obtain ⟨frag, isSent, sameKey, carries⟩ := carried (i + j) byte isOld
  refine ⟨frag, isSent, sameKey, ?_⟩
  rw [off_trim lt, add_assoc]
  exact carries

theorem Carried.mono {more : List Fragment} (carried : Carried sent key e) :
    Carried (sent ++ more) key e := by
  intro j byte isByte
  obtain ⟨frag, isSent, tl⟩ := carried j byte isByte
  exact ⟨frag, mem_append_left more isSent, tl⟩

theorem Held.mono {entries : List Entry} (held : Held sent key entries) (more : List Fragment) :
    Held (sent ++ more) key entries :=
  ⟨held.lengths, held.carried.imp id fun all e isIn => (all e isIn).mono⟩

end Trim

variable {frag : Fragment}

section Place

variable {sent : List Fragment} {key : Key} {entries placed : List Entry} {e : Entry}

theorem lengths_overlapLoop (stop : Nat)
    (lens : ∀ q ∈ entries, q.ipqe_m.length = q.ip_len.toNat) :
    ∀ q ∈ (overlapLoop stop entries).1, q.ipqe_m.length = q.ip_len.toNat := by
  induction entries with
  | nil => exact lens
  | cons q tl ih =>
    have restLengths := (forall_mem_cons.mp lens).2
    unfold overlapLoop
    split
    · exact lens
    dsimp only
    split
    · rename_i part
      exact forall_mem_cons.mpr ⟨length_trim (lens q mem_cons_self) part, restLengths⟩
    · exact ih restLengths

/-- When no entry that stays reaches 65536 none did, and the bytes are still carried. -/
theorem carried_overlapLoop (sent : List Fragment) (key : Key) {stop : Nat} (lt : stop < 65536)
    (sml : ∀ q ∈ (overlapLoop stop entries).1, q.stop < 65536) :
    (∀ q ∈ entries, q.stop < 65536) ∧ ((∀ q ∈ entries, Carried sent key q) →
        ∀ q ∈ (overlapLoop stop entries).1, Carried sent key q) := by
  induction entries with
  | nil => exact ⟨sml, id⟩
  | cons q tl ih =>
    unfold overlapLoop at sml ⊢
    by_cases s' : stop ≤ q.ip_off.toNat
    · rw [if_pos s'] at sml ⊢
      exact ⟨sml, id⟩
    rw [if_neg s'] at sml ⊢
    by_cases part : stop - q.ip_off.toNat < q.ip_len.toNat
    · rw [if_pos part] at sml ⊢
      obtain ⟨trimmedSmall, restSmall⟩ := forall_mem_cons.mp sml
      have noWrap : q.ip_off.toNat + (stop - q.ip_off.toNat) < 65536 := by omega
      rw [stop_trim noWrap part.le] at trimmedSmall
      refine ⟨forall_mem_cons.mpr ⟨trimmedSmall, restSmall⟩, fun carried => ?_⟩
      obtain ⟨fst, oths⟩ := forall_mem_cons.mp carried
      exact forall_mem_cons.mpr ⟨fst.trim noWrap, oths⟩
    rw [if_neg part] at sml ⊢
    obtain ⟨restSmall, restCarried⟩ := ih sml
    have cov : q.stop < 65536 := by
      rw [Entry.stop]
      omega
    exact ⟨forall_mem_cons.mpr ⟨cov, restSmall⟩,
      fun carried => restCarried (forall_mem_cons.mp carried).2⟩

theorem place_eq {dequeued : Nat} (hpl : place entries e = some (placed, dequeued)) :
    ∃ prev s' trim, entries = prev ++ s' ∧
      (∀ q ∈ prev, q.ip_off.toNat ≤ e.ip_off.toNat) ∧
      (∀ q, s'.head? = some q → e.ip_off.toNat < q.ip_off.toNat) ∧
      trimByPrevious prev.getLast? e = some trim ∧
      placed = prev ++ trim :: (overlapLoop trim.stop s').1 := by
  obtain ⟨trim, htrim, same⟩ := map_eq_some_iff.mp hpl
  obtain ⟨rfl, rfl⟩ := Prod.mk.inj same
  refine ⟨_, _, trim, (takeWhile_append_dropWhile).symm, ?_, ?_, htrim, rfl⟩
  · intro q isIn
    have pss := mem_takeWhile_imp isIn
    exact of_decide_eq_true pss
  · intro q hd
    have isNot := head?_dropWhile_not (fun q : Entry =>
      decide (q.ip_off.toNat ≤ e.ip_off.toNat)) entries
    rw [hd] at isNot
    simpa using isNot

theorem trimByPrevious_cases {previous : Option Entry} {trim : Entry}
    (htrim : trimByPrevious previous e = some trim) :
    (trim = e ∧ ∀ p, previous = some p → p.stop ≤ e.ip_off.toNat) ∨
    ∃ p, previous = some p ∧ e.ip_off.toNat < p.stop ∧
      p.stop - e.ip_off.toNat < e.ip_len.toNat ∧
      trim = e.trim (p.stop - e.ip_off.toNat) := by
  unfold trimByPrevious at htrim
  cases previous with
  | none => exact .inl ⟨(some.inj htrim).symm, fun _ miss => by cases miss⟩
  | some p =>
    dsimp only at htrim
    by_cases overlaps : p.stop > e.ip_off.toNat
    · rw [if_pos overlaps] at htrim
      by_cases whole : p.stop - e.ip_off.toNat ≥ e.ip_len.toNat
      · rw [if_pos whole] at htrim
        cases htrim
      · rw [if_neg whole] at htrim
        exact .inr ⟨p, rfl, overlaps, by omega, (some.inj htrim).symm⟩
    · rw [if_neg overlaps] at htrim
      refine .inl ⟨(some.inj htrim).symm, fun oth isPrevious => ?_⟩
      obtain rfl := some.inj isPrevious
      omega

/-- A placed fragment joins those held. -/
theorem Held.place (held : Held sent key entries)
    (len : e.ipqe_m.length = e.ip_len.toNat) (isCarried : Carried sent key e)
    {dequeued : Nat} (hpl : place entries e = some (placed, dequeued)) :
    Held sent key placed := by
  obtain ⟨prev, s', trim, rfl, _, _, htrim, rfl⟩ := place_eq hpl
  have cases_ := trimByPrevious_cases htrim
  have beforeLengths := (forall_mem_append.mp held.lengths).1
  have afterLengths := (forall_mem_append.mp held.lengths).2
  constructor
  · intro q isIn
    rcases mem_append.mp isIn with mem | hrest
    · exact beforeLengths q mem
    · rcases mem_cons.mp hrest with rfl | inAfter
      · rcases cases_ with ⟨rfl, _⟩ | ⟨p, _, _, part, rfl⟩
        · exact len
        · exact length_trim len part
      · exact lengths_overlapLoop _ afterLengths q inAfter
  by_cases path : ∃ q ∈ prev ++ trim :: (overlapLoop trim.stop s').1, 65536 ≤ q.stop
  · exact .inl path
  have sml : ∀ q ∈ prev ++ trim :: (overlapLoop trim.stop s').1, q.stop < 65536 := by
    intro q isIn
    by_contra large
    exact path ⟨q, isIn, by omega⟩
  obtain ⟨beforeSmall, restSmall⟩ := forall_mem_append.mp sml
  obtain ⟨trimmedSmall, keptSmall⟩ := forall_mem_cons.mp restSmall
  obtain ⟨afterSmall, keeps⟩ := carried_overlapLoop sent key trimmedSmall keptSmall
  have old : ∀ q ∈ prev ++ s', Carried sent key q := by
    refine held.carried.resolve_left ?_
    rintro ⟨q, isIn, large⟩
    rcases mem_append.mp isIn with mem | inAfter
    · exact absurd (beforeSmall q mem) (by omega)
    · exact absurd (afterSmall q inAfter) (by omega)
  obtain ⟨beforeCarried, afterCarried⟩ := forall_mem_append.mp old
  have trimmedCarried : Carried sent key trim := by
    rcases cases_ with ⟨rfl, _⟩ | ⟨p, last, overlaps, _, rfl⟩
    · exact isCarried
    · have pSmall := beforeSmall p (mem_of_getLast? last)
      exact isCarried.trim (by omega)
  exact .inr (forall_mem_append.mpr ⟨beforeCarried,
    forall_mem_cons.mpr ⟨trimmedCarried, keeps afterCarried⟩⟩)

theorem off_entry (frag : Fragment) : frag.entry.ip_off.toNat = 8 * frag.offset := by
  have := frag.offsetInside
  simp only [Fragment.entry, toNat_ofNat']
  omega

theorem len_entry (frag : Fragment) : frag.entry.ip_len.toNat = frag.data.length := by
  have := frag.lenInside
  simp only [Fragment.entry, toNat_ofNat']
  omega

theorem carried_entry (isSent : frag ∈ sent) : Carried sent frag.key frag.entry := by
  intro j byte isByte
  refine ⟨frag, isSent, rfl, ?_, ?_⟩
  · rw [off_entry]
    omega
  · rw [off_entry, Nat.add_sub_cancel_left]
    exact isByte

end Place

section Scan

variable {sent : List Fragment} {key : Key} {entries : List Entry}

theorem stop_of_scan {beg next : Nat} (scn : scan beg entries = some next) :
    beg ≤ next ∧ ∀ e ∈ entries, e.stop ≤ next := by
  induction entries generalizing beg with
  | nil =>
    obtain rfl := some.inj scn
    exact ⟨le_refl _, fun e isIn => by cases isIn⟩
  | cons q tl ih =>
    unfold scan at scn
    split at scn
    · cases scn
    · rename_i follows
      obtain ⟨further, restStops⟩ := ih scn
      refine ⟨by omega, forall_mem_cons.mpr ⟨?_, restStops⟩⟩
      rw [Entry.stop]
      omega

theorem length_of_scan (lens : ∀ e ∈ entries, e.ipqe_m.length = e.ip_len.toNat)
    {beg next : Nat} (scn : scan beg entries = some next) :
    beg + (entries.flatMap Entry.ipqe_m).length = next := by
  induction entries generalizing beg with
  | nil => simpa [scan] using scn
  | cons q tl ih =>
    obtain ⟨fst, restLengths⟩ := forall_mem_cons.mp lens
    unfold scan at scn
    split at scn
    · cases scn
    · have tail := ih restLengths scn
      rw [flatMap_cons, length_append]
      omega

theorem byte_of_scan (lens : ∀ e ∈ entries, e.ipqe_m.length = e.ip_len.toNat)
    {beg next : Nat} (scn : scan beg entries = some next) {x : Nat} {byte : UInt8}
    (isByte : (entries.flatMap Entry.ipqe_m)[x]? = some byte) :
    ∃ e ∈ entries, ∃ j, e.ipqe_m[j]? = some byte ∧ e.ip_off.toNat + j = beg + x := by
  induction entries generalizing beg x with
  | nil => simp at isByte
  | cons q tl ih =>
    obtain ⟨fst, restLengths⟩ := forall_mem_cons.mp lens
    unfold scan at scn
    split at scn
    · cases scn
    rename_i follows
    rw [flatMap_cons] at isByte
    by_cases inFirst : x < q.ipqe_m.length
    · rw [getElem?_append_left inFirst] at isByte
      exact ⟨q, mem_cons_self, x, isByte, by omega⟩
    · rw [getElem?_append_right (by omega)] at isByte
      obtain ⟨e, isIn, j, isEntryByte, same⟩ :=
        ih restLengths scn isByte
      exact ⟨e, mem_cons_of_mem q isIn, j, isEntryByte, by omega⟩

structure Packet.Right (packet : Packet) (sent : List Fragment) (key : Key) : Prop where
  sameKey : packet.key = key
  fits : packet.payload.length + 4 * packet.ip_hl ≤ 65535
  length : packet.ip_len.toNat = packet.payload.length + 4 * packet.ip_hl
  carried : ∀ x byte, packet.payload[x]? = some byte →
    ∃ frag ∈ sent, frag.key = key ∧ frag.Carries x byte

/-- A packet handed up carries the bytes sent. -/
theorem outcome_right {fp : Queue} (held : Held sent fp.key fp.ipq_fragq) {packet : Packet}
    (made : fp.outcome.2 = some packet) : packet.Right sent fp.key := by
  unfold Queue.outcome at made
  cases scanned : scan 0 fp.ipq_fragq with
  | none =>
    rw [scanned] at made
    cases made
  | some next =>
    rw [scanned] at made
    split at made
    · rename_i eqNext _ _
      obtain rfl := some.inj eqNext
      split at made
      · cases made
      split at made
      · cases made
      obtain rfl := some.inj made
      have len := length_of_scan held.lengths scanned
      have sml : ∀ e ∈ fp.ipq_fragq, e.stop < 65536 := by
        intro e isIn
        have := (stop_of_scan scanned).2 e isIn
        omega
      have all : ∀ e ∈ fp.ipq_fragq, Carried sent fp.key e := by
        refine held.carried.resolve_left ?_
        rintro ⟨e, isIn, large⟩
        exact absurd (sml e isIn) (by omega)
      simp only [Queue.packet]
      constructor
      · rfl
      · dsimp only
        omega
      · simp only [toNat_ofNat']
        omega
      · intro x byte isByte
        obtain ⟨e, isIn, j, isEntryByte, same⟩ :=
          byte_of_scan held.lengths scanned isByte
        obtain ⟨frag, isSent, sameKey, carries⟩ := all e isIn j byte isEntryByte
        rw [same, zero_add] at carries
        exact ⟨frag, isSent, sameKey, carries⟩
    · cases made

end Scan

section Table

/-- Every queue that can be found holds bytes that were sent under its key. -/
def Faithful (state : State) (sent : List Fragment) : Prop :=
  ∀ key fp, state.find key = some fp → Held sent key fp.ipq_fragq

variable {st s' : State} {sent : List Fragment}

theorem Faithful.thinned (faithful : Faithful st sent) (thinned : Thinned st s') :
    Faithful s' sent := by
  intro key fp fnd
  rcases thinned.finds key with isGone | ⟨old, ttl, oldFound, isKept⟩
  · rw [isGone] at fnd
    cases fnd
  · obtain rfl := some.inj (isKept.symm.trans fnd)
    exact faithful key old oldFound

theorem Joins.held {fnd : Option Queue} {fp : Queue} (joins : Joins frag fnd fp)
    (isSent : frag ∈ sent) (old : ∀ fp, fnd = some fp → Held sent frag.key fp.ipq_fragq) :
    Held sent frag.key fp.ipq_fragq := by
  have len : frag.entry.ipqe_m.length = frag.entry.ip_len.toNat := by
    rw [len_entry]
    rfl
  cases joins with
  | enters fp entries dequeued hpl =>
    exact (old fp rfl).place len (carried_entry isSent) hpl
  | creates =>
    constructor
    · intro e isIn
      obtain rfl := mem_singleton.mp isIn
      exact len
    · refine .inr fun e isIn => ?_
      obtain rfl := mem_singleton.mp isIn
      exact carried_entry isSent

theorem Joins.key {fnd : Option Queue} {fp : Queue} (joins : Joins frag fnd fp)
    (old : ∀ fp, fnd = some fp → fp.key = frag.key) : fp.key = frag.key := by
  cases joins with
  | enters fp entries dequeued hpl => exact old fp rfl
  | creates => rfl

/-- A fragment received keeps every held byte as it was sent. -/
theorem Faithful.received (faithful : Faithful st sent) {gotE rm : Bool}
    (isReceived : Received st s' frag (receive frag (st.find frag.key) gotE rm).1) :
    Faithful s' (sent ++ [frag]) ∧
      ∀ packet, (receive frag (st.find frag.key) gotE rm).2.toOption.join = some packet →
        packet.Right (sent ++ [frag]) frag.key := by
  have isSent : frag ∈ sent ++ [frag] := mem_append_right sent mem_cons_self
  have stays : ∀ new, st.find frag.key = some new →
      Held (sent ++ [frag]) frag.key new.ipq_fragq :=
    fun new fnd => (faithful frag.key new fnd).mono [frag]
  have own : (∀ new, (receive frag (st.find frag.key) gotE rm).1 = some new →
        Held (sent ++ [frag]) frag.key new.ipq_fragq) ∧
      ∀ packet, (receive frag (st.find frag.key) gotE rm).2.toOption.join = some packet →
        packet.Right (sent ++ [frag]) frag.key := by
    rcases receive_cases frag (st.find frag.key) gotE rm with
      ⟨sameQueue, noPacket⟩ | ⟨fp, joins, isRes⟩
    · rw [sameQueue, noPacket]
      exact ⟨stays, fun packet miss => by cases miss⟩
    have held := joins.held isSent stays
    have sameKey := joins.key fun fp fnd => find?_key fnd
    rw [isRes]
    constructor
    · intro new isNew
      rw [outcome_key isNew]
      exact held
    · intro packet made
      rw [← sameKey] at held ⊢
      exact outcome_right held made
  refine ⟨?_, own.2⟩
  intro key fp fnd
  by_cases same : key = frag.key
  · subst same
    rw [isReceived.own] at fnd
    exact own.1 fp fnd
  · rw [isReceived.others key same] at fnd
    exact (faithful key fp fnd).mono [frag]

end Table

end NetBSD.Netinet.Reass
