import NetBSD.Kern.Wapbl
import NetBSD.Machine.Tally
import NetBSD.Machine.Trace

/-!
Owns what holds of a log through flushes and completions in any order. A flush that fills the ring
to its last byte while nothing can be reclaimed records an empty log; no other section does.
-/

namespace NetBSD.Kern

open NetBSD.Machine List Option Nat WapblEntry

section Records

def WapblEntry.records (we : WapblEntry) : Nat × Nat := (we.start, we.we_reclaimable_bytes)

def Wapbl.records (wl : Wapbl) : List (Nat × Nat) := wl.wl_entries.map WapblEntry.records

/-- Records that lie one behind the other in the ring. -/
def Placed (log : LogSize) : Nat → List (Nat × Nat) → Prop
  | _, [] => True
  | place, record :: rest =>
    record.1 = log.wl_circ_off + place % log.wl_circ_size ∧ 0 < record.2 ∧
      Placed log (place + record.2) rest

variable {log : LogSize} {plc other : Nat} {front back records : List (Nat × Nat)}

theorem placed_append : Placed log plc (front ++ back) ↔
    Placed log plc front ∧ Placed log (plc + tally Prod.snd front) back := by
  induction front generalizing plc with
  | nil =>
    exact ⟨fun at' => ⟨trivial, at'⟩, And.right⟩
  | cons head tl ih =>
    rw [cons_append, Placed, Placed, ih, tally_cons, and_assoc, and_assoc, add_assoc]

theorem Placed.congr (at' : Placed log plc records)
    (same : plc % log.wl_circ_size = other % log.wl_circ_size) : Placed log other records := by
  induction records generalizing plc other with
  | nil => trivial
  | cons head tl ih =>
    refine ⟨at'.1.trans (by rw [same]), at'.2.1, ih at'.2.2 ?_⟩
    rw [add_mod, same, ← add_mod]

theorem Placed.nil_of_zero (at' : Placed log plc records)
    (zero : tally Prod.snd records = 0) : records = [] := by
  cases records with
  | nil => rfl
  | cons head tl =>
    rw [tally_cons] at zero
    exact absurd at'.2.1 (by omega)

theorem Placed.mem (at' : Placed log plc records) {rcd : Nat × Nat} (isIn : rcd ∈ records) :
    ∃ prev, rcd.1 = log.wl_circ_off + (plc + prev) % log.wl_circ_size ∧
      prev + rcd.2 ≤ tally Prod.snd records := by
  induction records generalizing plc with
  | nil => cases isIn
  | cons head tl ih =>
    rw [tally_cons]
    rcases mem_cons.mp isIn with rfl | late
    · exact ⟨0, at'.1, by omega⟩
    · obtain ⟨prev, isAt, bnd⟩ := ih at'.2.2 late
      exact ⟨head.2 + prev, by rw [isAt, add_assoc], by omega⟩

/-- The bytes from an offset on lie between the tail and the head. -/
def LogEnds.Covers (log : LogSize) (ends : LogEnds) (start len : Nat) : Prop :=
  ∀ i < len, ∃ used k, wapblSpaceUsed log.wl_circ_size ends.head ends.tail = some used ∧ k < used ∧
    log.byteAt start i = log.byteAt ends.tail k

theorem LogEnds.Denotes.covers {ends : LogEnds} {first used beg len prev : Nat}
    (den : ends.Denotes log first used)
    (isAt : beg = log.wl_circ_off + (first + prev) % log.wl_circ_size)
    (bnd : prev + len ≤ used) : ends.Covers log beg len := by
  intro i lt
  refine ⟨used, prev + i, den.spaceUsed, by omega, ?_⟩
  unfold LogSize.byteAt
  rw [isAt, den.isTail (by omega), Nat.add_sub_cancel_left, Nat.add_sub_cancel_left,
    mod_add_mod, add_assoc]

end Records

section Invariant

/-- The bytes from the tail on: so many that can be reclaimed, and then the records of the
entries. The reserved bytes are among those of the last entry, or among the first ones. -/
structure Layout (log : LogSize) (wl : Wapbl) (first done : Nat) : Prop where
  ends : wl.ends.Denotes log first (done + tally Prod.snd wl.records)
  placed : Placed log (first + done) wl.records
  reserved : wl.wl_reserved_bytes ≤ wl.records.getLast?.elim done Prod.snd
  reservedBelow : wl.wl_reserved_bytes ≠ 0 → wl.wl_reserved_bytes < log.wl_circ_size
  issued : ∀ we ∈ wl.wl_entries, we.issued ≤ we.we_bufcount

def Room (log : LogSize) (used : Nat) : Option (Transaction × Bool) → Prop
  | none => True
  | some (t, _) => t.wl_bcount ≠ 0 ∧ used + wapblTransactionLen log t ≤ log.wl_circ_size

/-- There is room once so many bytes are taken off behind the tail, or all but the reserved ones. -/
def Awaits (log : LogSize) (wl : Wapbl) (used minfree : Nat) : Option (Transaction × Bool) → Prop
  | none => True
  | some (t, _) => t.wl_bcount ≠ 0 ∧
      wapblTransactionLen log t ≤ log.wl_circ_size - wl.wl_reserved_bytes ∧
      wapblTransactionLen log t ≤ minfree + (log.wl_circ_size - used)

/-- What a flush that has come to a section knows. -/
def Stage (log : LogSize) (wl : Wapbl) (first done : Nat) : Flusher → Prop
  | .idle => wl.committed = wl.ends ∧ wl.wl_reclaimable_bytes = done
  | .sleeping minfree continues => wl.committed = wl.ends ∧ wl.wl_reclaimable_bytes = done ∧
      Awaits log wl (done + tally Prod.snd wl.records) minfree continues ∧
      (done + tally Prod.snd wl.records = log.wl_circ_size → log.wl_circ_size ≠ 0 → 0 < minfree)
  | .truncateCommit ends delta continues =>
    wl.committed = wl.ends ∧ wl.wl_reclaimable_bytes = done ∧ ∃ left, done = delta + left ∧
      ends.Denotes log ((first + delta) % log.wl_circ_size) (left + tally Prod.snd wl.records) ∧
      wl.wl_reserved_bytes ≤ wl.records.getLast?.elim left Prod.snd ∧
      Room log (left + tally Prod.snd wl.records) continues
  | .truncateStore ends delta continues =>
    wl.committed = ends ∧ wl.wl_reclaimable_bytes = done ∧ ∃ left, done = delta + left ∧
      ends.Denotes log ((first + delta) % log.wl_circ_size) (left + tally Prod.snd wl.records) ∧
      wl.wl_reserved_bytes ≤ wl.records.getLast?.elim left Prod.snd ∧
      Room log (left + tally Prod.snd wl.records) continues
  | .truncateReclaim delta continues =>
    wl.committed = wl.ends ∧ wl.wl_reclaimable_bytes = delta + done ∧
      Room log (done + tally Prod.snd wl.records) continues
  | .advance t waitfor => wl.committed = wl.ends ∧ wl.wl_reclaimable_bytes = done ∧
      Room log (done + tally Prod.snd wl.records) (some (t, waitfor))
  | .flushCommit ends delta t waitfor =>
    wl.committed = wl.ends ∧ wl.wl_reclaimable_bytes = done ∧
      Room log (done + tally Prod.snd wl.records) (some (t, waitfor)) ∧
      (done + tally Prod.snd wl.records = 0 → first = 0) ∧ ∃ left, done = delta + left ∧
      ends.Denotes log ((first + delta) % log.wl_circ_size)
        (left + tally Prod.snd wl.records + wapblTransactionLen log t)
  | .flushStore ends delta t waitfor =>
    wl.committed = ends ∧ wl.wl_reclaimable_bytes = done ∧
      Room log (done + tally Prod.snd wl.records) (some (t, waitfor)) ∧
      (done + tally Prod.snd wl.records = 0 → first = 0) ∧ ∃ left, done = delta + left ∧
      ends.Denotes log ((first + delta) % log.wl_circ_size)
        (left + tally Prod.snd wl.records + wapblTransactionLen log t)
  | .issue k _ => wl.committed = wl.ends ∧ wl.wl_reclaimable_bytes = done ∧
      (k = 0 ∨ ∃ front we, wl.wl_entries = front ++ [we] ∧ we.issued + k ≤ we.we_bufcount)

def Laid (log : LogSize) (wl : Wapbl) : Prop :=
  ∃ first done, Layout log wl first done ∧ Stage log wl first done wl.flusher

end Invariant

section Truncate

variable {log : LogSize} {wl : Wapbl} {first done minfree : Nat}
  {continues : Option (Transaction × Bool)}

section

variable (layout : Layout log wl first done)

include layout

theorem Layout.restart : ∃ first, Layout log wl first done ∧
    (done + tally Prod.snd wl.records = 0 → first = 0) := by
  by_cases zero : done + tally Prod.snd wl.records = 0
  · have empty := layout.placed.nil_of_zero (by omega)
    refine ⟨0, ⟨⟨layout.ends.atMost, layout.ends.counted, layout.ends.isEmpty, ?_, ?_, ?_⟩, ?_,
      layout.reserved, layout.reservedBelow, layout.issued⟩, fun _ => rfl⟩
    · exact fun nz => absurd zero nz
    · exact fun nz => absurd zero nz
    · exact fun nz => absurd zero nz
    · rw [empty]
      trivial
  · exact ⟨first, layout, fun hn => absurd hn zero⟩

theorem Layout.reserved_le : wl.wl_reserved_bytes ≤ done + tally Prod.snd wl.records := by
  have reserved := layout.reserved
  cases isLast : wl.records.getLast? with
  | none =>
    rw [isLast] at reserved
    exact le_trans reserved (le_add_right _ _)
  | some rcd =>
    rw [isLast] at reserved
    have le : wl.wl_reserved_bytes ≤ rcd.2 := reserved
    obtain ⟨prev, _, bnd⟩ := layout.placed.mem (mem_of_getLast? isLast)
    omega

theorem Laid.truncated (hcm : wl.committed = wl.ends)
    (don : wl.wl_reclaimable_bytes = done)
    (rm : Room log (done + tally Prod.snd wl.records) continues) :
    Laid log (wl.truncated continues) := by
  cases continues with
  | none => exact ⟨first, done, { layout with }, hcm, don⟩
  | some next =>
    exact ⟨first, done, { layout with }, hcm, don, rm⟩

/-- Truncating advances the tail by what is reclaimable. -/
theorem truncateLoop_laid (hcm : wl.committed = wl.ends)
    (don : wl.wl_reclaimable_bytes = done)
    (wt : Awaits log wl (done + tally Prod.snd wl.records) minfree continues)
    (pos : done + tally Prod.snd wl.records = log.wl_circ_size → log.wl_circ_size ≠ 0 → 0 < minfree) :
    ∃ s', wapblTruncateLoop log wl minfree continues = some s' ∧ Laid log s' := by
  unfold wapblTruncateLoop
  by_cases sleeps : wl.wl_reclaimable_bytes < minfree
  · rw [if_pos sleeps]
    exact ⟨_, rfl, first, done, { layout with }, hcm,
      don, wt, pos⟩
  rw [if_neg sleeps]
  dsimp only
  have bnd := layout.ends.atMost
  have reservedBelow := layout.reservedBelow
  -- what is left behind the tail holds the reserved bytes, in one way or the other
  obtain ⟨delta, left, isDelta, isLeft, keeps, moves, rm⟩ : ∃ delta left,
      (if wl.wl_entries = [] ∧ wl.wl_reclaimable_bytes ≥ wl.wl_reserved_bytes then
        wl.wl_reclaimable_bytes - wl.wl_reserved_bytes else wl.wl_reclaimable_bytes) = delta ∧
      done = delta + left ∧ wl.wl_reserved_bytes ≤ wl.records.getLast?.elim left Prod.snd ∧
      (delta = 0 → done + tally Prod.snd wl.records = log.wl_circ_size →
        done + tally Prod.snd wl.records = 0) ∧
      Room log (left + tally Prod.snd wl.records) continues := by
    by_cases empty : wl.wl_entries = []
    · have noRecords : wl.records = [] := congrArg (List.map records) empty
      have reserved := layout.reserved
      rw [noRecords] at reserved wt bnd pos ⊢
      have le : wl.wl_reserved_bytes ≤ done := reserved
      rw [tally_nil, if_pos ⟨empty, by omega⟩]
      refine ⟨_, wl.wl_reserved_bytes, rfl, by omega, le_refl _, by omega, ?_⟩
      cases continues with
      | none => trivial
      | some next => exact ⟨wt.1, by have fits := wt.2.1; omega⟩
    rw [if_neg fun both => empty both.1]
    refine ⟨_, 0, rfl, by omega, ?_, by omega, ?_⟩
    · have reserved := layout.reserved
      cases isLast : wl.records.getLast? with
      | none =>
        have noRecords := getLast?_eq_none_iff.mp isLast
        exact absurd (map_eq_nil_iff.mp noRecords) empty
      | some rcd =>
        rw [isLast] at reserved
        exact reserved
    · cases continues with
      | none => trivial
      | some next => exact ⟨wt.1, by have fits := wt.2.2; omega⟩
  rw [isDelta]
  obtain ⟨ends, isEnds, den⟩ := layout.ends.advanceTail (by omega) moves
  have used : done + tally Prod.snd wl.records - delta = left + tally Prod.snd wl.records := by omega
  rw [used] at den
  have le : wl.wl_reserved_bytes ≤ left + tally Prod.snd wl.records := by
    have split : Layout log { wl with ends } ((first + delta) % log.wl_circ_size) left := by
      refine ⟨den, layout.placed.congr ?_, keeps, reservedBelow, layout.issued⟩
      rw [mod_add_mod, isLeft, add_assoc]
    exact split.reserved_le
  rw [isEnds, bind_eq_bind, bind_some, den.spaceUsed, bind_eq_bind,
    bind_some, if_pos le]
  exact ⟨_, rfl, first, done, { layout with }, hcm,
    don, left, isLeft, den, keeps, rm⟩

theorem truncate_laid (hcm : wl.committed = wl.ends)
    (don : wl.wl_reclaimable_bytes = done)
    (le : minfree ≤ log.wl_circ_size - wl.wl_reserved_bytes)
    (continue_ : ∀ t wf, continues = some (t, wf) →
      t.wl_bcount ≠ 0 ∧ minfree = wapblTransactionLen log t)
    (pos : log.wl_circ_size ≠ 0 → 0 < minfree) :
    ∃ s', wapblTruncate log wl minfree continues = some s' ∧ Laid log s' := by
  unfold wapblTruncate
  rw [if_pos le, layout.ends.spaceFree, bind_eq_bind, bind_some]
  by_cases suff : minfree < log.wl_circ_size - (done + tally Prod.snd wl.records)
  · rw [if_pos suff]
    refine ⟨_, rfl, Laid.truncated layout hcm don ?_⟩
    cases continues with
    | none => trivial
    | some next =>
      obtain ⟨ne, isLen⟩ := continue_ next.1 next.2 rfl
      exact ⟨ne, by omega⟩
  rw [if_neg suff]
  apply truncateLoop_laid layout hcm don
  · cases continues with
    | none => trivial
    | some next =>
      obtain ⟨ne, isLen⟩ := continue_ next.1 next.2 rfl
      exact ⟨ne, by omega, by omega⟩
  · intro isFull sizePos
    omega

end

theorem waitOut_laid (wf : Bool) (layout : Layout log wl first done)
    (hcm : wl.committed = wl.ends) (don : wl.wl_reclaimable_bytes = done) :
    ∃ s', wapblWaitOut log wl wf = some s' ∧ Laid log s' := by
  cases wf with
  | false =>
    exact ⟨_, rfl, first, done, { layout with }, hcm, don⟩
  | true =>
    apply truncate_laid layout hcm don (Nat.le_refl _)
    · intro t wf hn
      cases hn
    · intro sizePos
      have reservedBelow := layout.reservedBelow
      omega

end Truncate

variable {ends : LogEnds}

section Flush

variable {log : LogSize} {wl : Wapbl} {first done : Nat} {t : Transaction}

theorem inodesLen_lt (ne : t.wl_bcount ≠ 0) :
    wapblTransactionInodesLen log t < wapblTransactionLen log t := by
  unfold wapblTransactionLen
  dsimp only
  omega

theorem LogEnds.Denotes.head_within {used : Nat} (den : ends.Denotes log first used) :
    (ends.head = 0 ∨ ends.head ≥ log.wl_circ_off) ∧
      (ends.head = 0 ∨ ends.head < log.wl_circ_off + log.wl_circ_size) := by
  by_cases zero : used = 0
  · have head := (den.isEmpty zero).1
    exact ⟨.inl head, .inl head⟩
  · have below := den.firstBelow zero
    have isMod := mod_lt (first + used) (lt_of_le_of_lt (zero_le first) below)
    rw [den.isHead zero]
    exact ⟨.inr (le_add_right _ _), .inr (by omega)⟩

theorem LogEnds.Denotes.recordsAt_head {used : Nat} (den : ends.Denotes log first used)
    (restarts : used = 0 → first = 0) :
    log.recordsAt ends.head = log.wl_circ_off + (first + used) % log.wl_circ_size := by
  have offPos := log.wl_circ_off_pos
  unfold LogSize.recordsAt
  by_cases zero : used = 0
  · rw [(den.isEmpty zero).1, if_pos offPos, restarts zero, zero, zero_add, zero_mod,
      add_zero]
  · rw [den.isHead zero, if_neg (by omega)]

/-- The records do not fill the free bytes to the last one, or bytes can be reclaimed. -/
def Spares (log : LogSize) (wl : Wapbl) : WapblEvent → Prop
  | .proceed => match wl.flusher with
    | .advance t _ =>
      wapblSpaceFree log.wl_circ_size wl.ends.head wl.ends.tail = some (wapblTransactionLen log t) →
        wl.wl_reclaimable_bytes ≠ 0
    | _ => True
  | _ => True

theorem flushAdvance_laid (wf : Bool) (layout : Layout log wl first done)
    (hcm : wl.committed = wl.ends) (don : wl.wl_reclaimable_bytes = done)
    (rm : Room log (done + tally Prod.snd wl.records) (some (t, wf)))
    (spares : wapblSpaceFree log.wl_circ_size wl.ends.head wl.ends.tail =
      some (wapblTransactionLen log t) → wl.wl_reclaimable_bytes ≠ 0) :
    ∃ s', wapblFlushAdvance log wl t wf = some s' ∧ Laid log s' := by
  obtain ⟨first, layout, restarts⟩ := layout.restart
  have lenPos : 0 < wapblTransactionLen log t := lt_of_le_of_lt (zero_le _) (inodesLen_lt rm.1)
  have notFull : done + tally Prod.snd wl.records + wapblTransactionLen log t = log.wl_circ_size →
      done ≠ 0 := by
    intro isFull hn
    apply spares
    · rw [layout.ends.spaceFree]
      congr 1
      omega
    · rw [don, hn]
  have fits := rm.2
  unfold wapblFlushAdvance
  dsimp only
  rw [if_pos layout.ends.head_within]
  obtain ⟨ahead, isAhead, den⟩ := layout.ends.advanceHead lenPos fits
    (fun zero => ⟨restarts zero, by omega⟩)
  obtain ⟨ends, isEnds, moved⟩ := @LogEnds.Denotes.advanceTail _ _ _ _ done den (by omega) (by omega)
  rw [isAhead, bind_eq_bind, bind_some, don, isEnds]
  refine ⟨_, rfl, first, done, { layout with }, hcm, rfl,
    rm, restarts, 0, by omega, ?_⟩
  have used : done + tally Prod.snd wl.records + wapblTransactionLen log t - done =
      0 + tally Prod.snd wl.records + wapblTransactionLen log t := by omega
  rw [used] at moved
  exact moved

/-- What a flush stores leaves the log laid out. -/
theorem flushStore_laid {delta left : Nat} (wf : Bool)
    (layout : Layout log wl first done) (hcm : wl.committed = ends)
    (don : wl.wl_reclaimable_bytes = done)
    (rm : Room log (done + tally Prod.snd wl.records) (some (t, wf)))
    (restarts : done + tally Prod.snd wl.records = 0 → first = 0) (isLeft : done = delta + left)
    (den : ends.Denotes log ((first + delta) % log.wl_circ_size)
      (left + tally Prod.snd wl.records + wapblTransactionLen log t)) :
    ∃ s', wapblFlushStore log wl ends delta t wf = some s' ∧ Laid log s' := by
  have lt := @inodesLen_lt log t rm.1
  have fits := rm.2
  unfold wapblFlushStore
  rw [if_pos (by omega)]
  generalize isNew : (⟨t.wl_bufcount, wapblTransactionLen log t, log.recordsAt wl.ends.head, 0⟩ :
    WapblEntry) = we
  have isRecords : (wl.wl_entries ++ [we]).map records =
      wl.records ++ [(log.recordsAt wl.ends.head, wapblTransactionLen log t)] := by
    rw [map_append, ← isNew]
    rfl
  refine ⟨_, rfl, (first + delta) % log.wl_circ_size, left, ⟨?_, ?_, ?_, ?_, ?_⟩, hcm, ?_,
    .inr ⟨wl.wl_entries, we, rfl, ?_⟩⟩
  · show ends.Denotes log _ (left + tally Prod.snd ((wl.wl_entries ++ [we]).map records))
    rw [isRecords, tally_append, tally_cons, ← add_assoc]
    exact den
  · show Placed log _ ((wl.wl_entries ++ [we]).map records)
    have at' : (first + done) % log.wl_circ_size =
        ((first + delta) % log.wl_circ_size + left) % log.wl_circ_size := by
      rw [mod_add_mod, isLeft, add_assoc]
    rw [isRecords]
    apply Placed.congr _ at'
    refine placed_append.mpr ⟨layout.placed, ?_, by omega, trivial⟩
    rw [add_assoc]
    exact layout.ends.recordsAt_head restarts
  · show _ ≤ ((wl.wl_entries ++ [we]).map records).getLast?.elim left Prod.snd
    rw [isRecords, getLast?_concat]
    show (if t.wl_inohashcnt ≠ 0 then wapblTransactionInodesLen log t else 0) ≤ wapblTransactionLen log t
    split <;> omega
  · show (if t.wl_inohashcnt ≠ 0 then wapblTransactionInodesLen log t else 0) ≠ 0 →
      (if t.wl_inohashcnt ≠ 0 then wapblTransactionInodesLen log t else 0) < log.wl_circ_size
    split <;> omega
  · intro other isIn
    rcases mem_append.mp isIn with isOld | last
    · exact layout.issued other isOld
    · obtain rfl := mem_singleton.mp last
      rw [← isNew]
      exact zero_le _
  · show wl.wl_reclaimable_bytes - delta = left
    omega
  · rw [← isNew]
    exact le_of_eq (zero_add _)

theorem issueLast_append (front : List WapblEntry) (we : WapblEntry) :
    issueLast (front ++ [we]) = front ++ [{ we with issued := we.issued + 1 }] := by
  induction front with
  | nil => rfl
  | cons head tl ih =>
    cases tl with
    | nil => rfl
    | cons next tl => exact congrArg (head :: ·) ih

/-- The flusher's next step keeps the log laid out. -/
theorem proceed_laid (laid : Laid log wl) (going : wl.flusher ≠ .idle)
    (spares : Spares log wl .proceed) :
    ∃ s', wapblProceed log wl = some s' ∧ Laid log s' := by
  obtain ⟨first, done, layout, stage⟩ := laid
  unfold wapblProceed
  unfold Spares at spares
  cases isFlusher : wl.flusher with
  | idle => exact absurd isFlusher going
  | sleeping minfree continues =>
    rw [isFlusher] at stage
    obtain ⟨hcm, don, wt, pos⟩ := stage
    exact truncateLoop_laid layout hcm don wt pos
  | truncateCommit | flushCommit =>
    rw [isFlusher] at stage
    exact ⟨_, rfl, first, done, { layout with }, rfl, stage.2⟩
  | truncateStore ends delta continues =>
    rw [isFlusher] at stage
    obtain ⟨hcm, don, left, isLeft, den, keeps, rm⟩ := stage
    refine ⟨_, rfl, (first + delta) % log.wl_circ_size, left,
      ⟨den, layout.placed.congr ?_, keeps, layout.reservedBelow, layout.issued⟩, hcm,
      don.trans isLeft, rm⟩
    rw [mod_add_mod, isLeft, add_assoc]
  | truncateReclaim delta continues =>
    rw [isFlusher] at stage
    obtain ⟨hcm, don, rm⟩ := stage
    dsimp only
    rw [if_pos (by omega)]
    refine ⟨_, rfl, @Laid.truncated log { wl with
        wl_reclaimable_bytes := wl.wl_reclaimable_bytes - delta
        flusher := .truncateReclaim delta continues } first done continues
      { layout with } hcm ?_ rm⟩
    show wl.wl_reclaimable_bytes - delta = done
    omega
  | advance t wf =>
    rw [isFlusher] at stage spares
    obtain ⟨hcm, don, rm⟩ := stage
    exact flushAdvance_laid wf layout hcm don rm spares
  | flushStore ends delta t wf =>
    rw [isFlusher] at stage
    obtain ⟨hcm, don, rm, restarts, left, isLeft, den⟩ := stage
    exact flushStore_laid wf layout hcm don rm restarts isLeft den
  | issue cnt wf =>
    rw [isFlusher] at stage
    obtain ⟨hcm, don, last⟩ := stage
    cases cnt with
    | zero => exact waitOut_laid wf layout hcm don
    | succ cnt =>
      obtain ⟨front, we, isEntries, le⟩ := last.resolve_left (succ_ne_zero cnt)
      have issues : issueLast wl.wl_entries = front ++ [{ we with issued := we.issued + 1 }] := by
        rw [isEntries, issueLast_append]
      have sameRecords : (issueLast wl.wl_entries).map records = wl.records := by
        unfold Wapbl.records
        rw [issues, isEntries, map_append, map_append]
        rfl
      refine ⟨_, rfl, first, done, ⟨?_, ?_, ?_, layout.reservedBelow, ?_⟩, hcm, don,
        .inr ⟨front, _, issues, ?_⟩⟩
      · show wl.ends.Denotes log first
          (done + tally Prod.snd ((issueLast wl.wl_entries).map records))
        rw [sameRecords]
        exact layout.ends
      · show Placed log _ ((issueLast wl.wl_entries).map records)
        rw [sameRecords]
        exact layout.placed
      · show _ ≤ ((issueLast wl.wl_entries).map records).getLast?.elim done Prod.snd
        rw [sameRecords]
        exact layout.reserved
      · intro other isIn
        rw [issues] at isIn
        rcases mem_append.mp isIn with isOld | isNew
        · exact layout.issued other (by rw [isEntries]; exact mem_append_left _ isOld)
        · obtain rfl := mem_singleton.mp isNew
          show we.issued + 1 ≤ we.we_bufcount
          omega
      · show we.issued + 1 + cnt ≤ we.we_bufcount
        omega

end Flush

section Biodone

variable {log : LogSize} {wl : Wapbl}

theorem reclaimEntries_spec (ents : List WapblEntry) : ∃ gone,
    ents = gone ++ (reclaimEntries ents).2 ∧
      (reclaimEntries ents).1 = tally Prod.snd (gone.map records) ∧
      ∀ we ∈ gone, we.we_bufcount = 0 := by
  induction ents with
  | nil => exact ⟨[], rfl, rfl, fun we isIn => by cases isIn⟩
  | cons head tl ih =>
    unfold reclaimEntries
    by_cases don : head.we_bufcount = 0
    · rw [if_pos don]
      obtain ⟨gone, isSplit, isBytes, allDone⟩ := ih
      refine ⟨head :: gone, congrArg (head :: ·) isSplit, ?_, ?_⟩
      · show head.we_reclaimable_bytes + (reclaimEntries tl).1 = _
        rw [isBytes]
        rfl
      · exact forall_mem_cons.mpr ⟨don, allDone⟩
    · rw [if_neg don]
      exact ⟨[], rfl, rfl, fun we isIn => by cases isIn⟩

/-- The reserved bytes are still there when records at the front count as reclaimable. -/
theorem reserved_split {reserved left : Nat} {front back : List (Nat × Nat)}
    (le : reserved ≤ (front ++ back).getLast?.elim left Prod.snd) :
    reserved ≤ back.getLast?.elim (left + tally Prod.snd front) Prod.snd := by
  cases isBack : back.getLast? with
  | none =>
    obtain rfl := getLast?_eq_none_iff.mp isBack
    rw [append_nil] at le
    cases isFront : front.getLast? with
    | none =>
      rw [isFront] at le
      exact le_trans le (le_add_right _ _)
    | some rcd =>
      rw [isFront] at le
      obtain ⟨prev, rfl⟩ := getLast?_eq_some_iff.mp isFront
      have last : reserved ≤ rcd.2 := le
      rw [tally_append]
      show reserved ≤ left + (tally Prod.snd prev + (rcd.2 + 0))
      omega
  | some rcd =>
    rw [getLast?_append, isBack] at le
    exact le

/-- Finished entries make their bytes reclaimable. -/
theorem Laid.complete {gone tl : List WapblEntry} (laid : Laid log wl)
    (sameRecords : (gone ++ tl).map records = wl.records)
    (issued : ∀ we ∈ tl, we.issued ≤ we.we_bufcount)
    (issuing : ∀ cnt wf, wl.flusher = .issue cnt wf →
      cnt = 0 ∨ ∃ front we, tl = front ++ [we] ∧ we.issued + cnt ≤ we.we_bufcount) :
    Laid log { wl with
      wl_entries := tl
      wl_reclaimable_bytes :=
        wl.wl_reclaimable_bytes + tally Prod.snd (gone.map records) } := by
  obtain ⟨first, done, layout, stage⟩ := laid
  have isSplit : wl.records = gone.map records ++ tl.map records := by
    rw [← sameRecords, map_append]
  generalize gone.map records = front at *
  have isTally : tally Prod.snd wl.records = tally Prod.snd front +
      tally Prod.snd (tl.map records) := by
    rw [isSplit, tally_append]
  have isHeld : ∀ left, left + tally Prod.snd front + tally Prod.snd (tl.map records) =
      left + tally Prod.snd wl.records := by
    intro left
    rw [isTally, add_assoc]
  refine ⟨first, done + tally Prod.snd front, ⟨?_, ?_, ?_, layout.reservedBelow, issued⟩, ?_⟩
  · show wl.ends.Denotes log first
      (done + tally Prod.snd front + tally Prod.snd (tl.map records))
    rw [isHeld]
    exact layout.ends
  · have at' := layout.placed
    rw [isSplit] at at'
    rw [← add_assoc]
    exact (placed_append.mp at').2
  · have reserved := layout.reserved
    rw [isSplit] at reserved
    exact reserved_split reserved
  · show Stage log _ first _ wl.flusher
    cases isFlusher : wl.flusher with
    | idle =>
      rw [isFlusher] at stage
      exact ⟨stage.1, congrArg (· + _) stage.2⟩
    | sleeping minfree continues =>
      rw [isFlusher] at stage
      obtain ⟨hcm, don, wt, pos⟩ := stage
      refine ⟨hcm, congrArg (· + _) don, ?_, ?_⟩
      · show Awaits log _ (_ + tally Prod.snd (tl.map records)) minfree continues
        rw [isHeld]
        exact wt
      · show _ + tally Prod.snd (tl.map records) = _ → _
        rw [isHeld]
        exact pos
    | truncateCommit | truncateStore =>
      rw [isFlusher] at stage
      obtain ⟨hcm, don, left, isLeft, den, keeps, rm⟩ := stage
      rw [isSplit] at keeps
      rw [← isHeld] at den rm
      exact ⟨hcm, congrArg (· + _) don, left + tally Prod.snd front,
        by rw [isLeft, add_assoc], den, reserved_split keeps, rm⟩
    | truncateReclaim delta continues =>
      rw [isFlusher] at stage
      obtain ⟨hcm, don, rm⟩ := stage
      rw [← isHeld] at rm
      exact ⟨hcm, (congrArg (· + _) don).trans (add_assoc _ _ _), rm⟩
    | advance t wf =>
      rw [isFlusher] at stage
      obtain ⟨hcm, don, rm⟩ := stage
      rw [← isHeld] at rm
      exact ⟨hcm, congrArg (· + _) don, rm⟩
    | flushCommit ends delta t wf =>
      rw [isFlusher] at stage
      obtain ⟨hcm, don, rm, restarts, left, isLeft, den⟩ := stage
      rw [← isHeld] at rm restarts den
      exact ⟨hcm, congrArg (· + _) don, rm, restarts, left + tally Prod.snd front,
        by rw [isLeft, add_assoc], den⟩
    | flushStore ends delta t wf =>
      rw [isFlusher] at stage
      obtain ⟨hcm, don, rm, restarts, left, isLeft, den⟩ := stage
      rw [← isHeld] at rm restarts den
      exact ⟨hcm, congrArg (· + _) don, rm, restarts, left + tally Prod.snd front,
        by rw [isLeft, add_assoc], den⟩
    | issue cnt wf =>
      rw [isFlusher] at stage
      exact ⟨stage.1, congrArg (· + _) stage.2.1, issuing cnt wf isFlusher⟩

/-- A buffer done counts towards its entry. -/
theorem biodone_laid {plc : Nat} {we : WapblEntry} (laid : Laid log wl)
    (isAt : wl.wl_entries[plc]? = some we) (atDevice : we.issued > 0) :
    ∃ s', wapblBiodone wl plc = some s' ∧ Laid log s' := by
  obtain ⟨first, done, layout, stage⟩ := id laid
  have le := layout.issued we (mem_of_getElem? isAt)
  unfold wapblBiodone
  rw [isAt, bind_eq_bind, bind_some, if_pos (by omega)]
  generalize isLess : ({ we with we_bufcount := we.we_bufcount - 1, issued := we.issued - 1 } :
    WapblEntry) = less
  have lessFine : less.issued ≤ less.we_bufcount ∧ less.records = we.records ∧
      ∀ cnt, we.issued + cnt ≤ we.we_bufcount → less.issued + cnt ≤ less.we_bufcount := by
    rw [← isLess]
    refine ⟨?_, rfl, ?_⟩
    · show we.issued - 1 ≤ we.we_bufcount - 1
      omega
    · intro cnt bnd
      show we.issued - 1 + cnt ≤ we.we_bufcount - 1
      omega
  have below : plc < wl.wl_entries.length := (List.getElem?_eq_some_iff.mp isAt).1
  have ent : wl.wl_entries[plc] = we := (List.getElem?_eq_some_iff.mp isAt).2
  have sameRecords : (wl.wl_entries.set plc less).map records = wl.records := by
    unfold Wapbl.records
    rw [map_set, lessFine.2.1, ← ent, ← getElem_map records, set_getElem_self]
    rw [length_map]
    exact below
  have issued : ∀ other ∈ wl.wl_entries.set plc less, other.issued ≤ other.we_bufcount := by
    intro other isIn
    rcases mem_or_eq_of_mem_set isIn with isOld | rfl
    · exact layout.issued other isOld
    · exact lessFine.1
  have issuing : ∀ cnt wf, wl.flusher = .issue cnt wf → cnt = 0 ∨
      ∃ front last, wl.wl_entries.set plc less = front ++ [last] ∧
        last.issued + cnt ≤ last.we_bufcount := by
    intro cnt wf isFlusher
    rw [isFlusher] at stage
    rcases stage.2.2 with zero | ⟨front, last, isEntries, bnd⟩
    · exact .inl zero
    right
    rw [isEntries] at isAt ⊢
    by_cases inF : plc < front.length
    · exact ⟨front.set plc less, last, set_append_left _ _ inF, bnd⟩
    have lst : plc = front.length := by
      rw [isEntries, length_append, length_singleton] at below
      omega
    subst lst
    rw [getElem?_concat_length] at isAt
    obtain rfl := some.inj isAt
    refine ⟨front, less, ?_, lessFine.2.2 cnt bnd⟩
    rw [set_append_right _ _ (Nat.le_refl _), Nat.sub_self]
    rfl
  dsimp only
  by_cases isOver : less.we_bufcount = 0
  · rw [if_pos isOver]
    obtain ⟨gone, isSplit, isBytes, allDone⟩ := reclaimEntries_spec (wl.wl_entries.set plc less)
    generalize (reclaimEntries (wl.wl_entries.set plc less)).2 = rest at *
    refine ⟨_, rfl, ?_⟩
    rw [isBytes]
    rw [isSplit] at issued issuing sameRecords
    refine laid.complete sameRecords (forall_mem_append.mp issued).2 ?_
    intro cnt wf isFlusher
    rcases issuing cnt wf isFlusher with zero | ⟨front, last, isEntries, bnd⟩
    · exact .inl zero
    by_cases zero : cnt = 0
    · exact .inl zero
    right
    -- the entry with buffers left is not among those that are removed
    have rst : rest ≠ [] := by
      rintro rfl
      rw [append_nil] at isEntries
      have hn := allDone last (by rw [isEntries]; exact mem_append_right _ (mem_singleton_self last))
      omega
    obtain ⟨prev, final, rfl⟩ := eq_nil_or_concat rest |>.resolve_left rst
    rw [concat_eq_append, ← append_assoc] at isEntries
    obtain ⟨_, isFinal⟩ := append_inj' isEntries rfl
    obtain rfl := (cons.inj isFinal).1
    exact ⟨prev, final, concat_eq_append, bnd⟩
  · rw [if_neg isOver]
    exact ⟨_, rfl, @Laid.complete log wl [] _ laid sameRecords issued issuing⟩

end Biodone

section Kept

variable {log : LogSize} {wl : Wapbl}

/-- A head and a tail are around the bytes that were flushed and not reclaimed. -/
def LogEnds.Exact (log : LogSize) (ends : LogEnds) : Prop :=
  ends.reclaimed ≤ ends.flushed ∧
    wapblSpaceUsed log.wl_circ_size ends.head ends.tail = some (ends.flushed - ends.reclaimed) ∧
    (ends.head = 0 ∧ ends.tail = 0 → ends.flushed = ends.reclaimed)

/-- The log has every transaction with a buffer that is not at its place: for those of the entries
in memory and on the disk, and on the disk for the one whose commit was just written. -/
structure LogKept (log : LogSize) (wl : Wapbl) : Prop where
  memory : wl.ends.Exact log
  disk : wl.committed.Exact log
  inMemory : ∀ we ∈ wl.wl_entries, we.we_bufcount ≠ 0 →
    wl.ends.Covers log we.start we.we_reclaimable_bytes
  onDisk : ∀ we ∈ wl.wl_entries, we.we_bufcount ≠ 0 →
    wl.committed.Covers log we.start we.we_reclaimable_bytes
  written : ∀ ends delta t waitfor, wl.flusher = .flushStore ends delta t waitfor →
    wl.committed.Covers log (log.recordsAt wl.ends.head) (wapblTransactionLen log t)

theorem LogEnds.Denotes.exact {first used : Nat} (den : ends.Denotes log first used) :
    ends.Exact log := by
  have isCounted := den.counted
  refine ⟨by omega, ?_, ?_⟩
  · rw [den.spaceUsed]
    congr 1
    omega
  by_cases hn : used = 0
  · omega
  · have isTail := den.isTail hn
    have offPos := log.wl_circ_off_pos
    omega

theorem Placed.covers {ends : LogEnds} {first left more : Nat}
    (at' : Placed log (first + left) wl.records)
    (den : ends.Denotes log first (left + tally Prod.snd wl.records + more)) :
    ∀ we ∈ wl.wl_entries, ends.Covers log we.start we.we_reclaimable_bytes := by
  intro we isIn
  obtain ⟨prev, isAt, bnd⟩ := at'.mem (mem_map_of_mem isIn)
  apply den.covers (by rw [← add_assoc]; exact isAt)
  have bnd : prev + we.we_reclaimable_bytes ≤ tally Prod.snd wl.records := bnd
  omega

/-- What lies between the ends of the last commit: with the records of the entries, those of a flush
that has just written it. -/
structure DiskLayout (log : LogSize) (wl : Wapbl) (first left more : Nat) : Prop where
  ends : wl.committed.Denotes log first (left + tally Prod.snd wl.records + more)
  placed : Placed log (first + left) wl.records
  written : ∀ ends delta t waitfor, wl.flusher = .flushStore ends delta t waitfor →
    more = wapblTransactionLen log t ∧ log.recordsAt wl.ends.head =
      log.wl_circ_off + (first + (left + tally Prod.snd wl.records)) % log.wl_circ_size

/-- What the header on disk says of the log. -/
theorem Laid.disk (laid : Laid log wl) : ∃ first left more, DiskLayout log wl first left more := by
  obtain ⟨first, done, layout, stage⟩ := laid
  have same (hcm : wl.committed = wl.ends)
      (ne : ∀ ends delta t wf, wl.flusher ≠ .flushStore ends delta t wf) :
      ∃ first left more, DiskLayout log wl first left more := by
    refine ⟨first, done, 0, ?_, layout.placed, ?_⟩
    · rw [hcm]
      exact layout.ends
    · exact fun ends delta t wf isFlusher => absurd isFlusher (ne ends delta t wf)
  have moved {delta left : Nat} (isLeft : done = delta + left) :
      Placed log ((first + delta) % log.wl_circ_size + left) wl.records := by
    apply layout.placed.congr
    rw [mod_add_mod, isLeft, add_assoc]
  cases isFlusher : wl.flusher with
  | truncateStore ends delta continues =>
    rw [isFlusher] at stage
    obtain ⟨hcm, don, left, isLeft, den, _⟩ := stage
    refine ⟨_, left, 0, by rw [hcm]; exact den, moved isLeft, ?_⟩
    intro ends delta t wf isStore
    rw [isFlusher] at isStore
    cases isStore
  | flushStore ends delta t wf =>
    rw [isFlusher] at stage
    obtain ⟨hcm, don, rm, restarts, left, isLeft, den⟩ := stage
    refine ⟨_, left, _, by rw [hcm]; exact den, moved isLeft, ?_⟩
    intro _ _ _ _ isStore
    rw [isFlusher] at isStore
    cases isStore
    refine ⟨rfl, ?_⟩
    rw [layout.ends.recordsAt_head restarts, mod_add_mod]
    congr 2
    omega
  | _ =>
    rw [isFlusher] at stage
    refine same stage.1 ?_
    intro ends delta t wf isStore
    rw [isFlusher] at isStore
    cases isStore

theorem Laid.kept (laid : Laid log wl) : LogKept log wl := by
  obtain ⟨first, done, layout, _⟩ := id laid
  obtain ⟨diskFirst, left, more, den, at', wrote⟩ := laid.disk
  refine ⟨layout.ends.exact, den.exact, ?_, ?_, ?_⟩
  · exact fun we isIn _ => @Placed.covers log wl wl.ends first done 0 layout.placed layout.ends we isIn
  · exact fun we isIn _ => at'.covers den we isIn
  · intro ends delta t wf isFlusher
    obtain ⟨isMore, isAt⟩ := wrote ends delta t wf isFlusher
    exact den.covers isAt (by omega)

theorem wapblStep_laid {event : WapblEvent} (laid : Laid log wl)
    (fine : wapblMay log wl event ∧ Spares log wl event) :
    ∃ s', wapblStep log wl event = some s' ∧ Laid log s' := by
  obtain ⟨may, spares⟩ := fine
  cases event with
  | flush t wf =>
    obtain ⟨isIdle, cnt, fits⟩ := may
    obtain ⟨first, done, layout, stage⟩ := laid
    rw [isIdle] at stage
    show ∃ s', wapblFlush log wl t wf = some s' ∧ Laid log s'
    unfold wapblFlush
    by_cases empty : t.wl_bufcount = 0
    · rw [if_pos empty]
      exact waitOut_laid wf layout stage.1 stage.2
    have ne : t.wl_bcount ≠ 0 := fun zero => empty (cnt.mpr zero)
    have le := fits empty
    rw [if_neg empty]
    rw [if_neg (not_lt.mpr le)]
    apply truncate_laid layout stage.1 stage.2 le
    · intro next waits next'
      cases next'
      exact ⟨ne, rfl⟩
    · exact fun _ => lt_of_le_of_lt (zero_le _) (inodesLen_lt ne)
  | proceed => exact proceed_laid laid may spares
  | biodone plc =>
    obtain ⟨we, isAt, atDevice⟩ := may
    exact biodone_laid laid isAt atDevice

/-- A log starts empty, or with the inodes that the log before it had, when these fit. -/
theorem wapblStart_laid {reused : Option (Nat × Nat)} (beg : wapblStart log reused = some wl)
    (fits : ∀ wr_inodeshead wr_inodescnt, reused = some (wr_inodeshead, wr_inodescnt) →
      log.wl_circ_off ≤ wr_inodeshead ∧ wr_inodeshead < log.wl_circ_off + log.wl_circ_size ∧
        wapblTransactionLen log ⟨0, 0, 0, wr_inodescnt⟩ < log.wl_circ_size) : Laid log wl := by
  cases reused with
  | none =>
    obtain rfl := some.inj beg
    refine ⟨0, 0, ⟨⟨zero_le _, rfl, fun _ => ⟨rfl, rfl⟩, ?_, ?_, ?_⟩, trivial, le_refl _, ?_, ?_⟩,
      rfl, rfl⟩
    · exact fun nz => absurd rfl nz
    · exact fun nz => absurd rfl nz
    · exact fun nz => absurd rfl nz
    · exact fun nz => absurd rfl nz
    · intro we isIn
      cases isIn
  | some reused =>
    obtain ⟨above, below, lt⟩ := fits reused.1 reused.2 rfl
    generalize isLen : wapblTransactionLen log ⟨0, 0, 0, reused.2⟩ = len at lt
    obtain ⟨first, fst⟩ : ∃ first, reused.1 = log.wl_circ_off + first :=
      ⟨reused.1 - log.wl_circ_off, by omega⟩
    have moves := @wapblAdvance_ring len log.wl_circ_size log.wl_circ_off first log.wl_circ_off_pos
      (by omega) (by omega)
    unfold wapblStart at beg
    dsimp only at beg
    rw [isLen, fst, moves] at beg
    obtain rfl := some.inj beg
    refine ⟨first, len, ⟨⟨?_, ?_, ?_, ?_, ?_, ?_⟩, trivial, le_refl _, fun _ => lt, ?_⟩, rfl, rfl⟩
    · exact le_of_lt lt
    · exact (zero_add _).symm
    · intro zero
      have lenPos : 0 < len := by
        rw [← isLen]
        unfold wapblTransactionLen wapblTransactionInodesLen
        have blocklenPos := Nat.two_pow_pos log.wl_log_dev_bshift
        have atLeast : 1 * 2 ^ log.wl_log_dev_bshift ≤
            max 1 (howmany reused.2 ((2 ^ log.wl_log_dev_bshift - 16) / 8)) *
              2 ^ log.wl_log_dev_bshift := mul_le_mul_right _ (le_max_left _ _)
        dsimp only
        omega
      exact absurd zero (ne_of_gt lenPos)
    · intro _
      omega
    · exact fun _ => rfl
    · exact fun _ => rfl
    · intro we isIn
      cases isIn

/-- Wherever flushes and completions lead, in any order, the log in memory and the log on the disk
have the bytes that were flushed and not reclaimed, no assertion fails and no transaction with a
buffer that is not at its place is lost, when no flush fills the ring to its last byte with
nothing to reclaim. -/
theorem wapbl_keeps (reused : Option (Nat × Nat)) {start : Wapbl}
    (isStart : wapblStart log reused = some start)
    (fits : ∀ wr_inodeshead wr_inodescnt, reused = some (wr_inodeshead, wr_inodescnt) →
      log.wl_circ_off ≤ wr_inodeshead ∧ wr_inodeshead < log.wl_circ_off + log.wl_circ_size ∧
        wapblTransactionLen log ⟨0, 0, 0, wr_inodescnt⟩ < log.wl_circ_size)
    (events : List WapblEvent)
    (fine : AllFine (wapblStep log) (fun wl event => wapblMay log wl event ∧ Spares log wl event)
      events start) :
    ∃ reached, consume (wapblStep log) events start = some reached ∧ LogKept log reached := by
  obtain ⟨reached, eaten, laid⟩ := consume_invariant (wapblStep log) (Laid log)
    (fun wl event => wapblMay log wl event ∧ Spares log wl event)
    (fun wl event laid fine => wapblStep_laid laid fine) events (wapblStart_laid isStart fits)
    (fun front input pre mid isBetween => fine.along pre isBetween)
  exact ⟨reached, eaten, laid.kept⟩

/-- One buffer of one log block is flushed into a log of 126 blocks, and is written. -/
theorem wapbl_keeps_flushed : ∃ reached, consume (wapblStep ⟨9, 64512⟩)
      [.flush ⟨1, 512, 0, 0⟩ false, .proceed, .proceed, .proceed, .proceed, .biodone 0]
      ⟨⟨0, 0, 0, 0⟩, ⟨0, 0, 0, 0⟩, 0, 0, [], .idle⟩ = some reached ∧ LogKept ⟨9, 64512⟩ reached := by
  refine wapbl_keeps none rfl nofun _ ?_
  refine .cons ⟨⟨rfl, by decide, by decide⟩, trivial⟩ rfl ?_
  refine .cons ⟨nofun, ?_⟩ rfl ?_
  · show wapblSpaceFree 64512 0 0 = some _ → _
    decide
  refine .cons ⟨nofun, trivial⟩ rfl ?_
  refine .cons ⟨nofun, trivial⟩ rfl ?_
  refine .cons ⟨nofun, trivial⟩ rfl ?_
  exact .cons ⟨⟨_, rfl, by decide⟩, trivial⟩ rfl trivial

/-- The log of 126 blocks when one flush of 63 blocks is over, and the next one is there. -/
def halfFull (committed : LogEnds) (flusher : Flusher) : Wapbl :=
  ⟨⟨33280, 1024, 32256, 0⟩, committed, 0, 0, [⟨1, 32256, 1024, 1⟩], flusher⟩

/-- Two flushes of 63 blocks fill a log of 126 blocks, and the second one commits an empty log. -/
theorem wapbl_drops : ∃ reached, AllFine (wapblStep ⟨9, 64512⟩) (wapblMay ⟨9, 64512⟩)
      [.flush ⟨1, 31232, 0, 0⟩ false, .proceed, .proceed, .proceed, .proceed, .proceed,
        .flush ⟨1, 31232, 0, 0⟩ false, .proceed, .proceed, .proceed, .proceed, .proceed]
      ⟨⟨0, 0, 0, 0⟩, ⟨0, 0, 0, 0⟩, 0, 0, [], .idle⟩ ∧
    consume (wapblStep ⟨9, 64512⟩)
      [.flush ⟨1, 31232, 0, 0⟩ false, .proceed, .proceed, .proceed, .proceed, .proceed,
        .flush ⟨1, 31232, 0, 0⟩ false, .proceed, .proceed, .proceed, .proceed, .proceed]
      ⟨⟨0, 0, 0, 0⟩, ⟨0, 0, 0, 0⟩, 0, 0, [], .idle⟩ = some reached ∧
    reached.committed.head = 0 ∧ reached.committed.tail = 0 ∧ ¬ LogKept ⟨9, 64512⟩ reached := by
  refine ⟨halfFull ⟨0, 0, 64512, 0⟩ (.flushStore ⟨0, 0, 64512, 0⟩ 0 ⟨1, 31232, 0, 0⟩ false), ?_,
    by decide +kernel, rfl, rfl, ?_⟩
  · refine .cons ⟨rfl, by decide, by decide⟩ rfl ?_
    refine .cons nofun rfl ?_
    refine .cons nofun rfl ?_
    refine .cons nofun rfl ?_
    refine .cons nofun rfl ?_
    refine .cons nofun rfl ?_
    refine @AllFine.cons _ _ _ _ _ _ _ (halfFull ⟨33280, 1024, 32256, 0⟩
      (.truncateCommit ⟨33280, 1024, 32256, 0⟩ 0 (some (⟨1, 31232, 0, 0⟩, false))))
      ⟨rfl, by decide, by decide⟩ (by decide +kernel) ?_
    refine .cons nofun rfl ?_
    refine .cons nofun rfl ?_
    refine .cons nofun rfl ?_
    refine @AllFine.cons _ _ _ _ _ _ _ (halfFull ⟨33280, 1024, 32256, 0⟩
      (.flushCommit ⟨0, 0, 64512, 0⟩ 0 ⟨1, 31232, 0, 0⟩ false)) nofun (by decide +kernel) ?_
    exact .cons nofun rfl trivial
  · intro kept
    exact absurd (kept.disk.2.2 ⟨rfl, rfl⟩) (by decide)

end Kept

end NetBSD.Kern
