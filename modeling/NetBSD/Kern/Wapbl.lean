import Mathlib.Algebra.Order.Ring.Nat
import Mathlib.Tactic.SplitIfs

/-!
Owns the head and the tail of the log of `kern/vfs_wapbl.c`: `wapbl_truncate`, `wapbl_biodone` and
`wapbl_flush` as the sections between two releases of `wl_mtx` or two commits. A routine has no
result when one of its assertions fails. One flush goes on at a time, under `wl_rwlock`.
-/

namespace NetBSD.Kern

open Option Nat

section Space

def wapblSpaceUsed (avail head tail : Nat) : Option Nat :=
  if tail = 0 then if head = 0 then some 0 else none
  else some ((head + (avail - 1) - tail) % avail + 1)

def wapblSpaceFree (avail head tail : Nat) : Option Nat :=
  (wapblSpaceUsed avail head tail).map fun used => avail - used

def wapblAdvance (size off oldoff delta : Nat) : Option Nat :=
  if delta ≤ size ∧ (oldoff = 0 ∨ oldoff ≥ off) ∧ oldoff < size + off then
    let newoff :=
      if oldoff = 0 ∧ delta ≠ 0 then off + delta
      else if oldoff + delta < size + off then oldoff + delta
      else oldoff + delta - size
    if (delta ≠ 0 ∨ newoff = oldoff) ∧ (delta = 0 ∨ newoff ≠ 0) ∧ (delta ≠ size ∨ newoff = oldoff) ∧
        (newoff = 0 ∨ newoff ≥ off) ∧ newoff < size + off then some newoff
    else none
  else none

def wapblAdvanceHead (size off delta head tail : Nat) : Option (Nat × Nat) := do
  let free ← wapblSpaceFree size head tail
  if delta ≤ free then
    let head ← wapblAdvance size off head delta
    some (head, if tail = 0 ∧ head ≠ 0 then off else tail)
  else none

def wapblAdvanceTail (size off delta head tail : Nat) : Option (Nat × Nat) := do
  let used ← wapblSpaceUsed size head tail
  if delta ≤ used then
    let tail ← wapblAdvance size off tail delta
    some (if head = tail then (0, 0) else (head, tail))
  else none

end Space

section Model

/-- `wl_log_dev_bshift` and `wl_circ_size`. -/
structure LogSize where
  wl_log_dev_bshift : Nat
  wl_circ_size : Nat
deriving DecidableEq, Repr

/-- Two log blocks are reserved for the commit headers. -/
def LogSize.wl_circ_off (log : LogSize) : Nat := 2 * 2 ^ log.wl_log_dev_bshift

/-- What `wapbl_transaction_len` reads of the transaction in memory. -/
structure Transaction where
  wl_bufcount : Nat
  wl_bcount : Nat
  wl_dealloccnt : Nat
  wl_inohashcnt : Nat
deriving DecidableEq, Repr

def howmany (x y : Nat) : Nat := (x + (y - 1)) / y

def wapblTransactionInodesLen (log : LogSize) (t : Transaction) : Nat :=
  let blocklen := 2 ^ log.wl_log_dev_bshift
  let iph := (blocklen - 16) / 8
  max 1 (howmany t.wl_inohashcnt iph) * blocklen

/-- `wapbl_transaction_len`: the header of a block list is 16 bytes, and so is an entry. -/
def wapblTransactionLen (log : LogSize) (t : Transaction) : Nat :=
  let blocklen := 2 ^ log.wl_log_dev_bshift
  let bph := (blocklen - 16) / 16
  t.wl_bcount + howmany t.wl_bufcount bph * blocklen + howmany t.wl_dealloccnt bph * blocklen +
    wapblTransactionInodesLen log t

/-- A head and a tail, with the bytes that were flushed up to the head and reclaimed up to the
tail. The code does not count these. -/
structure LogEnds where
  head : Nat
  tail : Nat
  flushed : Nat
  reclaimed : Nat
deriving DecidableEq, Repr

def LogEnds.advanceHead (log : LogSize) (delta : Nat) (ends : LogEnds) : Option LogEnds :=
  (wapblAdvanceHead log.wl_circ_size log.wl_circ_off delta ends.head ends.tail).map
    fun (head, tail) => { ends with head, tail, flushed := ends.flushed + delta }

def LogEnds.advanceTail (log : LogSize) (delta : Nat) (ends : LogEnds) : Option LogEnds :=
  (wapblAdvanceTail log.wl_circ_size log.wl_circ_off delta ends.head ends.tail).map
    fun (head, tail) => { ends with head, tail, reclaimed := ends.reclaimed + delta }

/-- `struct wapbl_entry`, with the offset where its records begin and its buffers that are at the
device. -/
structure WapblEntry where
  we_bufcount : Nat
  we_reclaimable_bytes : Nat
  start : Nat
  issued : Nat
deriving DecidableEq, Repr

/-- Where a flush is. After `wapbl_truncate` it goes on with its transaction, or it is over. -/
inductive Flusher where
  | idle
  | sleeping (minfree : Nat) (continues : Option (Transaction × Bool))
  | truncateCommit (ends : LogEnds) (delta : Nat) (continues : Option (Transaction × Bool))
  | truncateStore (ends : LogEnds) (delta : Nat) (continues : Option (Transaction × Bool))
  | truncateReclaim (delta : Nat) (continues : Option (Transaction × Bool))
  | advance (t : Transaction) (waitfor : Bool)
  | flushCommit (ends : LogEnds) (delta : Nat) (t : Transaction) (waitfor : Bool)
  | flushStore (ends : LogEnds) (delta : Nat) (t : Transaction) (waitfor : Bool)
  | issue (count : Nat) (waitfor : Bool)
deriving DecidableEq, Repr

/-- `struct wapbl`, with the head and the tail of the last commit. -/
structure Wapbl where
  ends : LogEnds
  committed : LogEnds
  wl_reserved_bytes : Nat
  wl_reclaimable_bytes : Nat
  wl_entries : List WapblEntry
  flusher : Flusher
deriving DecidableEq, Repr

variable (log : LogSize)

def Wapbl.truncated (wl : Wapbl) : Option (Transaction × Bool) → Wapbl
  | none => { wl with flusher := .idle }
  | some (t, waitfor) => { wl with flusher := .advance t waitfor }

def wapblTruncateLoop (wl : Wapbl) (minfree : Nat) (continues : Option (Transaction × Bool)) :
    Option Wapbl :=
  if wl.wl_reclaimable_bytes < minfree then some { wl with flusher := .sleeping minfree continues }
  else do
    let delta := wl.wl_reclaimable_bytes
    let delta :=
      if wl.wl_entries = [] ∧ delta ≥ wl.wl_reserved_bytes then delta - wl.wl_reserved_bytes
      else delta
    let ends ← wl.ends.advanceTail log delta
    let used ← wapblSpaceUsed log.wl_circ_size ends.head ends.tail
    if wl.wl_reserved_bytes ≤ used then
      some { wl with flusher := .truncateCommit ends delta continues }
    else none

def wapblTruncate (wl : Wapbl) (minfree : Nat) (continues : Option (Transaction × Bool)) :
    Option Wapbl :=
  if minfree ≤ log.wl_circ_size - wl.wl_reserved_bytes then do
    let avail ← wapblSpaceFree log.wl_circ_size wl.ends.head wl.ends.tail
    if minfree < avail then some (wl.truncated continues)
    else wapblTruncateLoop log wl (minfree - avail) continues
  else none

def wapblWaitOut (wl : Wapbl) (waitfor : Bool) : Option Wapbl :=
  if waitfor then wapblTruncate log wl (log.wl_circ_size - wl.wl_reserved_bytes) none
  else some { wl with flusher := .idle }

/-- `wapbl_flush` once it has the lock, up to the end of a section of `wapbl_truncate`. -/
def wapblFlush (wl : Wapbl) (t : Transaction) (waitfor : Bool) : Option Wapbl :=
  if t.wl_bufcount = 0 then wapblWaitOut log wl waitfor
  else
    let flushsize := wapblTransactionLen log t
    if flushsize > log.wl_circ_size - wl.wl_reserved_bytes then none
    else wapblTruncate log wl flushsize (some (t, waitfor))

/-- Where the records of a transaction begin. -/
def LogSize.recordsAt (head : Nat) : Nat := if head < log.wl_circ_off then log.wl_circ_off else head

/-- `wapbl_flush` when the records are written, up to the commit. -/
def wapblFlushAdvance (wl : Wapbl) (t : Transaction) (waitfor : Bool) : Option Wapbl :=
  let off := wl.ends.head
  if (off = 0 ∨ off ≥ log.wl_circ_off) ∧ (off = 0 ∨ off < log.wl_circ_off + log.wl_circ_size) then do
    let ends ← wl.ends.advanceHead log (wapblTransactionLen log t)
    let delta := wl.wl_reclaimable_bytes
    let ends ← ends.advanceTail log delta
    some { wl with flusher := .flushCommit ends delta t waitfor }
  else none

/-- `wapbl_flush` when the commit is written, up to the loop over the buffers. -/
def wapblFlushStore (wl : Wapbl) (ends : LogEnds) (delta : Nat) (t : Transaction) (waitfor : Bool) :
    Option Wapbl :=
  if wl.wl_reclaimable_bytes ≥ delta then
    some { wl with
      ends
      wl_reserved_bytes := if t.wl_inohashcnt ≠ 0 then wapblTransactionInodesLen log t else 0
      wl_reclaimable_bytes := wl.wl_reclaimable_bytes - delta
      wl_entries := wl.wl_entries ++
        [⟨t.wl_bufcount, wapblTransactionLen log t, log.recordsAt wl.ends.head, 0⟩]
      flusher := .issue t.wl_bufcount waitfor }
  else none

def issueLast : List WapblEntry → List WapblEntry
  | [] => []
  | [we] => [{ we with issued := we.issued + 1 }]
  | we :: rest => we :: issueLast rest

/-- The flush goes on with its next section. -/
def wapblProceed (wl : Wapbl) : Option Wapbl :=
  match wl.flusher with
  | .idle => none
  | .sleeping minfree continues => wapblTruncateLoop log wl minfree continues
  | .truncateCommit ends delta continues =>
    some { wl with committed := ends, flusher := .truncateStore ends delta continues }
  | .truncateStore ends delta continues =>
    some { wl with ends, flusher := .truncateReclaim delta continues }
  | .truncateReclaim delta continues =>
    if wl.wl_reclaimable_bytes ≥ delta then
      some ({ wl with wl_reclaimable_bytes := wl.wl_reclaimable_bytes - delta }.truncated continues)
    else none
  | .advance t waitfor => wapblFlushAdvance log wl t waitfor
  | .flushCommit ends delta t waitfor =>
    some { wl with committed := ends, flusher := .flushStore ends delta t waitfor }
  | .flushStore ends delta t waitfor => wapblFlushStore log wl ends delta t waitfor
  | .issue 0 waitfor => wapblWaitOut log wl waitfor
  | .issue (count + 1) waitfor =>
    some { wl with wl_entries := issueLast wl.wl_entries, flusher := .issue count waitfor }

/-- The loop of `wapbl_biodone`: the bytes of the entries that it removes, and the others. -/
def reclaimEntries : List WapblEntry → Nat × List WapblEntry
  | [] => (0, [])
  | we :: rest =>
    if we.we_bufcount = 0 then
      let (delta, entries) := reclaimEntries rest
      (we.we_reclaimable_bytes + delta, entries)
    else (0, we :: rest)

def wapblBiodone (wl : Wapbl) (place : Nat) : Option Wapbl := do
  let we ← wl.wl_entries[place]?
  if we.we_bufcount > 0 then
    let we := { we with we_bufcount := we.we_bufcount - 1, issued := we.issued - 1 }
    let wl := { wl with wl_entries := wl.wl_entries.set place we }
    if we.we_bufcount = 0 then
      let (delta, wl_entries) := reclaimEntries wl.wl_entries
      some { wl with wl_entries, wl_reclaimable_bytes := wl.wl_reclaimable_bytes + delta }
    else some wl
  else none

inductive WapblEvent where
  | flush (t : Transaction) (waitfor : Bool)
  | proceed
  | biodone (place : Nat)
deriving DecidableEq, Repr

def wapblStep (wl : Wapbl) : WapblEvent → Option Wapbl
  | .flush t waitfor => wapblFlush log wl t waitfor
  | .proceed => wapblProceed log wl
  | .biodone place => wapblBiodone wl place

/-- What can come next: a flush of a transaction that passes the check of its size, when no other
one goes on; the next section of a flush; the completion of a buffer at the device. -/
def wapblMay (wl : Wapbl) : WapblEvent → Prop
  | .flush t _ => wl.flusher = .idle ∧ (t.wl_bufcount = 0 ↔ t.wl_bcount = 0) ∧
      (t.wl_bufcount ≠ 0 → wapblTransactionLen log t ≤ log.wl_circ_size - wl.wl_reserved_bytes)
  | .proceed => wl.flusher ≠ .idle
  | .biodone place => ∃ we, wl.wl_entries[place]? = some we ∧ we.issued > 0

/-- `wapbl_start` for a log without unlinked inodes, or with so many from an offset on that
`wapbl_start_flush_inodes` writes again. -/
def wapblStart : Option (Nat × Nat) → Option Wapbl
  | none => some ⟨⟨0, 0, 0, 0⟩, ⟨0, 0, 0, 0⟩, 0, 0, [], .idle⟩
  | some (wr_inodeshead, wr_inodescnt) => do
      let len := wapblTransactionLen log ⟨0, 0, 0, wr_inodescnt⟩
      let head ← wapblAdvance log.wl_circ_size log.wl_circ_off wr_inodeshead len
      let ends : LogEnds := ⟨head, wr_inodeshead, len, 0⟩
      some ⟨ends, ends, len, len, [], .idle⟩

end Model

/-!
### The ring

The head and the tail of a log as an interval of a ring: where it begins and how many bytes it
has. The assertions of `wapbl_advance_head` and `wapbl_advance_tail` hold while the bytes fit,
except for a whole ring that is taken at once, or from which nothing is taken.
-/

section Ends

def LogSize.byteAt (log : LogSize) (offset i : Nat) : Nat :=
  log.wl_circ_off + (offset - log.wl_circ_off + i) % log.wl_circ_size

/-- A head and a tail around so many bytes, from a byte of the ring on. -/
structure LogEnds.Denotes (log : LogSize) (ends : LogEnds) (first used : Nat) : Prop where
  atMost : used ≤ log.wl_circ_size
  counted : ends.flushed = ends.reclaimed + used
  isEmpty : used = 0 → ends.head = 0 ∧ ends.tail = 0
  firstBelow : used ≠ 0 → first < log.wl_circ_size
  isTail : used ≠ 0 → ends.tail = log.wl_circ_off + first
  isHead : used ≠ 0 → ends.head = log.wl_circ_off + (first + used) % log.wl_circ_size

variable {log : LogSize} {ends : LogEnds} {first used delta : Nat}

theorem LogSize.wl_circ_off_pos (log : LogSize) : 0 < log.wl_circ_off :=
  mul_pos (by decide) (Nat.two_pow_pos _)

theorem add_mod_of_le {size i j : Nat} (below : i < size) (le : j ≤ size) :
    (i + j) % size = if i + j < size then i + j else i + j - size := by
  by_cases wraps : i + j < size
  · rw [if_pos wraps, mod_eq_of_lt wraps]
  · rw [if_neg wraps, mod_eq_sub_mod (by omega), mod_eq_of_lt (by omega)]

theorem LogEnds.Denotes.spaceUsed (den : ends.Denotes log first used) :
    wapblSpaceUsed log.wl_circ_size ends.head ends.tail = some used := by
  unfold wapblSpaceUsed
  have offPos := log.wl_circ_off_pos
  by_cases zero : used = 0
  · obtain ⟨head, tail⟩ := den.isEmpty zero
    rw [if_pos tail, if_pos head, zero]
  have le := den.atMost
  have below := den.firstBelow zero
  rw [den.isTail zero, den.isHead zero, if_neg (by omega), add_mod_of_le below le]
  congr 1
  by_cases wraps : first + used < log.wl_circ_size
  · rw [if_pos wraps, show log.wl_circ_off + (first + used) + (log.wl_circ_size - 1) -
      (log.wl_circ_off + first) = used - 1 + log.wl_circ_size by omega, add_mod_right,
      mod_eq_of_lt (by omega)]
    omega
  · rw [if_neg wraps, show log.wl_circ_off + (first + used - log.wl_circ_size) +
      (log.wl_circ_size - 1) - (log.wl_circ_off + first) = used - 1 by omega,
      mod_eq_of_lt (by omega)]
    omega

theorem LogEnds.Denotes.spaceFree (den : ends.Denotes log first used) :
    wapblSpaceFree log.wl_circ_size ends.head ends.tail = some (log.wl_circ_size - used) := by
  unfold wapblSpaceFree
  rw [den.spaceUsed]
  rfl

theorem wapblAdvance_ring {size off i : Nat} (offPos : 0 < off) (below : i < size)
    (le : delta ≤ size) : wapblAdvance size off (off + i) delta = some (off + (i + delta) % size) := by
  have isNew : (if off + i = 0 ∧ delta ≠ 0 then off + delta
      else if off + i + delta < size + off then off + i + delta
      else off + i + delta - size) = off + (i + delta) % size := by
    rw [add_mod_of_le below le]
    split_ifs <;> omega
  have hw : delta = size → (i + delta) % size = i := by
    intro same
    rw [same, add_mod_right, mod_eq_of_lt below]
  have hn : delta = 0 → (i + delta) % size = i := by
    intro same
    rw [same, add_zero, mod_eq_of_lt below]
  have newBelow : (i + delta) % size < size := mod_lt _ (by omega)
  unfold wapblAdvance
  rw [if_pos ⟨le, .inr (le_add_right off i), by omega⟩]
  dsimp only
  rw [isNew, if_pos (by omega)]

theorem wapblAdvance_zero {size off : Nat} (offPos : 0 < off) (below : delta < size ∨ delta = 0) :
    wapblAdvance size off 0 delta = some (if delta = 0 then 0 else off + delta) := by
  have isNew : (if 0 = 0 ∧ delta ≠ 0 then off + delta
      else if 0 + delta < size + off then 0 + delta
      else 0 + delta - size) = if delta = 0 then 0 else off + delta := by
    split_ifs <;> omega
  unfold wapblAdvance
  rw [if_pos ⟨by omega, .inl rfl, by omega⟩]
  dsimp only
  rw [isNew, if_pos]
  split_ifs <;> omega

theorem LogEnds.Denotes.advanceHead (den : ends.Denotes log first used) (pos : 0 < delta)
    (rm : used + delta ≤ log.wl_circ_size)
    (notWhole : used = 0 → first = 0 ∧ delta < log.wl_circ_size) :
    ∃ s', ends.advanceHead log delta = some s' ∧ s'.Denotes log first (used + delta) := by
  have offPos := log.wl_circ_off_pos
  have isCounted := den.counted
  unfold LogEnds.advanceHead wapblAdvanceHead
  rw [den.spaceFree, bind_eq_bind, bind_some, if_pos (by omega)]
  by_cases zero : used = 0
  · obtain ⟨fst, below⟩ := notWhole zero
    obtain ⟨head, tail⟩ := den.isEmpty zero
    rw [head, tail, wapblAdvance_zero offPos (.inl below), if_neg (by omega), bind_some,
      if_pos ⟨rfl, by omega⟩]
    refine ⟨_, rfl, rm, ?_, ?_, ?_, ?_, ?_⟩
    · show ends.flushed + delta = ends.reclaimed + (used + delta)
      omega
    · omega
    · omega
    · intro _
      rw [fst]
      rfl
    · intro _
      rw [fst, zero, zero_add, zero_add, mod_eq_of_lt below]
  · have below := den.firstBelow zero
    have sizePos : 0 < log.wl_circ_size := lt_of_le_of_lt (zero_le first) below
    rw [den.isHead zero, wapblAdvance_ring offPos (mod_lt _ sizePos) (by omega),
      bind_some, den.isTail zero, if_neg (by omega)]
    refine ⟨_, rfl, rm, ?_, ?_, fun _ => below, fun _ => rfl, ?_⟩
    · show ends.flushed + delta = ends.reclaimed + (used + delta)
      omega
    · omega
    · intro _
      rw [mod_add_mod, add_assoc]

/-- The tail moves over the oldest bytes of the log. -/
theorem LogEnds.Denotes.advanceTail (den : ends.Denotes log first used) (le : delta ≤ used)
    (notWhole : delta = 0 → used = log.wl_circ_size → used = 0) :
    ∃ s', ends.advanceTail log delta = some s' ∧
      s'.Denotes log ((first + delta) % log.wl_circ_size) (used - delta) := by
  have offPos := log.wl_circ_off_pos
  have bnd := den.atMost
  have isCounted := den.counted
  unfold LogEnds.advanceTail wapblAdvanceTail
  rw [den.spaceUsed, bind_eq_bind, bind_some, if_pos le]
  by_cases zero : used = 0
  · obtain ⟨head, tail⟩ := den.isEmpty zero
    have isNothing : delta = 0 := by omega
    rw [head, tail, isNothing, wapblAdvance_zero offPos (.inr rfl), if_pos rfl, bind_some,
      if_pos rfl]
    refine ⟨_, rfl, by omega, ?_, fun _ => ⟨rfl, rfl⟩, by omega, by omega, by omega⟩
    omega
  have below := den.firstBelow zero
  have sizePos : 0 < log.wl_circ_size := lt_of_le_of_lt (zero_le first) below
  rw [den.isTail zero, wapblAdvance_ring offPos below (by omega), bind_some,
    den.isHead zero]
  -- the offsets are equal again when nothing is left, and for a whole ring left as it was
  have meets : log.wl_circ_off + (first + used) % log.wl_circ_size =
      log.wl_circ_off + (first + delta) % log.wl_circ_size ↔ delta = used := by
    rw [add_mod_of_le below bnd, add_mod_of_le below (by omega)]
    split_ifs <;> omega
  by_cases isAll : delta = used
  · rw [if_pos (meets.mpr isAll)]
    refine ⟨_, rfl, by omega, ?_, fun _ => ⟨rfl, rfl⟩, by omega, by omega, by omega⟩
    show ends.flushed = ends.reclaimed + delta + (used - delta)
    omega
  rw [if_neg fun same => isAll (meets.mp same)]
  refine ⟨_, rfl, by omega, ?_, by omega, fun _ => mod_lt _ sizePos, fun _ => rfl, ?_⟩
  · show ends.flushed = ends.reclaimed + delta + (used - delta)
    omega
  · intro _
    rw [mod_add_mod, show first + delta + (used - delta) = first + used by omega]

end Ends

end NetBSD.Kern
