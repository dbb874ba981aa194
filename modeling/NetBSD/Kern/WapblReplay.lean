import Mathlib.Logic.Basic
import Mathlib.Data.List.Basic
import Mathlib.Data.List.GetD
import NetBSD.Machine.Ring

/-!
Owns the replay of `kern/vfs_wapbl.c` once the blocks of the log are in a hash: the writes of
`wapbl_replay_write`, and the reads of the journal before it. An I/O request is a function that
answers with an error or not; it may look at the block that it is for, of which there is one request
each.
-/

namespace NetBSD.Kern

open List Nat NetBSD.Machine

variable {ε : Type}

section Model

structure WapblBlk where
  wb_blk : BitVec 64
  wb_off : Nat

structure WapblReplay where
  wr_logpbn : Nat
  wr_log_dev_bshift : Nat
  wr_fs_dev_bshift : Nat
  wr_circ_off : Nat
  wr_circ_size : Nat
  wr_blkhash : Nat → List WapblBlk
  wr_blkhashmask : Nat

/-- The device block of an offset in the log, in the unit of `btodb`. -/
def WapblReplay.pbnOf (wr : WapblReplay) (off : Nat) : Nat :=
  (wr.wr_logpbn + off >>> wr.wr_log_dev_bshift) <<< wr.wr_log_dev_bshift >>> 9

/-- `wapbl_circ_read`: the bytes and the offset behind them. -/
def wapblCircRead (wr : WapblReplay) (wapblRead : Nat → Nat → Except ε (List UInt8))
    (len off : Nat) : Except ε (List UInt8 × Nat) := do
  let off := if off < wr.wr_circ_off then wr.wr_circ_off else off
  let stop := wr.wr_circ_off + wr.wr_circ_size
  let next (off : Nat) := if off ≥ stop then wr.wr_circ_off else off
  if stop - off < len then
    let front ← wapblRead (wr.pbnOf off) (stop - off)
    let back ← wapblRead (wr.pbnOf wr.wr_circ_off) (len - (stop - off))
    .ok (front ++ back, next (wr.wr_circ_off + (len - (stop - off))))
  else
    let data ← wapblRead (wr.pbnOf off) len
    .ok (data, next (off + len))

/-- What the requests of the replay answer for each block. -/
structure Requests (ε : Type) where
  wapblRead : WapblBlk → Nat → Nat → Except ε (List UInt8)
  wapblWrite : WapblBlk → List UInt8 → Option ε

def readBlock (wr : WapblReplay) (io : Requests ε) (wb : WapblBlk) : Except ε (List UInt8 × Nat) :=
  wapblCircRead wr (io.wapblRead wb) (1 <<< wr.wr_fs_dev_bshift) wb.wb_off

/-- The inner loop of `wapbl_replay_write`, with the blocks that are read and written so far. The
error of an empty chain is that of the chain before it. -/
def writeChain (wr : WapblReplay) (io : Requests ε) :
    List WapblBlk → Option ε × List WapblBlk → Option ε × List WapblBlk
  | [], state => state
  | wb :: rest, (_, done) =>
    match readBlock wr io wb with
    | .error error => (some error, done)
    | .ok (scratch, _) =>
      match io.wapblWrite wb scratch with
      | some error => (some error, done)
      | none => writeChain wr io rest (none, done ++ [wb])

/-- The chains below a number. -/
def writeChains (wr : WapblReplay) (io : Requests ε) : Nat → Option ε × List WapblBlk
  | 0 => (none, [])
  | i + 1 => writeChain wr io (wr.wr_blkhash i) (writeChains wr io i)

/-- `wapbl_replay_write`: its error, and the blocks that it has read and written. -/
def wapblReplayWrite (wr : WapblReplay) (io : Requests ε) : Option ε × List WapblBlk :=
  writeChains wr io (wr.wr_blkhashmask + 1)

def wapblBlkhashGet (wr : WapblReplay) (blk : BitVec 64) : Option WapblBlk :=
  (wr.wr_blkhash (blk &&& BitVec.ofNat 64 wr.wr_blkhashmask).toNat).find? fun wb => blk = wb.wb_blk

/-- The loop of `wapbl_replay_can_read`, for so many blocks of the file system. -/
def wapblReplayCanRead (wr : WapblReplay) (blk : BitVec 64) : Nat → Bool
  | 0 => false
  | n + 1 => if (wapblBlkhashGet wr blk).isSome then true else wapblReplayCanRead wr blk n

/-- `wapbl_replay_read` into a buffer of whole blocks, where `circRead` is `wapbl_circ_read` from an
offset of the log. -/
def wapblReplayRead (wr : WapblReplay) (circRead : Nat → Except ε (List UInt8)) :
    BitVec 64 → List (List UInt8) → Except ε (List (List UInt8))
  | _, [] => .ok []
  | blk, part :: data => do
    let part ← (wapblBlkhashGet wr blk).elim (.ok part) fun wb => circRead wb.wb_off
    let data ← wapblReplayRead wr circRead (blk + 1) data
    .ok (part :: data)

end Model

section Errors

variable {wr : WapblReplay} {io : Requests ε} {chain : List WapblBlk} {wb : WapblBlk} {n : Nat}
  {st : Option ε × List WapblBlk}

/-- The block can be read from the log and written to its place. -/
def Replays (wr : WapblReplay) (io : Requests ε) (wb : WapblBlk) : Prop :=
  ∃ scratch off, readBlock wr io wb = .ok (scratch, off) ∧ io.wapblWrite wb scratch = none

theorem writeChain_cons (replays : Replays wr io wb) : writeChain wr io (wb :: chain) st =
    writeChain wr io chain (none, st.2 ++ [wb]) := by
  obtain ⟨scratch, off, hread, isWritten⟩ := replays
  simp only [writeChain, hread, isWritten]

theorem writeChain_fails (fails : ¬ Replays wr io wb) :
    ∃ error, writeChain wr io (wb :: chain) st = (some error, st.2) := by
  cases isRead : readBlock wr io wb with
  | error error => exact ⟨error, by simp only [writeChain, isRead]⟩
  | ok read =>
    cases isWritten : io.wapblWrite wb read.1 with
    | some error => exact ⟨error, by simp only [writeChain, isRead, isWritten]⟩
    | none => exact absurd ⟨read.1, read.2, isRead, isWritten⟩ fails

/-- A chain that is not empty leaves its own error. -/
theorem writeChain_error (ne : chain ≠ []) :
    (writeChain wr io chain st).1 = none ↔ ∀ wb ∈ chain, Replays wr io wb := by
  induction chain generalizing st with
  | nil => exact absurd rfl ne
  | cons wb tl ih =>
    rw [forall_mem_cons]
    by_cases replays : Replays wr io wb
    · rw [writeChain_cons replays]
      by_cases last : tl = []
      · rw [last]
        exact iff_of_true rfl ⟨replays, fun _ isIn => absurd isIn not_mem_nil⟩
      · rw [ih last]
        exact ⟨fun all => ⟨replays, all⟩, And.right⟩
    · obtain ⟨error, bad⟩ := @writeChain_fails ε wr io tl wb st replays
      rw [bad]
      exact iff_of_false (Option.some_ne_none error) fun all => replays all.1

/-- What is done was done before, or is a block of the chain that can be replayed; when all of these
can, they are done. -/
theorem writeChain_done : st.2 ⊆ (writeChain wr io chain st).2 ∧
    (∀ wb ∈ (writeChain wr io chain st).2, wb ∈ st.2 ∨ Replays wr io wb) ∧
    ((∀ wb ∈ chain, Replays wr io wb) → chain ⊆ (writeChain wr io chain st).2) := by
  induction chain generalizing st with
  | nil => exact ⟨fun _ => id, fun _ => .inl, fun _ _ isIn => absurd isIn not_mem_nil⟩
  | cons wb tl ih =>
    by_cases replays : Replays wr io wb
    · rw [writeChain_cons replays]
      obtain ⟨keeps, only, all⟩ := @ih (none, st.2 ++ [wb])
      refine ⟨fun _ isIn => keeps (mem_append_left _ isIn), fun oth isIn => ?_,
        fun tl oth isIn => ?_⟩
      · cases only oth isIn with
        | inr replays => exact .inr replays
        | inl isOld =>
          cases mem_append.mp isOld with
          | inl isOld => exact .inl isOld
          | inr isNew => exact .inr (mem_singleton.mp isNew ▸ replays)
      · cases mem_cons.mp isIn with
        | inl fst => exact fst ▸ keeps (mem_append_right _ (mem_singleton_self wb))
        | inr mem => exact all (forall_mem_cons.mp tl).2 mem
    · obtain ⟨error, bad⟩ := @writeChain_fails ε wr io tl wb st replays
      rw [bad]
      exact ⟨fun _ => id, fun _ => .inl, fun all => absurd (all wb mem_cons_self) replays⟩

/-- The error is that of the last chain that is not empty. -/
theorem writeChains_error (n : Nat) : (writeChains wr io n).1 = none ↔
    ∀ i < n, (∀ k, i < k → k < n → wr.wr_blkhash k = []) →
      ∀ wb ∈ wr.wr_blkhash i, Replays wr io wb := by
  induction n with
  | zero => exact iff_of_true rfl fun i below => absurd below (not_lt_zero i)
  | succ n ih =>
    rw [writeChains]
    by_cases empty : wr.wr_blkhash n = []
    · rw [empty, writeChain, ih]
      constructor
      · intro holds i below tail wb isIn
        cases Nat.lt_succ_iff_lt_or_eq.mp below with
        | inl less => exact holds i less (fun k above under => tail k above (by omega)) wb isIn
        | inr last =>
          rw [last, empty] at isIn
          cases isIn
      · intro holds i below tail
        refine holds i (by omega) fun k above under => ?_
        cases Nat.lt_succ_iff_lt_or_eq.mp under with
        | inl less => exact tail k above less
        | inr last => rw [last, empty]
    · rw [writeChain_error empty]
      constructor
      · intro holds i below tail
        cases Nat.lt_succ_iff_lt_or_eq.mp below with
        | inl less => exact absurd (tail n less (lt_succ_self n)) empty
        | inr last => rwa [last]
      · exact fun holds => holds n (lt_succ_self n) fun k above under => absurd above (by omega)

theorem writeChains_done (n : Nat) : (∀ wb ∈ (writeChains wr io n).2, Replays wr io wb) ∧
    ((∀ i < n, ∀ wb ∈ wr.wr_blkhash i, Replays wr io wb) →
      ∀ i < n, wr.wr_blkhash i ⊆ (writeChains wr io n).2) := by
  induction n with
  | zero => exact ⟨fun _ isIn => absurd isIn not_mem_nil, fun _ i below => absurd below (by omega)⟩
  | succ n ih =>
    obtain ⟨keeps, only, all⟩ := @writeChain_done ε wr io (wr.wr_blkhash n) (writeChains wr io n)
    refine ⟨fun wb isIn => (only wb isIn).elim (ih.1 wb) id, fun replays i below => ?_⟩
    cases Nat.lt_succ_iff_lt_or_eq.mp below with
    | inl less =>
      exact fun wb isIn => keeps (ih.2 (fun i below => replays i (by omega)) i less isIn)
    | inr last => exact last ▸ all (replays n (lt_succ_self n))

end Errors

/-- No error means that every block of the hash was read and written, just if the last chain that is
not empty fails when another one does. -/
theorem wapblReplayWrite_reports_iff (wr : WapblReplay) (io : Requests ε) :
    ((wapblReplayWrite wr io).1 = none →
        ∀ i ≤ wr.wr_blkhashmask, ∀ wb ∈ wr.wr_blkhash i, wb ∈ (wapblReplayWrite wr io).2) ↔
      ((∀ i ≤ wr.wr_blkhashmask, (∀ k, i < k → k ≤ wr.wr_blkhashmask → wr.wr_blkhash k = []) →
          ∀ wb ∈ wr.wr_blkhash i, Replays wr io wb) →
        ∀ i ≤ wr.wr_blkhashmask, ∀ wb ∈ wr.wr_blkhash i, Replays wr io wb) := by
  unfold wapblReplayWrite
  obtain ⟨only, all⟩ := @writeChains_done ε wr io (wr.wr_blkhashmask + 1)
  simp only [Nat.lt_succ_iff] at all
  rw [writeChains_error]
  simp only [Nat.lt_succ_iff]
  exact imp_congr_right fun _ => ⟨fun done i below wb isIn => only wb (done i below wb isIn),
    fun replays i below wb isIn => all replays i below isIn⟩

/-- Two blocks in the first two chains of a hash. -/
def twoChains : WapblReplay where
  wr_logpbn := 0
  wr_log_dev_bshift := 9
  wr_fs_dev_bshift := 9
  wr_circ_off := 1024
  wr_circ_size := 8192
  wr_blkhash := fun i => if i = 0 then [⟨0, 1024⟩] else if i = 1 then [⟨1, 1536⟩] else []
  wr_blkhashmask := 127

/-- The home of block 0 cannot be written. -/
def firstBroken : Requests Nat where
  wapblRead := fun _ _ len => .ok (List.replicate len 7)
  wapblWrite := fun wb _ => if wb.wb_blk = 0 then some 5 else none

/-- The error of the first chain is lost when the second one is written. -/
theorem wapblReplayWrite_loses_error : ¬ ((wapblReplayWrite twoChains firstBroken).1 = none →
      ∀ i ≤ twoChains.wr_blkhashmask, ∀ wb ∈ twoChains.wr_blkhash i,
        wb ∈ (wapblReplayWrite twoChains firstBroken).2) := by
  intro holds
  have done : (wapblReplayWrite twoChains firstBroken).2 = [⟨1, 1536⟩] := rfl
  have inDone := holds rfl 0 (zero_le _) ⟨0, 1024⟩ (mem_singleton_self _)
  rw [done, mem_singleton] at inDone
  exact absurd (congrArg WapblBlk.wb_off inDone) (by decide)

section Reading

variable {wr : WapblReplay} {blk : BitVec 64} {n : Nat}

/-- The address of the k-th block of the file system from another one, in the unit of `btodb`. -/
def WapblReplay.blockAt (wr : WapblReplay) (blk : BitVec 64) (k : Nat) : BitVec 64 :=
  blk + BitVec.ofNat 64 ((k * 1 <<< wr.wr_fs_dev_bshift) >>> 9)

def WapblReplay.offOf (wr : WapblReplay) (blk : BitVec 64) : Option Nat :=
  (wapblBlkhashGet wr blk).map WapblBlk.wb_off

/-- The logged contents of a block, or what the buffer has. -/
def WapblReplay.laid (wr : WapblReplay) (logged : Nat → List UInt8) (blk : BitVec 64)
    (part : List UInt8) : List UInt8 :=
  (wr.offOf blk).elim part logged

/-- The blocks of the hash in the order of their chains. -/
def WapblReplay.hashed (wr : WapblReplay) : List WapblBlk :=
  (List.range (wr.wr_blkhashmask + 1)).flatMap wr.wr_blkhash

/-- Requests that do not fail. -/
def calm : Requests Nat := ⟨fun _ _ _ => .ok [], fun _ _ => none⟩

/-- The first byte of a block on the device, whose blocks have `DEV_BSIZE` bytes. -/
def WapblBlk.start (wb : WapblBlk) : Nat := wb.wb_blk.toNat * 512

/-- A device after writes of blocks with their logged contents. -/
def writeBlocks (logged : Nat → List UInt8) (blocks : List WapblBlk) (dev : Nat → UInt8) :
    Nat → UInt8 :=
  blocks.foldl (fun dev wb => fill dev wb.start (logged wb.wb_off)) dev

def WapblReplay.partAt (wr : WapblReplay) (blk : BitVec 64) (k : Nat) : Nat :=
  blk.toNat * 512 + k * 1 <<< wr.wr_fs_dev_bshift

/-- What a read of so many blocks of the file system has of a device. -/
def WapblReplay.parts (wr : WapblReplay) (dev : Nat → UInt8) (blk : BitVec 64) (n : Nat) :
    List (List UInt8) :=
  (List.range n).map fun k => span dev (wr.partAt blk k) (1 <<< wr.wr_fs_dev_bshift)

/-- The block that the replay writes last over a byte. -/
def WapblReplay.lastOver (wr : WapblReplay) (x : Nat) : Option WapblBlk :=
  wr.hashed.reverse.find? fun wb =>
    decide (wb.start ≤ x ∧ x < wb.start + 1 <<< wr.wr_fs_dev_bshift)

/-- Over each byte of the range the block that is written last begins with its part of the range and
is the one in the hash for it; there is none over the other parts. -/
def WapblReplay.Aligned (wr : WapblReplay) (blk : BitVec 64) (n : Nat) : Prop :=
  ∀ k < n, ∀ j < 1 <<< wr.wr_fs_dev_bshift,
    (wr.lastOver (wr.partAt blk k + j)).map (fun wb => (wb.start, wb.wb_off)) =
      (wr.offOf (wr.blockAt blk k)).map fun off => (wr.partAt blk k, off)

/-- Both functions answer as the blocks of the range demand, whatever the contents are; a buffer
with the range of a device is then as a read after `wapbl_replay_write` has it. -/
structure ReadsRange (wr : WapblReplay) (blk : BitVec 64) (n : Nat) : Prop where
  canRead : wapblReplayCanRead wr blk n = true ↔
    ∃ k < n, (wapblBlkhashGet wr (wr.blockAt blk k)).isSome
  read : ∀ logged : Nat → List UInt8, (∀ off, (logged off).length = 1 <<< wr.wr_fs_dev_bshift) →
    ∀ data : List (List UInt8), data.length = n →
      (∀ part ∈ data, part.length = 1 <<< wr.wr_fs_dev_bshift) →
      wapblReplayRead wr (fun off => (.ok (logged off) : Except Nat _)) blk data =
        .ok (data.mapIdx fun k part => wr.laid logged (wr.blockAt blk k) part)
  after : ∀ logged : Nat → List UInt8, (∀ off, (logged off).length = 1 <<< wr.wr_fs_dev_bshift) →
    ∀ dev : Nat → UInt8,
      wapblReplayRead wr (fun off => (.ok (logged off) : Except Nat _)) blk (wr.parts dev blk n) =
        .ok (wr.parts (writeBlocks logged (wapblReplayWrite wr calm).2 dev) blk n)

theorem wapblReplayCanRead_eq (blk : BitVec 64) (n : Nat) : wapblReplayCanRead wr blk n = true ↔
    0 < n ∧ (wapblBlkhashGet wr blk).isSome = true := by
  induction n with
  | zero => exact iff_of_false Bool.false_ne_true fun both => Nat.lt_irrefl 0 both.1
  | succ n ih =>
    rw [wapblReplayCanRead]
    by_cases isAt : (wapblBlkhashGet wr blk).isSome = true
    · rw [if_pos isAt]
      exact iff_of_true rfl ⟨succ_pos n, isAt⟩
    · rw [if_neg isAt, ih]
      exact iff_of_false (fun both => isAt both.2) fun both => isAt both.2

/-- The address goes up by one for each block of the buffer. -/
theorem wapblReplayRead_eq (logged : Nat → List UInt8) (blk : BitVec 64)
    (data : List (List UInt8)) :
    wapblReplayRead wr (fun off => (.ok (logged off) : Except Nat _)) blk data =
      .ok (data.mapIdx fun k part => wr.laid logged (blk + BitVec.ofNat 64 k) part) := by
  induction data generalizing blk with
  | nil => rfl
  | cons part data ih =>
    have next (k : Nat) : blk + 1 + BitVec.ofNat 64 k = blk + BitVec.ofNat 64 (k + 1) := by
      rw [BitVec.add_assoc, Nat.add_comm k, BitVec.ofNat_add]
      rfl
    have isPart : (wapblBlkhashGet wr blk).elim (.ok part : Except Nat _)
        (fun wb => .ok (logged wb.wb_off)) = .ok (wr.laid logged blk part) := by
      unfold WapblReplay.laid WapblReplay.offOf
      cases wapblBlkhashGet wr blk <;> rfl
    rw [wapblReplayRead, isPart, ih, mapIdx_cons]
    simp only [next, BitVec.add_zero]
    rfl

/-- The contents tell the places in the log apart, and from the buffer. -/
theorem WapblReplay.offOf_eq {blk oth : BitVec 64}
    (laidEq : ∀ logged : Nat → List UInt8, (∀ off, (logged off).length = n) →
      wr.laid logged blk (List.replicate n 0) = wr.laid logged oth (List.replicate n 0))
    (isPositive : 0 < n) : wr.offOf blk = wr.offOf oth := by
  obtain ⟨m, rfl⟩ := exists_eq_succ_of_ne_zero (Nat.ne_of_gt isPositive)
  have heads (off : Nat) := congrArg List.head? (laidEq
    (fun plc => List.replicate (m + 1) (if plc = off then 1 else 2))
    fun _ => length_replicate)
  unfold laid at heads
  cases atBlk : wr.offOf blk with
  | none =>
    cases atOther : wr.offOf oth with
    | none => rfl
    | some off =>
      have := heads off
      simp [atBlk, atOther, replicate_succ] at this
  | some off =>
    have := heads off
    cases atOther : wr.offOf oth with
    | none => simp [atBlk, atOther, replicate_succ] at this
    | some plc =>
      by_cases isSame : plc = off
      · rw [isSame]
      · simp [atBlk, atOther, replicate_succ, isSame] at this

section Replayed

variable {dev : Nat → UInt8} {logged : Nat → List UInt8} {blocks : List WapblBlk} {x len : Nat}

theorem writeChain_all {io : Requests ε} {chain : List WapblBlk} {st : Option ε × List WapblBlk}
    (all : ∀ wb ∈ chain, Replays wr io wb) : (writeChain wr io chain st).2 = st.2 ++ chain := by
  induction chain generalizing st with
  | nil => exact (append_nil _).symm
  | cons wb tl ih =>
    obtain ⟨fst, oths⟩ := forall_mem_cons.mp all
    rw [writeChain_cons fst, ih oths, append_assoc, singleton_append]

theorem wapblReplayWrite_all {io : Requests ε}
    (all : ∀ i, ∀ wb ∈ wr.wr_blkhash i, Replays wr io wb) :
    (wapblReplayWrite wr io).2 = wr.hashed := by
  unfold wapblReplayWrite WapblReplay.hashed
  induction wr.wr_blkhashmask + 1 with
  | zero => rfl
  | succ n ih =>
    rw [writeChains, writeChain_all (all n), ih, range_succ, flatMap_append, flatMap_singleton]

theorem replays_calm (wb : WapblBlk) : Replays wr calm wb := by
  unfold Replays readBlock wapblCircRead
  dsimp only
  split <;> split <;> exact ⟨_, _, rfl, rfl⟩

/-- A byte comes from the last block that covers it, or is as it was. -/
theorem writeBlocks_apply (lens : ∀ off, (logged off).length = len) :
    writeBlocks logged blocks dev x =
      (blocks.reverse.find? fun wb => decide (wb.start ≤ x ∧ x < wb.start + len)).elim (dev x)
        fun wb => (logged wb.wb_off).getD (x - wb.start) 0 := by
  unfold writeBlocks
  induction blocks using reverseRecOn with
  | nil => rfl
  | append_singleton blocks wb ih =>
    rw [foldl_append, reverse_append, reverse_singleton, singleton_append, foldl_cons, foldl_nil]
    have len' := lens wb.wb_off
    by_cases covers : wb.start ≤ x ∧ x < wb.start + len
    · rw [find?_cons_of_pos (by simpa using covers), Option.elim_some]
      obtain ⟨y, rfl⟩ := Nat.exists_eq_add_of_le covers.1
      have bnd : y < (logged wb.wb_off).length := by omega
      rw [Nat.add_sub_cancel_left, fill_of_mem bnd, getD_eq_getElem _ _ bnd]
    · rw [find?_cons_of_neg (by simpa using covers), ← ih]
      by_cases below : x < wb.start
      · exact fill_of_lt below
      · exact fill_of_ge (by omega)

/-- The byte of a part that was read, with what the replay has there. -/
def WapblReplay.SameByte (wr : WapblReplay) (blk : BitVec 64) (logged : Nat → List UInt8)
    (dev : Nat → UInt8) (k j : Nat) : Prop :=
  (wr.offOf (wr.blockAt blk k)).elim (dev (wr.partAt blk k + j)) (fun off => (logged off).getD j 0) =
    (wr.lastOver (wr.partAt blk k + j)).elim (dev (wr.partAt blk k + j))
      fun wb => (logged wb.wb_off).getD (wr.partAt blk k + j - wb.start) 0

theorem laid_part_iff (lens : ∀ off, (logged off).length = 1 <<< wr.wr_fs_dev_bshift) (k : Nat) :
    wr.laid logged (wr.blockAt blk k) (span dev (wr.partAt blk k) (1 <<< wr.wr_fs_dev_bshift)) =
        span (writeBlocks logged (wapblReplayWrite wr calm).2 dev) (wr.partAt blk k)
          (1 <<< wr.wr_fs_dev_bshift) ↔
      ∀ j < 1 <<< wr.wr_fs_dev_bshift, wr.SameByte blk logged dev k j := by
  have isLaid : wr.laid logged (wr.blockAt blk k)
      (span dev (wr.partAt blk k) (1 <<< wr.wr_fs_dev_bshift)) =
        (List.range (1 <<< wr.wr_fs_dev_bshift)).map fun j =>
          (wr.offOf (wr.blockAt blk k)).elim (dev (wr.partAt blk k + j))
            (fun off => (logged off).getD j 0) := by
    unfold WapblReplay.laid
    cases wr.offOf (wr.blockAt blk k) with
    | none => rfl
    | some off =>
      refine ext_getElem (by simp [lens]) fun j below _ => ?_
      simp only [Option.elim_some, getElem_map, getElem_range]
      exact (getD_eq_getElem _ _ below).symm
  rw [isLaid, wapblReplayWrite_all fun _ wb _ => replays_calm wb, NetBSD.Machine.span, map_inj_left]
  simp only [mem_range, writeBlocks_apply lens]
  rfl

theorem lastOver_covers (last : wr.lastOver x = some wb) :
    wb.start ≤ x ∧ x < wb.start + 1 <<< wr.wr_fs_dev_bshift := by
  unfold WapblReplay.lastOver at last
  simpa using find?_some last

/-- Contents that tell the bytes of the log apart find the block that is written last. -/
theorem aligned_iff : wr.Aligned blk n ↔ ∀ logged : Nat → List UInt8,
    (∀ off, (logged off).length = 1 <<< wr.wr_fs_dev_bshift) → ∀ dev : Nat → UInt8,
      ∀ k < n, ∀ j < 1 <<< wr.wr_fs_dev_bshift, wr.SameByte blk logged dev k j := by
  unfold WapblReplay.Aligned WapblReplay.SameByte
  constructor
  · intro aligned logged lens dev k isPart j isByte
    have same := aligned k isPart j isByte
    cases isLast : wr.lastOver (wr.partAt blk k + j) with
    | none =>
      rw [isLast] at same
      rw [Option.map_eq_none_iff.mp same.symm]
      rfl
    | some wb =>
      rw [isLast] at same
      obtain ⟨off, isOff, both⟩ := Option.map_eq_some_iff.mp same.symm
      obtain ⟨isStart, isPlace⟩ := Prod.mk.inj both
      rw [isOff, Option.elim_some, Option.elim_some, isPlace, ← isStart, Nat.add_sub_cancel_left]
  · intro same k isPart j isByte
    have ask (v : Nat → Nat → UInt8) := same
      (fun off => (List.range (1 <<< wr.wr_fs_dev_bshift)).map (v off)) (by simp) (fun _ => 0)
      k isPart j isByte
    have get {f : Nat → UInt8} {i : Nat} (below : i < 1 <<< wr.wr_fs_dev_bshift) :
        ((List.range (1 <<< wr.wr_fs_dev_bshift)).map f).getD i 0 = f i := by
      rw [getD_eq_getElem _ _ (by simpa using below), getElem_map, getElem_range]
    cases isLast : wr.lastOver (wr.partAt blk k + j) with
    | none =>
      cases isOff : wr.offOf (wr.blockAt blk k) with
      | none => rfl
      | some off =>
        have bad := ask fun _ _ => 1
        rw [isLast, isOff, Option.elim_some, Option.elim_none, get isByte] at bad
        exact absurd bad (by decide)
    | some wb =>
      have covers := lastOver_covers isLast
      have bnd : wr.partAt blk k + j - wb.start < 1 <<< wr.wr_fs_dev_bshift := by omega
      cases isOff : wr.offOf (wr.blockAt blk k) with
      | none =>
        have bad := ask fun _ _ => 1
        rw [isLast, isOff, Option.elim_some, Option.elim_none, get bnd] at bad
        exact absurd bad (by decide)
      | some off =>
        have fnd := ask fun o i => if o = off ∧ i = j then 1 else 2
        rw [isLast, isOff, Option.elim_some, Option.elim_some, get isByte, get bnd,
          if_pos ⟨rfl, rfl⟩] at fnd
        have both : wb.wb_off = off ∧ wr.partAt blk k + j - wb.start = j := by
          by_contra differ
          rw [if_neg differ] at fnd
          exact absurd fnd (by decide)
        rw [Option.map_some, Option.map_some, both.1]
        have isStart : wb.start = wr.partAt blk k := by omega
        rw [isStart]

end Replayed

end Reading

/-- The two functions look at one address only, and at addresses one apart; and what the replay
writes over the range is what they look for if its last block there begins with a part of the
range. -/
theorem readsRange_iff (wr : WapblReplay) (blk : BitVec 64) (n : Nat) : ReadsRange wr blk n ↔
    ((wapblBlkhashGet wr blk).isSome ∨ ∀ k < n, wapblBlkhashGet wr (wr.blockAt blk k) = none) ∧
      (∀ k < n, wr.offOf (blk + BitVec.ofNat 64 k) = wr.offOf (wr.blockAt blk k)) ∧
      wr.Aligned blk n := by
  have afterIff (same : ∀ k < n, wr.offOf (blk + BitVec.ofNat 64 k) = wr.offOf (wr.blockAt blk k))
      (logged : Nat → List UInt8) (dev : Nat → UInt8) :
      wapblReplayRead wr (fun off => (.ok (logged off) : Except Nat _)) blk (wr.parts dev blk n) =
          .ok (wr.parts (writeBlocks logged (wapblReplayWrite wr calm).2 dev) blk n) ↔
        ∀ k < n, wr.laid logged (wr.blockAt blk k)
            (span dev (wr.partAt blk k) (1 <<< wr.wr_fs_dev_bshift)) =
          span (writeBlocks logged (wapblReplayWrite wr calm).2 dev) (wr.partAt blk k)
            (1 <<< wr.wr_fs_dev_bshift) := by
    have hread : ((wr.parts dev blk n).mapIdx fun k part =>
        wr.laid logged (blk + BitVec.ofNat 64 k) part) = (List.range n).map fun k =>
          wr.laid logged (wr.blockAt blk k)
            (span dev (wr.partAt blk k) (1 <<< wr.wr_fs_dev_bshift)) := by
      refine ext_getElem (by simp [WapblReplay.parts]) fun k below _ => ?_
      have isPart : k < n := by simpa [WapblReplay.parts] using below
      simp only [WapblReplay.parts, getElem_mapIdx, getElem_map, getElem_range, WapblReplay.laid,
        same k isPart]
    rw [wapblReplayRead_eq, Except.ok.injEq, hread]
    unfold WapblReplay.parts
    rw [map_inj_left]
    simp only [mem_range]
  have lengthPos : 0 < 1 <<< wr.wr_fs_dev_bshift := by
    rw [one_shiftLeft]
    exact Nat.two_pow_pos _
  have atFirst : wr.blockAt blk 0 = blk := by
    rw [WapblReplay.blockAt, Nat.zero_mul, zero_shiftRight]
    exact BitVec.add_zero blk
  constructor
  · rintro ⟨canRead, read, s'⟩
    rw [wapblReplayCanRead_eq] at canRead
    have same (k : Nat) (below : k < n) :
        wr.offOf (blk + BitVec.ofNat 64 k) = wr.offOf (wr.blockAt blk k) := ?same
    refine ⟨or_iff_not_imp_left.mpr fun isAbsent k below => ?_, same, aligned_iff.mpr
      fun logged lens dev k below => (laid_part_iff lens k).mp
        ((afterIff same logged dev).mp (s' logged lens dev) k below)⟩
    · by_contra isAt
      exact isAbsent (canRead.mpr ⟨k, below, Option.isSome_iff_ne_none.mpr isAt⟩).2
    refine WapblReplay.offOf_eq (fun logged lens => ?_) lengthPos
    have reads := read logged lens
      (List.replicate n (List.replicate (1 <<< wr.wr_fs_dev_bshift) 0)) length_replicate
      fun part isIn => eq_of_mem_replicate isIn ▸ length_replicate
    rw [wapblReplayRead_eq, Except.ok.injEq, mapIdx_eq_mapIdx_iff] at reads
    have atK := reads k (length_replicate.symm ▸ below)
    rwa [getElem_replicate] at atK
  rintro ⟨fst, same, aligned⟩
  refine ⟨?_, fun logged _ data lengthEq _ => ?_, fun logged lens dev =>
    (afterIff same logged dev).mpr fun k below =>
      (laid_part_iff lens k).mpr (aligned_iff.mp aligned logged lens dev k below)⟩
  · rw [wapblReplayCanRead_eq]
    constructor
    · rintro ⟨isPositive, isAt⟩
      exact ⟨0, isPositive, atFirst.symm ▸ isAt⟩
    · rintro ⟨k, below, isAt⟩
      refine ⟨zero_lt_of_lt below, fst.resolve_right fun miss => ?_⟩
      rw [miss k below] at isAt
      cases isAt
  · rw [wapblReplayRead_eq, Except.ok.injEq, mapIdx_eq_mapIdx_iff]
    intro k below
    rw [WapblReplay.laid, WapblReplay.laid, same k (lengthEq ▸ below)]

/-- A log of blocks of 1024 bytes that has the second one only. -/
def secondLogged : WapblReplay :=
  { twoChains with
    wr_log_dev_bshift := 9
    wr_fs_dev_bshift := 10
    wr_blkhash := fun i => if i = 2 then [⟨2, 1024⟩] else [] }

/-- Only the second block of the range is in the hash, and it is not found. -/
theorem wapblReplayRead_misses_second : ¬ ReadsRange secondLogged 0 2 := by
  intro holds
  exact absurd (holds.canRead.mpr ⟨1, by decide, by decide⟩) (by decide)

end NetBSD.Kern
