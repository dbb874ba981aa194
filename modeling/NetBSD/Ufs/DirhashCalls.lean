import Mathlib.Data.List.Find
import NetBSD.Machine.Lowest
import NetBSD.Ufs.DirhashDir

/-!
Owns the two halves of the directory hash on their own. The table holds the
offset of every name where a walk from the name's slot comes to it, and nothing
else; the summary holds the free words of every block and the first block of
every class. Each change that a call makes to one of them has its lemma here.
-/

namespace NetBSD.Ufs.UfsDirhash

open NetBSD.Machine Function List Option

/-! ### The table -/

/-- A table holds the offsets of a list of names, each on the walk of its name. -/
structure Hashed (hash : List UInt8 → Nat) (table : Nat → Slot Nat) (hlen : Nat) (hused : Int)
    (live : List (List UInt8 × Nat)) : Prop where
  owned : ∀ s < hlen, ∀ o, table s = .used o →
    ∃ k, (k, o) ∈ live ∧ Reach hlen table (hash k % hlen) s
  present : ∀ k o, (k, o) ∈ live → ∃ s < hlen, table s = .used o
  once : ∀ s < hlen, ∀ s' < hlen, ∀ o, table s = .used o → table s' = .used o → s = s'
  count : hused = filled table hlen
  room : filled table hlen < hlen

def OffsetsDistinct (live : List (List UInt8 × Nat)) : Prop :=
  ∀ k k' o, (k, o) ∈ live → (k', o) ∈ live → k = k'

def NamesDistinct (live : List (List UInt8 × Nat)) : Prop :=
  ∀ k o o', (k, o) ∈ live → (k, o') ∈ live → o = o'

namespace Hashed

variable {hash : List UInt8 → Nat} {table : Nat → Slot Nat} {hlen : Nat} {hused : Int}
  {live live' : List (List UInt8 × Nat)} {k : List UInt8} {o : Nat} {slot : Nat}

section

variable (hashed : Hashed hash table hlen hused live)

include hashed

theorem positive : 0 < hlen :=
  Nat.zero_lt_of_lt hashed.room

theorem home_lt (k : List UInt8) :
    hash k % hlen < hlen := Nat.mod_lt _ hashed.positive

theorem congr (same : ∀ e, e ∈ live' ↔ e ∈ live) :
    Hashed hash table hlen hused live' where
  owned := by
    intro s below o used
    obtain ⟨k, isLive, reach⟩ := hashed.owned s below o used
    exact ⟨k, (same _).mpr isLive, reach⟩
  present := fun k o isLive => hashed.present k o ((same _).mp isLive)
  __ := hashed

theorem slot_of_live (distinct : OffsetsDistinct live) (isLive : (k, o) ∈ live) :
    ∃ s < hlen, table s = .used o ∧ Reach hlen table (hash k % hlen) s := by
  obtain ⟨s, below, used⟩ := hashed.present k o isLive
  obtain ⟨k', isLive', reach⟩ := hashed.owned s below o used
  obtain rfl := distinct k k' o isLive isLive'
  exact ⟨s, below, used, reach⟩

/-- A free slot on the probe takes the entry. -/
theorem insert (below : slot < hlen)
    (free : isFree (table slot) = true) (reach : Reach hlen table (hash k % hlen) slot)
    (fresh : ∀ k', (k', o) ∉ live) (rm : filled table hlen + 1 < hlen) :
    Hashed hash (update table slot (.used o)) hlen
      (if table slot = .empty then hused + 1 else hused) ((k, o) :: live) := by
  have notUsed : ∀ o', table slot ≠ .used o' := by
    intro o' hu
    rw [hu] at free
    cases free
  have total := @filled_update Nat table hlen slot (.used o) below
  change filled (update table slot (.used o)) hlen + (table slot).count =
    filled table hlen + 1 at total
  refine ⟨?_, ?_, ?_, ?_, by omega⟩
  · intro s sBelow o' hu
    by_cases here : s = slot
    · subst here
      rw [update_self] at hu
      cases hu
      exact ⟨k, mem_cons_self, reach.update nofun⟩
    · rw [update_of_ne here] at hu
      obtain ⟨k', isLive, reach'⟩ := hashed.owned s sBelow o' hu
      exact ⟨k', mem_cons_of_mem _ isLive, reach'.update nofun⟩
  · intro k' o' isLive
    cases mem_cons.mp isLive with
    | inl new =>
      cases new
      exact ⟨slot, below, update_self _ _ _⟩
    | inr old =>
      obtain ⟨s, sBelow, hu⟩ := hashed.present k' o' old
      refine ⟨s, sBelow, ?_⟩
      have away : s ≠ slot := by
        rintro rfl
        exact notUsed o' hu
      rw [update_of_ne away]
      exact hu
  · have away : ∀ s < hlen, s ≠ slot → table s ≠ .used o := by
      intro s sBelow _ hu
      obtain ⟨k', isLive, _⟩ := hashed.owned s sBelow o hu
      exact fresh k' isLive
    intro s sBelow s' sBelow' o' hu isUsed'
    by_cases here : s = slot
    · by_cases here' : s' = slot
      · rw [here, here']
      · rw [here, update_self] at hu
        cases hu
        rw [update_of_ne here'] at isUsed'
        exact absurd isUsed' (away s' sBelow' here')
    rw [update_of_ne here] at hu
    by_cases here' : s' = slot
    · rw [here', update_self] at isUsed'
      cases isUsed'
      exact absurd hu (away s sBelow here)
    · rw [update_of_ne here'] at isUsed'
      exact hashed.once s sBelow s' sBelow' o' hu isUsed'
  · have cnt := hashed.count
    by_cases emp : table slot = .empty
    · rw [if_pos emp]
      rw [emp] at total
      change filled (update table slot (.used o)) hlen + 0 = _ at total
      omega
    rw [if_neg emp]
    have one : (table slot).count = 1 := by
      cases isSlot : table slot with
      | empty => exact absurd isSlot emp
      | del | used _ => rfl
    omega

/-- A used slot takes the entry's new offset. -/
theorem move {new : Nat} (below : slot < hlen)
    (used : table slot = .used o) (reach : Reach hlen table (hash k % hlen) slot)
    (fresh : ∀ k', (k', new) ∈ live → new = o)
    (same : ∀ e, e ∈ live' ↔ e = (k, new) ∨ e ∈ live ∧ e.2 ≠ o) :
    Hashed hash (update table slot (.used new)) hlen hused live' := by
  have total := @filled_update Nat table hlen slot (.used new) below
  rw [used] at total
  have keeps := add_right_cancel total
  -- Another slot holds neither the old offset nor the new one.
  have oth : ∀ s < hlen, s ≠ slot → ∀ o', table s = .used o' → o' ≠ o ∧ o' ≠ new := by
    intro s sBelow away o' isUsed'
    have notOld : o' ≠ o := fun old => away (hashed.once s sBelow slot below o (old ▸ isUsed') used)
    refine ⟨notOld, fun isNew => notOld ?_⟩
    obtain ⟨k', isLive, _⟩ := hashed.owned s sBelow o' isUsed'
    rw [isNew] at isLive ⊢
    exact fresh k' isLive
  refine ⟨?_, ?_, ?_, by rw [keeps]; exact hashed.count, by rw [keeps]; exact hashed.room⟩
  · intro s sBelow o' isUsed'
    by_cases here : s = slot
    · subst here
      rw [update_self] at isUsed'
      cases isUsed'
      exact ⟨k, (same _).mpr (.inl rfl), reach.update nofun⟩
    · rw [update_of_ne here] at isUsed'
      obtain ⟨k', isLive, reach'⟩ := hashed.owned s sBelow o' isUsed'
      exact ⟨k', (same _).mpr (.inr ⟨isLive, (oth s sBelow here o' isUsed').1⟩),
        reach'.update nofun⟩
  · intro k' o' isLive
    cases (same _).mp isLive with
    | inl isNew =>
      cases isNew
      exact ⟨slot, below, update_self _ _ _⟩
    | inr old =>
      obtain ⟨s, sBelow, isUsed'⟩ := hashed.present k' o' old.1
      refine ⟨s, sBelow, ?_⟩
      have away : s ≠ slot := by
        rintro rfl
        rw [used] at isUsed'
        cases isUsed'
        exact old.2 rfl
      rw [update_of_ne away]
      exact isUsed'
  · intro s sBelow s' sBelow' o' holds holds'
    by_cases here : s = slot
    · by_cases here' : s' = slot
      · rw [here, here']
      · rw [here, update_self] at holds
        rw [update_of_ne here'] at holds'
        cases holds
        exact absurd rfl (oth s' sBelow' here' _ holds').2
    rw [update_of_ne here] at holds
    by_cases here' : s' = slot
    · rw [here', update_self] at holds'
      cases holds'
      exact absurd rfl (oth s sBelow here _ holds).2
    · rw [update_of_ne here'] at holds'
      exact hashed.once s sBelow s' sBelow' o' holds holds'

theorem delete (below : slot < hlen)
    (used : table slot = .used o) (same : ∀ e, e ∈ live' ↔ e ∈ live ∧ e.2 ≠ o) :
    Hashed hash (update table slot .del) hlen hused live' := by
  have total := @filled_update Nat table hlen slot .del below
  rw [used] at total
  have keeps := add_right_cancel total
  have oth : ∀ s, ∀ o', update table slot .del s = .used o' →
      s ≠ slot ∧ table s = .used o' := by
    intro s o' holds
    by_cases here : s = slot
    · rw [here, update_self] at holds
      cases holds
    · rw [update_of_ne here] at holds
      exact ⟨here, holds⟩
  refine ⟨?_, ?_, ?_, by rw [keeps]; exact hashed.count, by rw [keeps]; exact hashed.room⟩
  · intro s sBelow o' holds
    obtain ⟨away, holds⟩ := oth s o' holds
    obtain ⟨k', isLive, reach'⟩ := hashed.owned s sBelow o' holds
    refine ⟨k', (same _).mpr ⟨isLive, fun old => away ?_⟩, reach'.update nofun⟩
    exact hashed.once s sBelow slot below o (old ▸ holds) used
  · intro k' o' isLive
    obtain ⟨isLive, notOld⟩ := (same _).mp isLive
    obtain ⟨s, sBelow, holds⟩ := hashed.present k' o' isLive
    refine ⟨s, sBelow, ?_⟩
    have away : s ≠ slot := by
      rintro rfl
      rw [used] at holds
      cases holds
      exact notOld rfl
    rw [update_of_ne away]
    exact holds
  · intro s sBelow s' sBelow' o' holds holds'
    exact hashed.once s sBelow s' sBelow' o' (oth s o' holds).2 (oth s' o' holds').2

theorem clear (below : slot < hlen)
    (isDel : table slot = .del) (prev : table (wrapIncr slot hlen) = .empty) :
    Hashed hash (update table slot .empty) hlen (hused - 1) live ∧
      filled (update table slot .empty) hlen < filled table hlen := by
  have total := @filled_update Nat table hlen slot .empty below
  rw [isDel] at total
  change filled (update table slot .empty) hlen + 1 = filled table hlen at total
  have cnt := hashed.count
  have rm := hashed.room
  have oth : ∀ s, ∀ o', update table slot .empty s = .used o' → table s = .used o' := by
    intro s o' holds
    by_cases here : s = slot
    · rw [here, update_self] at holds
      cases holds
    · rwa [update_of_ne here] at holds
  refine ⟨⟨?_, ?_, ?_, by omega, by omega⟩, by omega⟩
  · intro s sBelow o' holds
    have used := oth s o' holds
    obtain ⟨k', isLive, reach⟩ := hashed.owned s sBelow o' used
    exact ⟨k', isLive, reach.clear (by rw [used]; nofun) prev⟩
  · intro k' o' isLive
    obtain ⟨s, sBelow, holds⟩ := hashed.present k' o' isLive
    refine ⟨s, sBelow, ?_⟩
    have away : s ≠ slot := by
      rintro rfl
      rw [isDel] at holds
      cases holds
    rw [update_of_ne away]
    exact holds
  · intro s sBelow s' sBelow' o' holds holds'
    exact hashed.once s sBelow s' sBelow' o' (oth s o' holds) (oth s' o' holds')

end

end Hashed

/-! ### The calls on the table -/

section Calls

variable {hash : List UInt8 → Nat} {dh : Dirhash} {live live' : List (List UInt8 × Nat)}
  {k : List UInt8} {o slot : Nat}

theorem ufsdirhashFindslot_spec
    (hashed : Hashed hash dh.dh_hash dh.dh_hlen dh.dh_hused live) (distinct : OffsetsDistinct live)
    (isLive : (k, o) ∈ live) : ∃ s < dh.dh_hlen, ufsdirhashFindslot hash dh k o = some s ∧
      dh.dh_hash s = .used o ∧ Reach dh.dh_hlen dh.dh_hash (hash k % dh.dh_hlen) s := by
  obtain ⟨s, below, used, reach⟩ := hashed.slot_of_live distinct isLive
  have fnd : scan dh.dh_hlen
      (fun slot => dh.dh_hash slot == .used o || dh.dh_hash slot == .empty) dh.dh_hlen
      (hash k % dh.dh_hlen) = some s := by
    apply reach.scan_eq (hashed.home_lt k)
    · rw [used, beq_self_eq_true, Bool.true_or]
    · intro i iBelow away full
      rw [Bool.or_eq_false_iff, beq_eq_false_iff_ne, beq_eq_false_iff_ne]
      exact ⟨fun same => away (hashed.once i iBelow s below o same used), full⟩
  have notFull : dh.dh_hused < dh.dh_hlen := by
    rw [hashed.count]
    exact Int.ofNat_lt.mpr hashed.room
  refine ⟨s, below, ?_, used, reach⟩
  rw [ufsdirhashFindslot, if_pos notFull, ufsdirhashHash, fnd, bind_some, if_pos used]

theorem delslotLoop_spec {fuel : Nat}
    (hashed : Hashed hash dh.dh_hash dh.dh_hlen dh.dh_hused live) (below : slot < dh.dh_hlen)
    (prev : dh.dh_hash (wrapIncr slot dh.dh_hlen) = .empty)
    (suff : filled dh.dh_hash dh.dh_hlen < fuel) : ∃ table hused,
      delslotLoop fuel slot dh = some { dh with dh_hash := table, dh_hused := hused } ∧
        Hashed hash table dh.dh_hlen hused live := by
  induction fuel generalizing dh slot with
  | zero => omega
  | succ fuel ih =>
    unfold delslotLoop
    by_cases isDel : dh.dh_hash slot = .del
    · rw [if_pos isDel]
      obtain ⟨clrd, fewer⟩ := hashed.clear below isDel prev
      refine ih clrd (wrapDecr_lt below) ?_ (lt_of_lt_of_le fewer (by omega))
      change update dh.dh_hash slot .empty (wrapIncr (wrapDecr slot dh.dh_hlen) dh.dh_hlen) = _
      rw [wrapIncr_wrapDecr below, update_self]
    · rw [if_neg isDel]
      exact ⟨_, _, rfl, hashed⟩

theorem ufsdirhashDelslot_spec
    (hashed : Hashed hash dh.dh_hash dh.dh_hlen dh.dh_hused live) (below : slot < dh.dh_hlen)
    (used : dh.dh_hash slot = .used o) (same : ∀ e, e ∈ live' ↔ e ∈ live ∧ e.2 ≠ o) :
    ∃ table hused,
      ufsdirhashDelslot dh slot = some { dh with dh_hash := table, dh_hused := hused } ∧
        Hashed hash table dh.dh_hlen hused live' := by
  have deleted := hashed.delete below used same
  unfold ufsdirhashDelslot
  dsimp only
  generalize update dh.dh_hash slot .del = table at deleted
  obtain ⟨e, eBelow, emp⟩ := exists_empty deleted.room
  obtain ⟨d, lt, stops, past⟩ :=
    exists_first (P := fun i => (table i != .del) = true) below eBelow (by rw [emp]; rfl)
  rw [scan_eq below (fun e prev => Bool.eq_false_iff.mpr (past e prev)) stops lt,
    bind_some]
  generalize isAt : ahead dh.dh_hlen slot d = i at stops
  have iBelow : i < dh.dh_hlen := isAt ▸ ahead_lt deleted.positive
  by_cases empty : table i = .empty
  · rw [if_pos empty]
    obtain ⟨table', hused', loop, hashed'⟩ :=
      @delslotLoop_spec hash { dh with dh_hash := table } live' (wrapDecr i dh.dh_hlen) dh.dh_hlen
        deleted (wrapDecr_lt iBelow) (by rw [wrapIncr_wrapDecr iBelow]; exact empty) deleted.room
    rw [loop, bind_some]
    refine ⟨table', hused', ?_, hashed'⟩
    have cnt := hashed'.count
    rw [if_pos (by change 0 ≤ hused'; omega)]
  · rw [if_neg empty]
    exact ⟨table, dh.dh_hused, rfl, deleted⟩

theorem exists_free_slot (hashed : Hashed hash dh.dh_hash dh.dh_hlen dh.dh_hused live)
    (k : List UInt8) (stop : Nat → Bool)
    (stops : ∀ i < dh.dh_hlen, dh.dh_hash i = .empty → stop i = true) : ∃ s < dh.dh_hlen,
      scan dh.dh_hlen stop dh.dh_hlen (hash k % dh.dh_hlen) = some s ∧ stop s = true ∧
        Reach dh.dh_hlen dh.dh_hash (hash k % dh.dh_hlen) s := by
  obtain ⟨e, eBelow, empty⟩ := exists_empty hashed.room
  obtain ⟨d, lt, isStop, past⟩ :=
    exists_first (P := fun i => stop i = true) (hashed.home_lt k) eBelow (stops e eBelow empty)
  refine ⟨_, ahead_lt hashed.positive, scan_eq (hashed.home_lt k)
    (fun e prev => Bool.eq_false_iff.mpr (past e prev)) isStop lt, isStop,
    d, lt, rfl, ?_⟩
  intro e prev isEmpty'
  exact past e prev (stops _ (ahead_lt hashed.positive) isEmpty')

end Calls

/-! ### The summary of free space -/

/-- The summary says how many words of every block are free. -/
structure Summarised (blkfree : Nat → Nat) (nblk dirblks : Nat) (firstfree : Nat → Option Nat)
    (words : Nat → Nat) : Prop where
  within : dirblks ≤ nblk
  blkfree : ∀ b < dirblks, blkfree b = words b
  bounded : ∀ b < dirblks, words b ≤ dirblksiz / diralign
  firstfree : ∀ c ≤ dhNfstats, IsLowest (fun b => blkfree2idx (words b) = c) dirblks (firstfree c)

theorem blkfree2idx_le (n : Nat) : blkfree2idx n ≤ dhNfstats := by
  unfold blkfree2idx
  split <;> omega

section Summary

variable {dh : Dirhash} {words : Nat → Nat} {offset w : Nat} {diff : Int}

/-- The free lists follow a block's new count. -/
theorem ufsdirhashAdjfree_spec
    (summ : Summarised dh.dh_blkfree dh.dh_nblk dh.dh_dirblks dh.dh_firstfree words)
    (lt : offset / dirblksiz < dh.dh_dirblks)
    (changed : (words (offset / dirblksiz) : Int) + diff.tdiv diralign = w)
    (bnd : w ≤ dirblksiz / diralign) : ∃ blkfree firstfree, ufsdirhashAdjfree dh offset diff =
        some { dh with dh_blkfree := blkfree, dh_firstfree := firstfree } ∧
      Summarised blkfree dh.dh_nblk dh.dh_dirblks firstfree
        (update words (offset / dirblksiz) w) := by
  unfold ufsdirhashAdjfree
  generalize offset / dirblksiz = block at lt changed
  have sml : w < 256 := lt_of_le_of_lt bnd (by decide)
  have isWords : (((dh.dh_blkfree block : Int) + diff.tdiv diralign) % 256).toNat = w := by
    rw [summ.blkfree block lt]
    omega
  rw [if_pos ⟨lt_of_lt_of_le lt summ.within, lt⟩, isWords,
    summ.blkfree block lt]
  have blkfree : ∀ b < dh.dh_dirblks,
      update dh.dh_blkfree block w b = update words block w b := by
    intro b below
    by_cases here : b = block
    · rw [here, update_self, update_self]
    · rw [update_of_ne here, update_of_ne here]
      exact summ.blkfree b below
  have stillBounded : ∀ b < dh.dh_dirblks, update words block w b ≤ dirblksiz / diralign := by
    intro b below
    by_cases here : b = block
    · rwa [here, update_self]
    · rw [update_of_ne here]
      exact summ.bounded b below
  have apart : ∀ c b, b ≠ block →
      (blkfree2idx (update words block w b) = c ↔ blkfree2idx (words b) = c) := by
    intro c b away
    rw [update_of_ne away]
  by_cases sameClass : blkfree2idx (words block) = blkfree2idx w
  · rw [if_pos sameClass]
    refine ⟨_, dh.dh_firstfree, rfl, summ.within, blkfree, stillBounded, ?_⟩
    intro c upTo
    refine (summ.firstfree c upTo).congr fun b _ => ?_
    by_cases here : b = block
    · rw [here, update_self, sameClass]
    · exact apart c b here
  rw [if_neg sameClass]
  refine ⟨_, _, rfl, summ.within, blkfree, stillBounded, ?_⟩
  generalize fst : (if dh.dh_firstfree (blkfree2idx (words block)) = some block then _
    else dh.dh_firstfree) = firstfree
  have leaves : ∀ c ≤ dhNfstats, c ≠ blkfree2idx w →
      IsLowest (fun b => blkfree2idx (update words block w b) = c) dh.dh_dirblks
        (firstfree c) := by
    intro c upTo notNew
    have prev := summ.firstfree c upTo
    by_cases isOld : c = blkfree2idx (words block)
    · have lost : ¬ blkfree2idx (update words block w block) = c := by
        rw [update_self]
        exact Ne.symm notNew
      rw [← fst]
      by_cases rcd : dh.dh_firstfree (blkfree2idx (words block)) = some block
      · rw [if_pos rcd, isOld, update_self]
        rw [isOld, rcd] at prev
        rw [isOld] at lost
        have next := prev.next lost fun b away => apart _ b away
        have searched : ∀ b ∈ List.range' (block + 1) (dh.dh_dirblks - (block + 1)),
            decide (blkfree2idx (update dh.dh_blkfree block w b) =
              blkfree2idx (words block)) =
            decide (blkfree2idx (update words block w b) = blkfree2idx (words block)) := by
          intro b isMem
          have range := mem_range'_1.mp isMem
          rw [blkfree b (by omega)]
        rw [find?_congr searched]
        exact next
      · rw [if_neg rcd]
        exact prev.lose (isOld ▸ rcd) lost fun b away => apart c b away
    · have keeps : firstfree c = dh.dh_firstfree c := by
        rw [← fst]
        split
        · rw [update_of_ne isOld]
        · rfl
      rw [keeps]
      refine prev.congr fun b _ => ?_
      by_cases here : b = block
      · rw [here, update_self]
        exact iff_of_false (Ne.symm notNew) (Ne.symm isOld)
      · exact apart c b here
  intro c upTo
  by_cases isNew : c = blkfree2idx w
  · rw [isNew, update_self]
    have keeps : firstfree (blkfree2idx w) = dh.dh_firstfree (blkfree2idx w) := by
      rw [← fst]
      split
      · rw [update_of_ne (Ne.symm sameClass)]
      · rfl
    rw [keeps]
    exact (summ.firstfree _ (blkfree2idx_le w)).gain lt
      (by rw [update_self]) fun b away => apart _ b away
  · rw [update_of_ne isNew]
    exact leaves c upTo isNew

end Summary

/-!
### The calls

What each call that changes the directory hash does to its two halves. A
call frees the hash or leaves one that indexes the changed directory; the
invariant says nothing once the hash is gone.
-/

structure Indexed (hash : List UInt8 → Nat) (dh : Dirhash) (live : List (List UInt8 × Nat))
    (words : Nat → Nat) : Prop where
  hashed : Hashed hash dh.dh_hash dh.dh_hlen dh.dh_hused live
  summarised : Summarised dh.dh_blkfree dh.dh_nblk dh.dh_dirblks dh.dh_firstfree words
  positive : 0 < dh.dh_dirblks
  wide : 8 ≤ dh.dh_nblk ∧ 1 < dh.dh_narrays

/-- The hash of a directory, while it exists, indexes its names and counts its free words. -/
def Keeps (hash : List UInt8 → Nat) (ip : Inode) (live : List (List UInt8 × Nat))
    (words : Nat → Nat) (dirblks : Nat) : Prop :=
  ∀ dh, ip.i_dirhash = some dh → Indexed hash dh live words ∧ dh.dh_dirblks = dirblks

section Calls

variable {hash : List UInt8 → Nat} {ip : Inode} {live live' : List (List UInt8 × Nat)}
  {words : Nat → Nat} {dirblks offset w : Nat} {dirp : Direct}

theorem keeps_none (hn : ip.i_dirhash = none) : Keeps hash ip live words dirblks := by
  rw [Keeps, hn]
  exact nofun

theorem keeps_some {dh : Dirhash} {blks : List (List Direct)} (idxd : Indexed hash dh live words) :
    Keeps hash ⟨blks, some dh⟩ live words dh.dh_dirblks := fun _ isHash => by
  cases isHash
  exact ⟨idxd, rfl⟩

theorem Keeps.congr (keeps : Keeps hash ip live words dirblks) (same : ∀ e, e ∈ live' ↔ e ∈ live) :
    Keeps hash ip live' words dirblks := by
  intro dh isHash
  obtain ⟨idxd, isDirblks⟩ := keeps dh isHash
  exact ⟨{ idxd with hashed := idxd.hashed.congr same }, isDirblks⟩

theorem tdiv_dirsiz (dirp : Direct) :
    (dirp.dirsiz : Int).tdiv diralign = (dirp.dirsiz / diralign : Nat) ∧
      (-(dirp.dirsiz : Int)).tdiv diralign = -((dirp.dirsiz / diralign : Nat) : Int) := by
  rw [Int.neg_tdiv]
  exact ⟨rfl, rfl⟩

theorem div_lt_of_lt (below : offset < dirblks * dirblksiz) : offset / dirblksiz < dirblks :=
  Nat.div_lt_of_lt_mul (by rwa [mul_comm])

/-- An added entry keeps the hash and its free counts. -/
theorem ufsdirhashAdd_keeps (keeps : Keeps hash ip live words dirblks)
    (lt : offset < dirblks * dirblksiz) (fresh : ∀ k, (k, offset) ∉ live)
    (taken : w + dirp.dirsiz / diralign = words (offset / dirblksiz)) : ∃ ip',
      ufsdirhashAdd hash ip dirp offset = some ip' ∧ ip'.blocks = ip.blocks ∧
        Keeps hash ip' ((dirp.d_name, offset) :: live)
          (update words (offset / dirblksiz) w) dirblks := by
  unfold ufsdirhashAdd
  cases isHash : ip.i_dirhash with
  | none => exact ⟨ip, rfl, rfl, keeps_none isHash⟩
  | some dh =>
    obtain ⟨⟨hashed, summ, pos, wide⟩, rfl⟩ := keeps dh isHash
    dsimp only
    rw [if_neg (not_le.mpr lt)]
    by_cases full : ((dh.dh_hlen * 3 / 4 : Nat) : Int) ≤ dh.dh_hused
    · rw [if_pos full]
      exact ⟨_, rfl, rfl, keeps_none rfl⟩
    rw [if_neg full]
    have rm : filled dh.dh_hash dh.dh_hlen + 1 < dh.dh_hlen := by
      have cnt := hashed.count
      omega
    obtain ⟨slot, below, fnd, free, reach⟩ := exists_free_slot hashed dirp.d_name
      (fun slot => isFree (dh.dh_hash slot)) fun i _ isEmpty => by rw [isEmpty]; rfl
    rw [ufsdirhashHash, fnd, bind_some]
    have insd := hashed.insert below free reach fresh rm
    obtain ⟨blkfree, firstfree, adjusted, summarised'⟩ := @ufsdirhashAdjfree_spec { dh with
        dh_hash := update dh.dh_hash slot (.used offset)
        dh_hused := if dh.dh_hash slot = .empty then dh.dh_hused + 1 else dh.dh_hused }
      words offset w (-dirp.dirsiz) summ (div_lt_of_lt lt)
      (by
        rw [(tdiv_dirsiz dirp).2, ← taken, Int.natCast_add]
        exact Int.add_neg_cancel_right _ _)
      (Nat.le_trans (taken ▸ Nat.le_add_right w _) (summ.bounded _ (div_lt_of_lt lt)))
    rw [adjusted]
    exact ⟨_, rfl, rfl, keeps_some ⟨insd, summarised', pos, wide⟩⟩

section

variable (keeps : Keeps hash ip live words dirblks) (distinct : OffsetsDistinct live)
  (isLive : (dirp.d_name, offset) ∈ live) (inside : offset < dirblks * dirblksiz)

include keeps distinct isLive inside

theorem ufsdirhashRemove_keeps (same : ∀ e, e ∈ live' ↔ e ∈ live ∧ e.2 ≠ offset)
    (given : w = words (offset / dirblksiz) + dirp.dirsiz / diralign)
    (bnd : w ≤ dirblksiz / diralign) : ∃ ip',
      ufsdirhashRemove hash ip dirp offset = some ip' ∧ ip'.blocks = ip.blocks ∧
        Keeps hash ip' live' (update words (offset / dirblksiz) w) dirblks := by
  unfold ufsdirhashRemove
  cases isHash : ip.i_dirhash with
  | none => exact ⟨ip, rfl, rfl, keeps_none isHash⟩
  | some dh =>
    obtain ⟨⟨hashed, summ, pos, wide⟩, rfl⟩ := keeps dh isHash
    dsimp only
    obtain ⟨slot, below, fnd, used, _⟩ := ufsdirhashFindslot_spec hashed distinct isLive
    obtain ⟨table, hused, deleted, hashed'⟩ := ufsdirhashDelslot_spec hashed below used same
    obtain ⟨blkfree, firstfree, adjusted, summarised'⟩ := @ufsdirhashAdjfree_spec
      { dh with dh_hash := table, dh_hused := hused } words offset w dirp.dirsiz summ
      (div_lt_of_lt inside) (by rw [(tdiv_dirsiz dirp).1, given, Int.natCast_add]) bnd
    rw [if_neg (not_le.mpr inside), fnd, bind_some, deleted, bind_some,
      adjusted]
    exact ⟨_, rfl, rfl, keeps_some ⟨hashed', summarised', pos, wide⟩⟩

theorem ufsdirhashMove_keeps {new : Nat} (newInside : new < dirblks * dirblksiz)
    (fresh : ∀ k, (k, new) ∈ live → new = offset)
    (same : ∀ e, e ∈ live' ↔ e = (dirp.d_name, new) ∨ e ∈ live ∧ e.2 ≠ offset) : ∃ ip',
      ufsdirhashMove hash ip dirp offset new = some ip' ∧ ip'.blocks = ip.blocks ∧
        Keeps hash ip' live' words dirblks := by
  unfold ufsdirhashMove
  cases isHash : ip.i_dirhash with
  | none => exact ⟨ip, rfl, rfl, keeps_none isHash⟩
  | some dh =>
    obtain ⟨⟨hashed, summ, pos, wide⟩, rfl⟩ := keeps dh isHash
    dsimp only
    obtain ⟨slot, below, fnd, used, reach⟩ := ufsdirhashFindslot_spec hashed distinct isLive
    rw [if_pos ⟨inside, newInside⟩, fnd]
    exact ⟨_, rfl, rfl, keeps_some ⟨hashed.move below used reach fresh same, summ, pos, wide⟩⟩

end

theorem blkfree2idx_whole : blkfree2idx (dirblksiz / diralign) = dhNfstats := by decide

/-- A new block is counted all free. -/
theorem ufsdirhashNewblk_keeps (keeps : Keeps hash ip live words dirblks)
    {words' : Nat → Nat} (same : ∀ b < dirblks, words' b = words b)
    (fresh : words' dirblks = dirblksiz / diralign) : ∃ ip',
      ufsdirhashNewblk ip (dirblks * dirblksiz) = some ip' ∧ ip'.blocks = ip.blocks ∧
        Keeps hash ip' live words' (dirblks + 1) := by
  unfold ufsdirhashNewblk
  cases isHash : ip.i_dirhash with
  | none => exact ⟨ip, rfl, rfl, keeps_none isHash⟩
  | some dh =>
    obtain ⟨⟨hashed, summ, pos, wide⟩, rfl⟩ := keeps dh isHash
    have quo : dh.dh_dirblks * dirblksiz / dirblksiz = dh.dh_dirblks :=
      Nat.mul_div_cancel _ (by decide)
    dsimp only
    rw [if_pos rfl, quo]
    by_cases outOfSpace : dh.dh_nblk ≤ dh.dh_dirblks
    · rw [if_pos outOfSpace]
      exact ⟨_, rfl, rfl, keeps_none rfl⟩
    rw [if_neg outOfSpace]
    refine ⟨_, rfl, rfl, keeps_some ⟨hashed, ⟨Nat.lt_of_not_le outOfSpace, ?_, ?_, ?_⟩, Nat.succ_pos _, wide⟩⟩
    · intro b below
      change b < dh.dh_dirblks + 1 at below
      by_cases last : b = dh.dh_dirblks
      · rw [last, fresh]
        exact update_self _ _ _
      · rw [same b (by omega)]
        change update dh.dh_blkfree dh.dh_dirblks _ b = words b
        rw [update_of_ne last]
        exact summ.blkfree b (by omega)
    · intro b below
      change b < dh.dh_dirblks + 1 at below
      by_cases last : b = dh.dh_dirblks
      · rw [last, fresh]
      · rw [same b (by omega)]
        exact summ.bounded b (by omega)
    · intro c upTo
      have old : IsLowest (fun b => blkfree2idx (words' b) = c) dh.dh_dirblks (dh.dh_firstfree c) :=
        (summ.firstfree c upTo).congr fun b below => by rw [same b below]
      obtain ⟨notClass, isClass⟩ := old.extend
      change IsLowest _ (dh.dh_dirblks + 1) ((if dh.dh_firstfree dhNfstats = none then
        update dh.dh_firstfree dhNfstats (some dh.dh_dirblks)
        else dh.dh_firstfree) c)
      by_cases whole : c = dhNfstats
      · subst whole
        have rcd := isClass (by rw [fresh]; exact blkfree2idx_whole)
        by_cases missing : dh.dh_firstfree dhNfstats = none
        · rw [if_pos missing]
          rwa [if_pos missing] at rcd
        · rw [if_neg missing]
          rwa [if_neg missing] at rcd
      · have rcd := notClass (by
          rw [fresh]
          exact Ne.symm whole)
        by_cases missing : dh.dh_firstfree dhNfstats = none
        · rwa [if_pos missing, update_of_ne whole]
        · rwa [if_neg missing]

theorem howmany_mul (n : Nat) : howmany (n * dirblksiz) dirblksiz = n := by
  unfold howmany dirblksiz
  omega

/-- A truncation forgets the blocks cut off. -/
theorem ufsdirhashDirtrunc_keeps (keeps : Keeps hash ip live words dirblks) {block : Nat}
    (fewer : block ≤ dirblks)
    (fresh : ∀ b, block ≤ b → b < dirblks → words b = dirblksiz / diralign) : ∃ ip',
      ufsdirhashDirtrunc ip (block * dirblksiz) = some ip' ∧ ip'.blocks = ip.blocks ∧
        Keeps hash ip' live words block := by
  unfold ufsdirhashDirtrunc
  cases isHash : ip.i_dirhash with
  | none => exact ⟨ip, rfl, rfl, keeps_none isHash⟩
  | some dh =>
    obtain ⟨⟨hashed, summ, pos, wide⟩, rfl⟩ := keeps dh isHash
    dsimp only
    rw [if_neg (Nat.not_lt.mpr (Nat.mul_le_mul_right _ fewer)), howmany_mul]
    by_cases sml : block < dh.dh_nblk / 8 ∧ 1 < dh.dh_narrays
    · rw [if_pos sml]
      exact ⟨_, rfl, rfl, keeps_none rfl⟩
    rw [if_neg sml]
    have someLeft : 0 < block := by omega
    have noneUsed : (List.range' block (dh.dh_dirblks - block)).any
        (fun i => dh.dh_blkfree i != dirblksiz / diralign) = false := by
      rw [List.any_eq_false]
      intro i isMem
      have range := mem_range'_1.mp isMem
      rw [summ.blkfree i (by omega), fresh i (by omega) (by omega)]
      simp
    generalize fst : (if ((dh.dh_firstfree dhNfstats).any fun first =>
      decide (block ≤ first)) = true then update dh.dh_firstfree dhNfstats none
      else dh.dh_firstfree) = firstfree
    -- A block of another class is not cut off, so its record stays.
    have tl : ∀ c ≤ dhNfstats, c ≠ dhNfstats → firstfree c = dh.dh_firstfree c ∧
        ∀ low, dh.dh_firstfree c = some low → low < block := by
      intro c upTo notWhole
      constructor
      · rw [← fst]
        split
        · rw [update_of_ne notWhole]
        · rfl
      intro low isLow
      have rcd := summ.firstfree c upTo
      rw [isLow] at rcd
      obtain ⟨below, isClass, _⟩ := rcd
      by_contra far
      rw [fresh low (by omega) below] at isClass
      exact notWhole isClass.symm
    have whole : IsLowest (fun b => blkfree2idx (words b) = dhNfstats) block
        (firstfree dhNfstats) := by
      have rcd := summ.firstfree dhNfstats (le_refl _)
      rw [← fst]
      by_cases cut : ((dh.dh_firstfree dhNfstats).any fun first =>
          decide (block ≤ first)) = true
      · rw [if_pos cut]
        refine (rcd.shrink fewer).2 fun low isLow => ?_
        rw [isLow] at cut
        exact of_decide_eq_true cut
      · rw [if_neg cut]
        refine (rcd.shrink fewer).1 fun low isLow => ?_
        rw [isLow] at cut
        exact Nat.lt_of_not_le fun far => cut (decide_eq_true far)
    have sound : ∀ c ≤ dhNfstats,
        IsLowest (fun b => blkfree2idx (words b) = c) block (firstfree c) := by
      intro c upTo
      by_cases hw : c = dhNfstats
      · rwa [hw]
      · rw [(tl c upTo hw).1]
        exact ((summ.firstfree c upTo).shrink fewer).1 (tl c upTo hw).2
    have noneCut : (List.range dhNfstats).any
        (fun i => (firstfree i).any fun first => decide (block ≤ first)) = false := by
      rw [List.any_eq_false]
      intro i isMem cut
      have below := mem_range.mp isMem
      obtain ⟨isSame, lt⟩ := tl i (le_of_lt below) (ne_of_lt below)
      obtain ⟨low, isRecord, far⟩ := (any_eq_true _ _).mp cut
      rw [isSame] at isRecord
      exact not_le.mpr (lt low isRecord) (of_decide_eq_true far)
    rw [noneUsed, noneCut]
    refine ⟨_, rfl, rfl, keeps_some ⟨hashed, ⟨le_trans fewer summ.within, ?_, ?_, sound⟩, someLeft, wide⟩⟩
    · exact fun b below => summ.blkfree b (lt_of_lt_of_le below fewer)
    · exact fun b below => summ.bounded b (lt_of_lt_of_le below fewer)

end Calls

end NetBSD.Ufs.UfsDirhash
