import Mathlib.Data.Finset.Card
import Mathlib.Data.Fintype.Basic
import NetBSD.Gen.Radixtree

/-!
Owns what a radix tree means: the map from indices to leaves and their tags, and
the counts and tag bits that every intermediate node keeps.
-/

namespace NetBSD.Gen.Radixtree

open Function Nat Finset RadixTree Entry

variable {α : Type} {idx other : BitVec 64} {height : Nat} {e : Entry α}
  {nPtrs : Fin 16 → Entry α}

/-! ### Indices -/

theorem slot_testBit (idx : BitVec 64) (lvl : Nat) {bit : Nat} (inSlot : bit < 4) :
    (slot idx (4 * lvl)).val.testBit bit = idx.getLsbD (4 * lvl + bit) := by
  have isMod : (slot idx (4 * lvl)).val = (idx.toNat >>> (4 * lvl)) % 2 ^ 4 := by
    simp [slot]
  rw [isMod, testBit_mod_two_pow, testBit_shiftRight, BitVec.testBit_toNat]
  simp [inSlot]

theorem slot_ext (same : ∀ lvl < 16, slot other (4 * lvl) = slot idx (4 * lvl)) :
    other = idx := by
  apply BitVec.eq_of_getLsbD_eq
  intro bit inWord
  have inSlot : bit % 4 < 4 := mod_lt _ (by decide)
  have isBit : bit = 4 * (bit / 4) + bit % 4 := (div_add_mod bit 4).symm
  rw [isBit, ← slot_testBit other _ inSlot, ← slot_testBit idx _ inSlot, same (bit / 4) (by omega)]

/-- Both indices take the same way below this height. -/
def Meets (height : Nat) (idx other : BitVec 64) : Prop :=
  ∀ level < height, slot other (4 * level) = slot idx (4 * level)

instance : Decidable (Meets height idx other) := inferInstanceAs (Decidable (∀ _ < _, _))

/-- The index needs no more than this height. -/
def Fits (height : Nat) (idx : BitVec 64) : Prop :=
  ∀ level < 16, height ≤ level → slot idx (4 * level) = 0

instance : Decidable (Fits height idx) := inferInstanceAs (Decidable (∀ _ < _, _))

theorem meets_succ : Meets (height + 1) idx other ↔
      slot other (4 * height) = slot idx (4 * height) ∧ Meets height idx other := by
  constructor
  · intro meets
    exact ⟨meets height (lt_succ_self height),
      fun lvl below => meets lvl (lt_succ_of_lt below)⟩
  · rintro ⟨same, meets⟩ lvl below
    rcases Nat.lt_succ_iff_lt_or_eq.mp below with lower | rfl
    · exact meets lvl lower
    · exact same

theorem meets_iff (fits : Fits height idx) (fitsOther : Fits height other) :
    Meets height idx other ↔ other = idx := by
  constructor
  · intro meets
    apply slot_ext
    intro lvl below
    by_cases lt : lvl < height
    · exact meets lvl lt
    · rw [fits lvl below (not_lt.mp lt), fitsOther lvl below (not_lt.mp lt)]
  · rintro rfl lvl _
    rfl

theorem Fits.mono {higher : Nat} (fits : Fits height idx) (le : height ≤ higher) :
    Fits higher idx := fun lvl below above => fits lvl below (le_trans le above)

theorem slot_eq_iff {idx : BitVec 64} {lvl : Nat} {i : Fin 16} :
    slot idx (4 * lvl) = i ↔ ∀ bit < 4, idx.getLsbD (4 * lvl + bit) = i.val.testBit bit := by
  constructor
  · rintro rfl bit inSlot
    exact (slot_testBit idx lvl inSlot).symm
  intro same
  apply Fin.eq_of_val_eq
  apply eq_of_testBit_eq
  intro bit
  by_cases inSlot : bit < 4
  · rw [slot_testBit idx lvl inSlot, same bit inSlot]
  · have wide : 2 ^ 4 ≤ 2 ^ bit := Nat.pow_le_pow_right (by decide) (not_lt.mp inSlot)
    rw [testBit_lt_two_pow (lt_of_lt_of_le (slot idx (4 * lvl)).isLt wide),
      testBit_lt_two_pow (lt_of_lt_of_le i.isLt wide)]

theorem exists_index (fits : Fits height idx) (low : height < 16) (i : Fin 16) :
    ∃ joined, Fits (height + 1) joined ∧ slot joined (4 * height) = i ∧ Meets height idx joined := by
  have bits (bit : Nat) : (idx ||| BitVec.ofNat 64 i.val <<< (4 * height)).getLsbD bit =
      (idx.getLsbD bit ||
        (decide (bit < 64) && !decide (bit < 4 * height) && i.val.testBit (bit - 4 * height))) := by
    rw [BitVec.getLsbD_or, BitVec.getLsbD_shiftLeft, BitVec.getLsbD_ofNat]
    by_cases inWord : bit < 64
    · have mem : bit - 4 * height < 64 := by omega
      simp [mem]
    · simp [inWord]
  have wide (bit : Nat) (far : 4 ≤ bit) : i.val.testBit bit = false :=
    testBit_lt_two_pow
      (lt_of_lt_of_le i.isLt (Nat.pow_le_pow_right (show 0 < 2 by decide) far))
  refine ⟨idx ||| BitVec.ofNat 64 i.val <<< (4 * height), ?_, ?_, ?_⟩
  · intro lvl below above
    rw [slot_eq_iff]
    intro bit inSlot
    have zero := slot_eq_iff.mp (fits lvl below (by omega)) bit inSlot
    rw [bits, zero, wide _ (by omega)]
    simp
  · rw [slot_eq_iff]
    intro bit inSlot
    have zero := slot_eq_iff.mp (fits height low (le_refl height)) bit inSlot
    rw [bits, zero]
    simp
    omega
  · intro lvl below
    rw [slot_eq_iff]
    intro bit inSlot
    rw [slot_testBit idx lvl inSlot]
    simp
    omega

/-! ### Leaves -/

def Entry.get : Nat → Entry α → BitVec 64 → Option (α × Tags)
  | 0, .leaf ptr tagmask, _ => some (ptr, tagmask)
  | level + 1, .node nPtrs _ _, idx => (nPtrs (slot idx (4 * level))).get level idx
  | _, _, _ => none

@[simp] theorem get_null (height : Nat) (idx : BitVec 64) :
    (.null : Entry α).get height idx = none := by
  cases height <;> rfl

def RadixTree.get (t : RadixTree α) (idx : BitVec 64) : Option (α × Tags) :=
  if Fits t.tHeight idx then t.tRoot.get t.tHeight idx else none

/-! ### Nodes -/

/-- How many children are not null. -/
def occupied (nPtrs : Fin 16 → Entry α) : Nat :=
  (Finset.univ.filter fun i => (nPtrs i).isNull = false).card

def Entry.tagged (entry : Entry α) (tagid : Fin 2) : Prop :=
  entry.entryTagmask.getLsb tagid = true

def AnyTagged (nPtrs : Fin 16 → Entry α) (tagid : Fin 2) : Prop := ∃ i, (nPtrs i).tagged tagid

/-- Every node counts its children that are not null, of which there are some, and has the tags
that a child has. The leaves are at height 0. -/
def Entry.Sound : Nat → Entry α → Prop
  | _, .null => True
  | 0, .leaf _ _ => True
  | level + 1, .node nPtrs nNptrs tagmask =>
    nNptrs = occupied nPtrs ∧ nNptrs ≠ 0 ∧
      (∀ tagid : Fin 2, tagmask.getLsb tagid = true ↔ AnyTagged nPtrs tagid) ∧
      ∀ i, (nPtrs i).Sound level
  | _, _ => False

theorem sound_null (height : Nat) : (.null : Entry α).Sound height := by
  cases height <;> trivial

theorem occupied_update (nPtrs : Fin 16 → Entry α) (i : Fin 16) (e : Entry α) :
    occupied (update nPtrs i e) + (if (nPtrs i).isNull then 0 else 1) =
      occupied nPtrs + (if e.isNull then 0 else 1) := by
  have tl (family : Fin 16 → Entry α) : occupied family = (if (family i).isNull then 0 else 1) +
        ((Finset.univ.erase i).filter fun j => (family j).isNull = false).card := by
    unfold occupied
    rw [← insert_erase (mem_univ i), filter_insert, erase_insert_eq_erase,
      erase_idem]
    split
    · rw [card_insert_of_notMem (by simp)]
      simp_all [add_comm]
    · simp_all
  have same : ((Finset.univ.erase i).filter
        fun j => (update nPtrs i e j).isNull = false) =
      (Finset.univ.erase i).filter fun j => (nPtrs j).isNull = false := by
    apply filter_congr
    intro j inOthers
    rw [update_of_ne (ne_of_mem_erase inOthers)]
  rw [tl nPtrs, tl (update nPtrs i e), same, update_self]
  omega

theorem occupied_eq_zero : occupied nPtrs = 0 ↔ ∀ i, (nPtrs i).isNull = true := by
  simp [occupied]

theorem foldl_or_getLsb (nPtrs : Fin 16 → Entry α) (slots : List (Fin 16)) (beg : Tags)
    (tagid : Fin 2) :
    (slots.foldl (fun mask i => mask ||| (nPtrs i).entryTagmask) beg).getLsb tagid = true ↔
      beg.getLsb tagid = true ∨ ∃ i ∈ slots, (nPtrs i).tagged tagid := by
  induction slots generalizing beg with
  | nil => simp
  | cons i slots ih =>
    rw [List.foldl_cons, ih]
    simp [tagged, or_assoc]

theorem anyChildrenTagmask_getLsb (nPtrs : Fin 16 → Entry α) (tagid : Fin 2) :
    (anyChildrenTagmask nPtrs).getLsb tagid = true ↔ AnyTagged nPtrs tagid := by
  unfold anyChildrenTagmask
  rw [foldl_or_getLsb]
  simp [AnyTagged]

/-! ### What is below an entry -/

theorem get_congr (e : Entry α) (meets : Meets height idx other) :
    e.get height other = e.get height idx := by
  induction height generalizing e with
  | zero => cases e <;> rfl
  | succ height ih =>
    obtain ⟨same, below⟩ := meets_succ.mp meets
    cases e with
    | null => rfl
    | leaf ptr msk => rfl
    | node nPtrs nNptrs msk =>
      simp only [Entry.get, same]
      exact ih _ below

theorem tagged_of_get {ptr : α} {tags : Tags} (tagid : Fin 2) (sound : e.Sound height)
    (isLeaf : e.get height idx = some (ptr, tags)) (isSet : tags.getLsb tagid = true) :
    e.tagged tagid := by
  induction height generalizing e with
  | zero =>
    cases e with
    | null => simp at isLeaf
    | leaf leafPtr msk =>
      obtain ⟨_, rfl⟩ := Prod.mk.inj (Option.some.inj isLeaf)
      exact isSet
    | node nPtrs nNptrs msk => exact sound.elim
  | succ height ih =>
    cases e with
    | null => simp at isLeaf
    | leaf leafPtr msk => exact sound.elim
    | node nPtrs nNptrs msk =>
      obtain ⟨_, _, isUnion, kids⟩ := sound
      exact (isUnion tagid).mpr ⟨_, ih (kids _) isLeaf⟩

theorem exists_leaf (keeps : Entry α → Prop)
    (descends : ∀ nPtrs nNptrs msk lvl, (Entry.node nPtrs nNptrs msk).Sound (lvl + 1) →
      keeps (.node nPtrs nNptrs msk) → ∃ i, keeps (nPtrs i))
    (notNull : ¬ keeps .null) (low : height ≤ 16) (sound : e.Sound height)
    (holds : keeps e) :
    ∃ idx ptr tags, Fits height idx ∧ e.get height idx = some (ptr, tags) ∧
      keeps (.leaf ptr tags) := by
  induction height generalizing e with
  | zero =>
    cases e with
    | null => exact absurd holds notNull
    | leaf ptr msk =>
      refine ⟨0, ptr, msk, ?_, rfl, holds⟩
      intro lvl _ _
      simp [slot]
    | node nPtrs nNptrs msk => exact sound.elim
  | succ height ih =>
    cases e with
    | null => exact absurd holds notNull
    | leaf ptr msk => exact sound.elim
    | node nPtrs nNptrs msk =>
      obtain ⟨i, childHolds⟩ := descends nPtrs nNptrs msk height sound holds
      obtain ⟨_, _, _, kids⟩ := sound
      obtain ⟨idx, ptr, tags, fits, isLeaf, kept⟩ :=
        ih (by omega) (kids i) childHolds
      obtain ⟨joined, fitsJoined, isSlot, meets⟩ := exists_index fits (by omega) i
      refine ⟨joined, ptr, tags, fitsJoined, ?_, kept⟩
      simp only [Entry.get, isSlot]
      rw [get_congr _ meets, isLeaf]

theorem isNull_iff : e.isNull = true ↔ e = .null := by
  cases e <;> simp [isNull]

theorem exists_get (low : height ≤ 16) (sound : e.Sound height)
    (notNull : e.isNull = false) :
    ∃ idx leaf, Fits height idx ∧ e.get height idx = some leaf := by
  obtain ⟨idx, ptr, tags, fits, isLeaf, _⟩ := exists_leaf (fun e => e.isNull = false) (by
      rintro nPtrs nNptrs msk lvl ⟨cnt, ne0, _⟩ _
      by_contra allNull
      apply ne0
      rw [cnt, occupied_eq_zero]
      intro i
      by_contra isChild
      exact allNull ⟨i, by simpa using isChild⟩)
    (by simp [isNull]) low sound notNull
  exact ⟨idx, (ptr, tags), fits, isLeaf⟩

theorem exists_get_tagged {tagid : Fin 2} (low : height ≤ 16) (sound : e.Sound height)
    (isTagged : e.tagged tagid) :
    ∃ idx ptr tags, Fits height idx ∧ e.get height idx = some (ptr, tags) ∧
      tags.getLsb tagid = true :=
  exists_leaf (fun e => e.tagged tagid) (by
      rintro nPtrs nNptrs msk lvl ⟨_, _, isUnion, _⟩ holds
      exact (isUnion tagid).mp holds)
    (by simp [tagged, entryTagmask]) low sound isTagged

/-!
### The way to a leaf

The way from the root to a leaf, and what a change at its end does to the
tree: one leaf of the map changes, and the nodes on the way stay sound when
their counts and tags follow.
-/

def Frame.entry (frame : Frame α) : Entry α := .node frame.nPtrs frame.nNptrs frame.tagmask

variable {top : Nat} {root : Entry α} {path : List (Frame α)} {tagmask : Tags}

inductive Spine (idx : BitVec 64) : Nat → Entry α → List (Frame α) → Nat → Entry α → Prop
  | here (height : Nat) (root : Entry α) : Spine idx height root [] height root
  | under {height top : Nat} {root : Entry α} (frame : Frame α) {path : List (Frame α)}
      (isSlot : frame.slot = slot idx (4 * height))
      (rest : Spine idx (height + 1) frame.entry path top root) :
      Spine idx height (frame.nPtrs frame.slot) (frame :: path) top root

section

variable (spine : Spine idx height e path top root)

include spine

theorem Spine.length : top = height + path.length := by
  induction spine with
  | here height root => rfl
  | under fr slot tl ih =>
    rw [List.length_cons]
    omega

theorem Spine.sound (sound : root.Sound top) : e.Sound height := by
  induction spine with
  | here height root => exact sound
  | under fr slot tl ih =>
    obtain ⟨_, _, _, kids⟩ := ih sound
    exact kids fr.slot

theorem Spine.get : root.get top idx = e.get height idx := by
  induction spine with
  | here height root => rfl
  | under fr slot tl ih =>
    rw [ih, slot]
    rfl

end

/-! ### The search -/

variable {tags : Tags}

theorem and_eq_zero_of_get {ptr : α} (sound : e.Sound height)
    (leaf : e.get height idx = some (ptr, tags))
    (clr : e.entryTagmask &&& tagmask = 0) : tags &&& tagmask = 0 := by
  apply BitVec.eq_of_getLsbD_eq
  intro bit inTags
  have clear : (e.entryTagmask &&& tagmask).getLsbD bit = false := by simp [clr]
  rw [BitVec.getLsbD_and] at clear ⊢
  by_cases isSet : tags.getLsbD bit = true
  · have above : e.entryTagmask.getLsbD bit = true :=
      tagged_of_get ⟨bit, inTags⟩ sound leaf isSet
    rw [above] at clear
    rw [Bool.true_and] at clear
    simp [clear]
  · simp [isSet]

variable {tall : Nat}

/-- The search below the height of the tree: it ends at a place for the leaf, or there is no leaf
with a tag of the mask. -/
theorem lookupLoop_descend (spine : Spine idx height e path top root)
    (sound : e.Sound height) (lt : height ≤ tall) (msk : Tags) :
    (∃ path' plc, lookupLoop idx msk height tall none path e =
        some (.found tall path' plc) ∧ Spine idx 0 plc path' top root) ∨
      (∃ path' plc, lookupLoop idx msk height tall none path e =
          some (.missing tall path' plc) ∧
        ∀ ptr tags, e.get height idx = some (ptr, tags) →
          msk ≠ 0 ∧ tags &&& msk = 0) := by
  induction height generalizing e path with
  | zero => exact Or.inl ⟨path, e, rfl, spine⟩
  | succ height ih =>
    have notShort : ¬ 4 * tall ≤ 4 * height := by omega
    rw [lookupLoop]
    simp only [if_neg notShort]
    by_cases stops : e.isNull = true ∨ (msk ≠ 0 ∧ e.entryTagmask &&& msk = 0)
    · rw [if_pos stops]
      refine Or.inr ⟨path, e, rfl, ?_⟩
      intro ptr tags isLeaf
      rcases stops with isNull | ⟨ne0, clr⟩
      · rw [isNull_iff.mp isNull] at isLeaf
        simp at isLeaf
      · exact ⟨ne0, and_eq_zero_of_get sound isLeaf clr⟩
    rw [if_neg stops]
    cases e with
    | null => exact absurd (Or.inl rfl) stops
    | leaf ptr mask => exact sound.elim
    | node nPtrs nNptrs mask =>
      obtain ⟨_, _, _, kids⟩ := sound
      exact ih (Spine.under ⟨nPtrs, nNptrs, mask, slot idx (4 * height)⟩ rfl spine)
        (kids _) (by omega)

variable {lvl : Nat}

theorem lookupLoop_zero (above : tall ≤ lvl) (alloc : Option Nat) (msk : Tags)
    (zero : slot idx (4 * lvl) = 0) : lookupLoop idx msk (lvl + 1) tall alloc path e =
      lookupLoop idx msk lvl tall alloc path e := by
  have hsh : 4 * tall ≤ 4 * lvl := by omega
  cases alloc with
  | none | some =>
    conv_lhs => rw [lookupLoop]
    simp only [if_pos hsh, if_pos zero]

theorem lookupLoop_skip (above : tall ≤ lvl) (alloc : Option Nat) (msk : Tags)
    (zeros : ∀ k < lvl, tall ≤ k → slot idx (4 * k) = 0) :
    lookupLoop idx msk lvl tall alloc path e =
      lookupLoop idx msk tall tall alloc path e := by
  induction lvl with
  | zero =>
    obtain rfl := le_zero.mp above
    rfl
  | succ lvl ih =>
    by_cases atTop : tall = lvl + 1
    · rw [atTop]
    · rw [lookupLoop_zero (by omega) _ _ (zeros lvl (lt_succ_self lvl) (by omega))]
      exact ih (by omega) fun k below => zeros k (lt_succ_of_lt below)

theorem exists_highest (notFits : ∃ k < lvl, tall ≤ k ∧ slot idx (4 * k) ≠ 0) :
    ∃ high < lvl, tall ≤ high ∧ slot idx (4 * high) ≠ 0 ∧
      ∀ k < lvl, high < k → slot idx (4 * k) = 0 := by
  induction lvl with
  | zero =>
    omega
  | succ lvl ih =>
    by_cases hi : tall ≤ lvl ∧ slot idx (4 * lvl) ≠ 0
    · exact ⟨lvl, lt_succ_self lvl, hi.1, hi.2, fun k below above => by omega⟩
    obtain ⟨k, below, lt, ne0⟩ := notFits
    have lower : k < lvl := by
      rcases Nat.lt_succ_iff_lt_or_eq.mp below with lower | rfl
      · exact lower
      · exact absurd ⟨lt, ne0⟩ hi
    obtain ⟨high, highBelow, highInside, highNonzero, zeros⟩ :=
      ih ⟨k, lower, lt, ne0⟩
    refine ⟨high, by omega, highInside, highNonzero, ?_⟩
    intro j jBelow jAbove
    rcases Nat.lt_succ_iff_lt_or_eq.mp jBelow with jLower | rfl
    · exact zeros j jLower jAbove
    · by_contra jNonzero
      exact hi ⟨by omega, jNonzero⟩

theorem lookupLoop_high {high : Nat} (lt : tall ≤ high) (below : high < lvl)
    (alloc : Option Nat) (msk : Tags) (zeros : ∀ k < lvl, high < k → slot idx (4 * k) = 0) :
    lookupLoop idx msk lvl tall alloc path e =
      lookupLoop idx msk (high + 1) tall alloc path e := by
  induction lvl with
  | zero => omega
  | succ lvl ih =>
    by_cases hi : high = lvl
    · rw [hi]
    · rw [lookupLoop_zero (by omega) _ _ (zeros lvl (lt_succ_self lvl) (by omega))]
      exact ih (by omega) fun k lower => zeros k (lt_succ_of_lt lower)

/-- What holds of a tree between two calls. -/
structure RadixTree.Sound (t : RadixTree α) : Prop where
  nodes : t.tRoot.Sound t.tHeight
  low : t.tHeight ≤ 16
  flat : t.tRoot.isNull = true → t.tHeight = 0

variable {t : RadixTree α}

theorem RadixTree.Sound.lookupPtr (sound : t.Sound) (idx : BitVec 64) (msk : Tags) :
    (∃ path plc, radixTreeLookupPtr t idx none msk = some (.found t.tHeight path plc) ∧
        Fits t.tHeight idx ∧ Spine idx 0 plc path t.tHeight t.tRoot) ∨
      ∃ res, (res = .short ∨ ∃ path plc, res = .missing t.tHeight path plc) ∧
        radixTreeLookupPtr t idx none msk = some res ∧
        ∀ ptr tags, t.get idx = some (ptr, tags) → msk ≠ 0 ∧ tags &&& msk = 0 := by
  unfold radixTreeLookupPtr
  by_cases fits : Fits t.tHeight idx
  · rw [lookupLoop_skip sound.low none msk fits]
    rcases lookupLoop_descend (Spine.here t.tHeight t.tRoot) sound.nodes (le_refl _) msk with
      ⟨path, plc, fnd, spine⟩ | ⟨path, plc, missing, untagged⟩
    · exact Or.inl ⟨path, plc, fnd, fits, spine⟩
    · refine Or.inr ⟨_, Or.inr ⟨path, plc, rfl⟩, missing, ?_⟩
      rw [get, if_pos fits]
      exact untagged
  have notFits : ∃ k < 16, t.tHeight ≤ k ∧ slot idx (4 * k) ≠ 0 := by
    simpa [Fits] using fits
  obtain ⟨high, below, lt, ne0, zeros⟩ := exists_highest notFits
  have hsh : 4 * t.tHeight ≤ 4 * high := by omega
  refine Or.inr ⟨.short, Or.inl rfl, ?_, ?_⟩
  · rw [lookupLoop_high lt below none msk zeros, lookupLoop]
    simp only [if_pos hsh, if_neg ne0]
  · intro ptr tags leaf
    rw [get, if_neg fits] at leaf
    exact absurd leaf (by simp)

theorem and_tagidToMask {tagid : Fin 2} :
    tags &&& tagidToMask tagid ≠ 0 ↔ tags.getLsb tagid = true := by
  revert tags tagid
  decide

theorem RadixTree.Sound.lookupPtr_leaf (sound : t.Sound) {ptr : α}
    (isLeaf : t.get idx = some (ptr, tags)) :
    ∃ path, radixTreeLookupPtr t idx none 0 = some (.found t.tHeight path (.leaf ptr tags)) ∧
      Fits t.tHeight idx ∧ Spine idx 0 (.leaf ptr tags) path t.tHeight t.tRoot := by
  rcases sound.lookupPtr idx 0 with ⟨path, plc, fnd, fits, spine⟩ | ⟨_, _, _, untagged⟩
  · rw [get, if_pos fits, spine.get] at isLeaf
    cases plc with
    | null => exact absurd isLeaf (by simp)
    | leaf leafPtr msk =>
      obtain ⟨rfl, rfl⟩ := Prod.mk.inj (Option.some.inj isLeaf)
      exact ⟨path, fnd, fits, spine⟩
    | node nPtrs nNptrs msk => exact absurd isLeaf (by simp [Entry.get])
  · exact absurd rfl (untagged ptr tags isLeaf).1

theorem RadixTree.Sound.lookupNode (sound : t.Sound) (idx : BitVec 64) :
    radixTreeLookupNode t idx = some ((t.get idx).map Prod.fst) := by
  unfold radixTreeLookupNode
  rcases sound.lookupPtr idx 0 with ⟨path, plc, fnd, fits, spine⟩ |
    ⟨res, isRes, missed, untagged⟩
  · have place_sound := spine.sound sound.nodes
    rw [fnd, get, if_pos fits, spine.get]
    cases plc with
    | null => simp
    | leaf ptr msk => rfl
    | node nPtrs nNptrs msk => exact place_sound.elim
  have hn : t.get idx = none := by
    cases isLeaf : t.get idx with
    | none => rfl
    | some leaf => exact absurd rfl (untagged leaf.1 leaf.2 isLeaf).1
  rw [missed, hn]
  rcases isRes with rfl | ⟨path, plc, rfl⟩ <;> rfl

theorem RadixTree.Sound.getTag (sound : t.Sound) {ptr : α} (isLeaf : t.get idx = some (ptr, tags))
    (tagid : Fin 2) : radixTreeGetTag t idx tagid = some (tags.getLsb tagid) := by
  unfold radixTreeGetTag
  rcases sound.lookupPtr idx (tagidToMask tagid) with ⟨path, plc, fnd, fits, spine⟩ |
    ⟨res, isRes, missed, untagged⟩
  · rw [get, if_pos fits, spine.get] at isLeaf
    cases plc with
    | null => exact absurd isLeaf (by simp)
    | node nPtrs nNptrs msk => exact absurd isLeaf (by simp [Entry.get])
    | leaf leafPtr msk =>
      obtain ⟨rfl, rfl⟩ := Prod.mk.inj (Option.some.inj isLeaf)
      rw [fnd]
      simp only [isNull, entryTagmask, and_tagidToMask]
      simp
  · have clr := (untagged ptr tags isLeaf).2
    have notSet : tags.getLsb tagid = false := by
      by_contra isSet
      exact and_tagidToMask.mpr (by simpa using isSet) clr
    rw [missed, notSet]
    rcases isRes with rfl | ⟨path, plc, rfl⟩ <;> rfl

theorem RadixTree.Sound.emptyTree (sound : t.Sound) :
    radixTreeEmptyTreeP t = true ↔ ∀ idx, t.get idx = none := by
  unfold radixTreeEmptyTreeP
  constructor
  · intro isNull idx
    simp [get, isNull_iff.mp isNull]
  intro empty
  by_contra notNull
  obtain ⟨idx, leaf, fits, isLeaf⟩ := exists_get sound.low sound.nodes (by simpa using notNull)
  have missing := empty idx
  rw [get, if_pos fits, isLeaf] at missing
  exact absurd missing (by simp)

theorem RadixTree.Sound.emptyTaggedTree (sound : t.Sound) (tagid : Fin 2) :
    radixTreeEmptyTaggedTreeP t tagid = true ↔
      ∀ idx ptr tags, t.get idx = some (ptr, tags) → tags.getLsb tagid = false := by
  have clr : radixTreeEmptyTaggedTreeP t tagid = true ↔ ¬ t.tRoot.tagged tagid := by
    unfold radixTreeEmptyTaggedTreeP tagged
    rw [decide_eq_true_eq, ← and_tagidToMask, not_not]
  rw [clr]
  constructor
  · intro untagged idx ptr tags leaf
    by_contra isSet
    by_cases fits : Fits t.tHeight idx
    · rw [get, if_pos fits] at leaf
      exact untagged (tagged_of_get _ sound.nodes leaf (by simpa using isSet))
    · rw [get, if_neg fits] at leaf
      exact absurd leaf (by simp)
  · intro clear isTagged
    obtain ⟨idx, ptr, tags, fits, leaf, isSet⟩ :=
      exists_get_tagged sound.low sound.nodes isTagged
    have notSet := clear idx ptr tags (by rw [get, if_pos fits, leaf])
    rw [notSet] at isSet
    exact absurd isSet (by simp)

end NetBSD.Gen.Radixtree
