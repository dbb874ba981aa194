import NetBSD.Gen.RadixtreeChange
import NetBSD.Machine.Trace

/-!
Owns insertion: the tree grows until it covers the index, and the nodes that are
missing on the way are allocated.
-/

namespace NetBSD.Gen.Radixtree

open Function Entry

variable {α : Type} {idx other : BitVec 64} {height top : Nat} {e root : Entry α}
  {path : List (Frame α)} {t : RadixTree α}

/-! ### The way down -/

def inserted (idx : BitVec 64) (p : α) : Nat → Entry α → Entry α
  | 0, _ => .leaf p 0
  | level + 1, .node nPtrs nNptrs tagmask =>
    .node (update nPtrs (slot idx (4 * level))
        (inserted idx p level (nPtrs (slot idx (4 * level)))))
      (nNptrs + if (nPtrs (slot idx (4 * level))).isNull then 1 else 0) tagmask
  | level + 1, _ =>
    .node (update (fun _ => .null) (slot idx (4 * level)) (inserted idx p level .null)) 1 0

/-- The count of the node above, when the place is empty. -/
def bumpIf (entry : Entry α) (path : List (Frame α)) : List (Frame α) :=
  if entry.isNull then bump path else path

/-- An inserting lookup runs out of nodes or ends at the slot of the index. -/
theorem lookupLoop_insert (p : α) (sound : e.Sound height)
    (miss : e.get height idx = none) {tall avail : Nat} (lt : height ≤ tall) :
    (∃ path' plc, lookupLoop idx 0 height tall (some avail) path e =
        some (.enomem tall path' plc)) ∨
      ∃ path', lookupLoop idx 0 height tall (some avail) path e =
          some (.found tall path' .null) ∧
        rebuild path' (.leaf p 0) = rebuild (bumpIf e path) (inserted idx p height e) := by
  induction height generalizing e path avail with
  | zero =>
    cases e with
    | null => exact Or.inr ⟨bump path, rfl, rfl⟩
    | leaf ptr msk => exact absurd miss (by simp [Entry.get])
    | node nPtrs nNptrs msk => exact sound.elim
  | succ height ih =>
    have notShort : ¬ 4 * tall ≤ 4 * height := by omega
    rw [lookupLoop]
    simp only [if_neg notShort]
    cases e with
    | leaf ptr msk => exact sound.elim
    | null =>
      cases avail with
      | zero => exact Or.inl ⟨path, .null, rfl⟩
      | succ avail =>
        rcases @ih .null
          (⟨fun _ => .null, 0, 0, slot idx (4 * height)⟩ :: bump path) (sound_null height)
          (get_null height idx) avail (by omega) with failed | ⟨path', found, rebuilt⟩
        · exact Or.inl failed
        · exact Or.inr ⟨path', found, rebuilt⟩
    | node nPtrs nNptrs msk =>
      obtain ⟨_, _, _, kids⟩ := sound
      rcases @ih (nPtrs (slot idx (4 * height)))
        (⟨nPtrs, nNptrs, msk, slot idx (4 * height)⟩ :: path) (kids _) miss avail
        (by omega) with failed | ⟨path', found, rebuilt⟩
      · exact Or.inl failed
      refine Or.inr ⟨path', found, ?_⟩
      rw [rebuilt]
      by_cases isNull : (nPtrs (slot idx (4 * height))).isNull = true
      · simp only [bumpIf, isNull, inserted, bump]
        rfl
      · simp only [bumpIf, isNull, inserted]
        rfl

/-- A filled slot changes one index and no tag mask. -/
theorem changes_inserted (p : α) (sound : e.Sound height)
    (miss : e.get height idx = none) :
    Changes height idx (some (p, 0)) e (inserted idx p height e) ∧
      (inserted idx p height e).entryTagmask = e.entryTagmask := by
  induction height generalizing e with
  | zero =>
    cases e with
    | null =>
      refine ⟨⟨?_, trivial, rfl⟩, rfl⟩
      intro other
      rfl
    | leaf ptr msk => exact absurd miss (by simp [Entry.get])
    | node nPtrs nNptrs msk => exact sound.elim
  | succ height ih =>
    cases e with
    | leaf ptr msk => exact sound.elim
    | null =>
      obtain ⟨child, childTags⟩ := ih (sound_null height) (get_null height idx)
      have turns := @Turns.stored α idx height _ _ ⟨fun _ => .null, 1, 0, slot idx (4 * height)⟩
        child.turns rfl 1 0
      refine ⟨⟨?_, ⟨?_, one_ne_zero, ?_, ?_⟩, rfl⟩, rfl⟩
      · intro other
        refine (turns other).trans ?_
        simp only [Frame.entry, Entry.get, get_null]
      · have update := occupied_update (fun _ => (.null : Entry α)) (slot idx (4 * height))
          (inserted idx p height .null)
        rw [child.present] at update
        have no : occupied (fun _ => (.null : Entry α)) = 0 := occupied_eq_zero.mpr fun _ => rfl
        simpa [isNull, no] using update.symm
      · intro tagid
        have any := anyTagged_stored ⟨fun _ => .null, 1, 0, slot idx (4 * height)⟩
          (inserted idx p height .null) tagid
        unfold Frame.stored at any
        rw [any, tagged, childTags]
        simp [entryTagmask, tagged]
      · exact sound_stored (fun _ => sound_null height) child.sound
    | node nPtrs nNptrs msk =>
      obtain ⟨cnt, ne0, isUnion, kids⟩ := sound
      obtain ⟨child, childTags⟩ := ih (kids (slot idx (4 * height))) miss
      refine ⟨⟨?_, ⟨?_, by omega, ?_, ?_⟩, rfl⟩, rfl⟩
      · exact @Turns.stored α idx height _ _ ⟨nPtrs, nNptrs, msk, slot idx (4 * height)⟩
          child.turns rfl _ _
      · have update := occupied_update nPtrs (slot idx (4 * height))
          (inserted idx p height (nPtrs (slot idx (4 * height))))
        rw [child.present] at update
        rw [cnt]
        by_cases isNull : (nPtrs (slot idx (4 * height))).isNull = true
        · simpa [isNull] using update.symm
        · simpa [isNull] using update.symm
      · intro tagid
        have prev := anyTagged_entry ⟨nPtrs, nNptrs, msk, slot idx (4 * height)⟩ tagid
        have s' := anyTagged_stored ⟨nPtrs, nNptrs, msk, slot idx (4 * height)⟩
        unfold Frame.stored at s'
        rw [isUnion tagid, prev, s', tagged, tagged, childTags]
      · exact sound_stored kids child.sound

/-! ### Growing -/

/-- The tree may have got higher, with the same leaves. -/
structure Grows (t t' : RadixTree α) (newheight : Nat) : Prop where
  height : t'.tHeight = newheight
  nodes : t'.tRoot.Sound t'.tHeight
  get : ∀ other, t'.get other = t.get other

theorem grows_overRoot (sound : t.tRoot.Sound t.tHeight) (here : t.tRoot.isNull = false)
    (low : t.tHeight < 16) :
    Grows t ⟨.node (overRoot t.tRoot) 1 t.tRoot.entryTagmask, t.tHeight + 1⟩ (t.tHeight + 1) := by
  refine ⟨rfl, ⟨?_, one_ne_zero, ?_, ?_⟩, ?_⟩
  · have update := occupied_update (fun _ => (.null : Entry α)) 0 t.tRoot
    rw [here] at update
    have no : occupied (fun _ => (.null : Entry α)) = 0 := occupied_eq_zero.mpr fun _ => rfl
    simpa [isNull, no, overRoot] using update.symm
  · intro tagid
    have any := anyTagged_stored ⟨fun _ => .null, 1, 0, 0⟩ t.tRoot tagid
    unfold Frame.stored at any
    rw [overRoot, any]
    simp [tagged, entryTagmask]
  · exact sound_stored (fun _ => sound_null t.tHeight) sound
  · intro other
    unfold RadixTree.get
    by_cases fits : Fits (t.tHeight + 1) other
    · rw [if_pos fits, Entry.get, overRoot]
      by_cases zero : slot other (4 * t.tHeight) = 0
      · have fitsBelow : Fits t.tHeight other := by
          intro lvl below above
          rcases lt_or_eq_of_le above with higher | rfl
          · exact fits lvl below higher
          · exact zero
        rw [if_pos fitsBelow, zero, update_self]
      · have notBelow : ¬ Fits t.tHeight other := fun fitsBelow =>
          zero (fitsBelow t.tHeight low (le_refl _))
        rw [if_neg notBelow, update_of_ne zero, get_null]
    · have notBelow : ¬ Fits t.tHeight other := fun fitsBelow =>
        fits (fitsBelow.mono (Nat.le_succ _))
      rw [if_neg fits, if_neg notBelow]

theorem grows_growLoop {levels : Nat} (avail : Nat) (sound : t.tRoot.Sound t.tHeight)
    (here : t.tRoot.isNull = false) (low : t.tHeight + levels ≤ 16) :
    (∃ t', growLoop t.tRoot.entryTagmask levels avail t = (none, t')) ∨
      ∃ avail' t', growLoop t.tRoot.entryTagmask levels avail t = (some avail', t') ∧
        Grows t t' (t.tHeight + levels) := by
  induction levels generalizing t avail with
  | zero => exact Or.inr ⟨avail, t, rfl, rfl, sound, fun _ => rfl⟩
  | succ levels ih =>
    cases avail with
    | zero => exact Or.inl ⟨t, rfl⟩
    | succ avail =>
      have one := grows_overRoot sound here (by omega)
      rcases @ih
        ⟨.node (overRoot t.tRoot) 1 t.tRoot.entryTagmask, t.tHeight + 1⟩ avail one.nodes rfl
        (by simp only; omega) with ⟨t', failed⟩ | ⟨avail', t', grown, grows⟩
      · exact Or.inl ⟨t', failed⟩
      refine Or.inr ⟨avail', t', grown, ?_, grows.nodes, ?_⟩
      · rw [grows.height]
        simp only
        omega
      · intro other
        rw [grows.get, one.get]

theorem grows_radixTreeGrow (sound : t.Sound) (avail : Nat) {newheight : Nat}
    (higher : t.tHeight ≤ newheight) (low : newheight ≤ 16) :
    (∃ t', radixTreeGrow avail newheight t = (none, t')) ∨
      ∃ avail' t', radixTreeGrow avail newheight t = (some avail', t') ∧ Grows t t' newheight := by
  unfold radixTreeGrow
  by_cases isNull : t.tRoot.isNull = true
  · rw [if_pos isNull]
    refine Or.inr ⟨avail, _, rfl, rfl, ?_, ?_⟩
    · simp only [isNull_iff.mp isNull]
      exact sound_null _
    · intro other
      simp [RadixTree.get, isNull_iff.mp isNull]
  · rw [if_neg isNull]
    have grown := @grows_growLoop α t (newheight - t.tHeight) avail sound.nodes
      (by simpa using isNull) (by omega)
    rwa [Nat.add_sub_cancel' higher] at grown

theorem lookupLoop_grow {tall high avail : Nat} (hsh : tall ≤ high)
    (ne0 : slot idx (4 * high) ≠ 0) {res : Option Nat × RadixTree α}
    (grown : radixTreeGrow avail (high + 1) ⟨e, tall⟩ = res) :
    (res.1 = none → lookupLoop idx 0 (high + 1) tall (some avail) path e =
      some (.enomem res.2.tHeight path res.2.tRoot)) ∧
    ∀ avail', res.1 = some avail' → res.2.tHeight = high + 1 →
      lookupLoop idx 0 (high + 1) tall (some avail) path e =
        lookupLoop idx 0 (high + 1) (high + 1) (some avail') path res.2.tRoot := by
  have short : 4 * tall ≤ 4 * high := by omega
  have notShort : ¬ 4 * (high + 1) ≤ 4 * high := by omega
  obtain ⟨ans, t'⟩ := res
  constructor
  · rintro rfl
    rw [lookupLoop]
    simp only [if_pos short, if_neg ne0, grown]
  · rintro avail' rfl isHeight
    simp only at isHeight
    conv_lhs => rw [lookupLoop]
    conv_rhs => rw [lookupLoop]
    simp only [if_pos short, if_neg ne0, grown, if_neg notShort, isHeight]

/-! ### Inserting -/

theorem insertNode_covered {grown : RadixTree α} {avail left : Nat} (p : α)
    (nodes : grown.tRoot.Sound grown.tHeight) (low : grown.tHeight ≤ 16)
    (fits : Fits grown.tHeight idx) (miss : grown.get idx = none)
    (looked : radixTreeLookupPtr t idx (some avail) 0 =
      lookupLoop idx 0 grown.tHeight grown.tHeight (some left) [] grown.tRoot) :
    (∃ t', radixTreeInsertNode avail t idx p = some (.enomem, t')) ∨
      ∃ t', radixTreeInsertNode avail t idx p = some (.ok, t') ∧ t'.Sound ∧
        ∀ other, t'.get other = if other = idx then some (p, 0) else grown.get other := by
  rw [RadixTree.get, if_pos fits] at miss
  unfold radixTreeInsertNode
  rw [looked]
  rcases @lookupLoop_insert α idx grown.tHeight grown.tRoot [] p nodes miss grown.tHeight left
    (le_refl _) with ⟨path, plc, bad⟩ | ⟨path, fnd, rebuilt⟩
  · rw [bad]
    exact Or.inl ⟨_, rfl⟩
  rw [fnd]
  refine Or.inr ⟨_, rfl, ?_⟩
  have isRoot : bumpIf grown.tRoot [] = [] := by
    unfold bumpIf
    split <;> rfl
  rw [rebuilt, isRoot]
  exact (changes_inserted p nodes miss).1.tree low fits

/-- `radix_tree_insert_node`: unless the nodes run out, the leaf is there and has no tags. -/
theorem RadixTree.Sound.insertNode (sound : t.Sound) (miss : t.get idx = none) (avail : Nat)
    (p : α) : (∃ t', radixTreeInsertNode avail t idx p = some (.enomem, t')) ∨
      ∃ t', radixTreeInsertNode avail t idx p = some (.ok, t') ∧ t'.Sound ∧
        ∀ other, t'.get other = if other = idx then some (p, 0) else t.get other := by
  by_cases fits : Fits t.tHeight idx
  · exact insertNode_covered p sound.nodes sound.low fits miss
      (lookupLoop_skip sound.low (some avail) 0 fits)
  have notFits : ∃ k < 16, t.tHeight ≤ k ∧ slot idx (4 * k) ≠ 0 := by
    simpa [Fits] using fits
  obtain ⟨high, below, lt, ne0, zeros⟩ := exists_highest notFits
  have got : radixTreeLookupPtr t idx (some avail) 0 =
      lookupLoop idx 0 (high + 1) t.tHeight (some avail) [] t.tRoot :=
    lookupLoop_high lt below (some avail) 0 zeros
  rcases grows_radixTreeGrow sound avail (show t.tHeight ≤ high + 1 by omega) (by omega) with
    ⟨t', bad⟩ | ⟨left, grown, isGrown, grows⟩
  · left
    refine ⟨t', ?_⟩
    unfold radixTreeInsertNode
    rw [got, (lookupLoop_grow lt ne0 bad).1 rfl]
    rfl
  have fitsGrown : Fits grown.tHeight idx := by
    rw [grows.height]
    exact fun lvl levelBelow above => zeros lvl levelBelow above
  have inserts := @insertNode_covered α idx t grown avail left p grows.nodes
    (by rw [grows.height]; omega) fitsGrown (by rw [grows.get, miss])
    (by rw [got, (lookupLoop_grow lt ne0 isGrown).2 left rfl grows.height,
      grows.height])
  simpa only [grows.get] using inserts

/-!
### Sequences of calls

The radix tree as a map from indices to pointers and tag sets, over whole
sequences of calls.
-/

open NetBSD.Machine

variable {t : RadixTree α}

/-! ### The map -/

/-- What users see of a leaf: its pointer and its tags. -/
abbrev Leaf (α : Type) := α × Finset (Fin 2)

abbrev IndexMap (α : Type) := BitVec 64 → Option (Leaf α)

def IndexMap.empty : IndexMap α := fun _ => none

/-- A call that changes the tree; an insertion has a number of nodes to be had. -/
inductive Op (α : Type) where
  | insert (idx : BitVec 64) (p : α) (avail : Nat)
  | replace (idx : BitVec 64) (p : α)
  | remove (idx : BitVec 64)
  | setTag (idx : BitVec 64) (tagid : Fin 2)
  | clearTag (idx : BitVec 64) (tagid : Fin 2)

def Op.apply (map : IndexMap α) : Op α → IndexMap α
  | .insert idx p _ => update map idx (some (p, ∅))
  | .replace idx p => update map idx ((map idx).map fun leaf => (p, leaf.2))
  | .remove idx => update map idx none
  | .setTag idx tagid =>
    update map idx ((map idx).map fun leaf => (leaf.1, Insert.insert tagid leaf.2))
  | .clearTag idx tagid =>
    update map idx ((map idx).map fun leaf => (leaf.1, leaf.2.erase tagid))

/-- An insertion is for an absent index, the other calls are for a present one. -/
def Op.Allowed (map : IndexMap α) : Op α → Prop
  | .insert idx _ _ => map idx = none
  | .replace idx _ => map idx ≠ none
  | .remove idx => map idx ≠ none
  | .setTag idx _ => map idx ≠ none
  | .clearTag idx _ => map idx ≠ none

def Op.perform (t : RadixTree α) : Op α → Option (Errno × RadixTree α)
  | .insert idx p avail => radixTreeInsertNode avail t idx p
  | .replace idx p => (radixTreeReplaceNode t idx p).map fun done => (.ok, done.2)
  | .remove idx => (radixTreeRemoveNode t idx).map fun done => (.ok, done.2)
  | .setTag idx tagid => (radixTreeSetTag t idx tagid).map fun done => (.ok, done)
  | .clearTag idx tagid => (radixTreeClearTag t idx tagid).map fun done => (.ok, done)

/-- The call fails for want of memory. -/
def Op.RunsOut (t : RadixTree α) (op : Op α) : Prop := ∃ t', op.perform t = some (.enomem, t')

def sideBySide (state : RadixTree α × IndexMap α) (op : Op α) : Option (RadixTree α × IndexMap α) :=
  match op.perform state.1 with
  | some (.ok, t) => some (t, op.apply state.2)
  | _ => none

/-! ### Abstraction -/

def tagset (tags : Tags) : Finset (Fin 2) := Finset.univ.filter fun tagid => tags.getLsb tagid = true

theorem mem_tagset {tags : Tags}
    {tagid : Fin 2} : tagid ∈ tagset tags ↔ tags.getLsb tagid = true := by
  simp [tagset]

theorem tagset_zero : tagset 0 = ∅ := by
  decide

theorem tagset_or (tags : Tags) (tagid : Fin 2) :
    tagset (tags ||| tagidToMask tagid) = insert tagid (tagset tags) := by
  ext other
  rw [mem_tagset, getLsb_or_tagidToMask, Finset.mem_insert, mem_tagset, or_comm]

theorem tagset_and_not (tags : Tags) (tagid : Fin 2) :
    tagset (tags &&& ~~~tagidToMask tagid) = (tagset tags).erase tagid := by
  ext other
  rw [mem_tagset, getLsb_and_not_tagidToMask, Finset.mem_erase, mem_tagset, and_comm]

def RadixTree.map (t : RadixTree α) : IndexMap α :=
  fun idx => (t.get idx).map fun leaf => (leaf.1, tagset leaf.2)

theorem map_eq_none : t.map idx = none ↔ t.get idx = none := by
  simp [RadixTree.map]

theorem exists_get_of_map (here : t.map idx ≠ none) :
    ∃ ptr tags, t.get idx = some (ptr, tags) ∧ t.map idx = some (ptr, tagset tags) := by
  cases isLeaf : t.get idx with
  | none => exact absurd (map_eq_none.mpr isLeaf) here
  | some leaf => exact ⟨leaf.1, leaf.2, rfl, by simp [RadixTree.map, isLeaf]⟩

theorem map_update {t' : RadixTree α} {v : Option (α × Tags)}
    (changed : ∀ other, t'.get other = if other = idx then v else t.get other) :
    t'.map = update t.map idx (v.map fun leaf => (leaf.1, tagset leaf.2)) := by
  funext other
  unfold RadixTree.map
  rw [changed other]
  by_cases same : other = idx
  · rw [if_pos same, same, update_self]
  · rw [if_neg same, update_of_ne same]

/-- One call on a sound tree does to the map what it should. -/
theorem RadixTree.Sound.perform (sound : t.Sound) {op : Op α} (may : op.Allowed t.map)
    (memory : ¬ op.RunsOut t) :
    ∃ t', op.perform t = some (.ok, t') ∧ t'.Sound ∧ t'.map = op.apply t.map := by
  cases op with
  | insert idx p avail =>
    rcases sound.insertNode (map_eq_none.mp may) avail p with bad |
      ⟨t', hc, kept, changed⟩
    · exact absurd bad memory
    · refine ⟨t', hc, kept, ?_⟩
      rw [map_update changed, Option.map_some, tagset_zero]
      rfl
  | replace idx p =>
    obtain ⟨ptr, tags, leaf, isMap⟩ := exists_get_of_map may
    obtain ⟨t', hc, kept, changed⟩ := sound.replaceNode leaf p
    refine ⟨t', by simp [Op.perform, hc], kept, ?_⟩
    rw [map_update changed]
    simp [Op.apply, isMap]
  | remove idx =>
    obtain ⟨ptr, tags, leaf, isMap⟩ := exists_get_of_map may
    obtain ⟨t', hc, kept, changed⟩ := sound.removeNode leaf
    refine ⟨t', by simp [Op.perform, hc], kept, ?_⟩
    rw [map_update changed]
    rfl
  | setTag idx tagid =>
    obtain ⟨ptr, tags, leaf, isMap⟩ := exists_get_of_map may
    obtain ⟨t', hc, kept, changed⟩ := sound.setTag leaf tagid
    refine ⟨t', by simp [Op.perform, hc], kept, ?_⟩
    rw [map_update changed]
    simp [Op.apply, isMap, tagset_or]
  | clearTag idx tagid =>
    obtain ⟨ptr, tags, leaf, isMap⟩ := exists_get_of_map may
    obtain ⟨t', hc, kept, changed⟩ := sound.clearTag leaf tagid
    refine ⟨t', by simp [Op.perform, hc], kept, ?_⟩
    rw [map_update changed]
    simp [Op.apply, isMap, tagset_and_not]

/-! ### Runs -/

/-- The tree shows the map: what is looked up, the counts and tags of its nodes, and its height. -/
structure Shows (t : RadixTree α) (map : IndexMap α) : Prop where
  lookupNode : ∀ idx, radixTreeLookupNode t idx = some ((map idx).map Prod.fst)
  getTag : ∀ idx tagid ptr tags, map idx = some (ptr, tags) →
    radixTreeGetTag t idx tagid = some (decide (tagid ∈ tags))
  emptyTree : radixTreeEmptyTreeP t = true ↔ ∀ idx, map idx = none
  emptyTaggedTree : ∀ tagid, radixTreeEmptyTaggedTreeP t tagid = true ↔
    ∀ idx ptr tags, map idx = some (ptr, tags) → tagid ∉ tags
  nodes : t.tRoot.Sound t.tHeight
  flat : (∀ idx, map idx = none) → t.tHeight = 0
  only : t.tHeight = 0 → ∀ idx, map idx ≠ none → idx = 0

/-- Lookups and gang lookups read a sound tree as its map. -/
theorem RadixTree.Sound.shows (sound : t.Sound) : Shows t t.map := by
  have leaf {idx : BitVec 64} {ptr : α} {tags : Finset (Fin 2)}
      (here : t.map idx = some (ptr, tags)) :
      ∃ bits, t.get idx = some (ptr, bits) ∧ tags = tagset bits := by
    obtain ⟨leafPtr, bits, leaf, isMap⟩ := exists_get_of_map (by rw [here]; simp)
    rw [here] at isMap
    obtain ⟨rfl, rfl⟩ := Prod.mk.inj (Option.some.inj isMap)
    exact ⟨bits, leaf, rfl⟩
  have emp : radixTreeEmptyTreeP t = true ↔ ∀ idx, t.map idx = none := by
    rw [sound.emptyTree]
    simp only [map_eq_none]
  refine ⟨?_, ?_, emp, ?_, sound.nodes, ?_, ?_⟩
  · intro idx
    rw [sound.lookupNode idx, RadixTree.map]
    cases t.get idx <;> rfl
  · intro idx tagid ptr tags here
    obtain ⟨bits, isGet, rfl⟩ := leaf here
    rw [sound.getTag isGet tagid]
    simp [mem_tagset]
  · intro tagid
    rw [sound.emptyTaggedTree tagid]
    constructor
    · intro untagged idx ptr tags here
      obtain ⟨bits, isGet, rfl⟩ := leaf here
      rw [mem_tagset, untagged idx ptr bits isGet]
      simp
    · intro untagged idx ptr bits isGet
      have here : t.map idx = some (ptr, tagset bits) := by simp [RadixTree.map, isGet]
      have notMember := untagged idx ptr _ here
      rw [mem_tagset] at notMember
      simpa using notMember
  · intro empty
    exact sound.flat (emp.mpr empty)
  · intro isFlat idx here
    obtain ⟨ptr, tags, isGet, _⟩ := exists_get_of_map here
    unfold RadixTree.get at isGet
    split at isGet
    · rename_i fits
      rw [isFlat] at fits
      apply slot_ext
      intro lvl below
      rw [fits lvl below (Nat.zero_le lvl)]
      simp [slot]
    · exact absurd isGet (by simp)

theorem sound_initTree : (radixTreeInitTree : RadixTree α).Sound :=
  ⟨trivial, Nat.zero_le 16, fun _ => rfl⟩

theorem map_initTree : (radixTreeInitTree : RadixTree α).map = IndexMap.empty := by
  funext idx
  simp [RadixTree.map, RadixTree.get, radixTreeInitTree, IndexMap.empty]

/-- Any calls in any order that insert absent indices, change present ones and do not run out of
memory: in every state that is reached the tree shows the map. -/
theorem radixTree_shows (ops : List (Op α)) (fine : ∀ front op, front ++ [op] <+: ops → ∀ reached,
      consume sideBySide front (radixTreeInitTree, IndexMap.empty) = some reached →
        op.Allowed reached.2 ∧ ¬ op.RunsOut reached.1) :
    ∀ front, front <+: ops → ∃ t map,
      consume sideBySide front (radixTreeInitTree, IndexMap.empty) = some (t, map) ∧
      Shows t map := by
  intro front pre
  obtain ⟨⟨t, map⟩, eaten, sound, isMap⟩ := consume_invariant sideBySide
    (fun st => st.1.Sound ∧ st.1.map = st.2)
    (fun st op => op.Allowed st.2 ∧ ¬ op.RunsOut st.1)
    (by
      rintro ⟨t, map⟩ op ⟨sound, isMap⟩ ⟨may, memory⟩
      rw [← isMap] at may
      obtain ⟨t', performed, kept, applied⟩ := sound.perform may memory
      refine ⟨(t', op.apply map), by simp [sideBySide, performed], kept, ?_⟩
      rw [applied, isMap])
    front ⟨sound_initTree, map_initTree⟩
    (fun old op inF => fine old op (inF.trans pre))
  simp only at sound isMap
  refine ⟨t, map, eaten, ?_⟩
  rw [← isMap]
  exact sound.shows

/-- A leaf at an index that needs three levels gets a tag. -/
def tagOne : List (Op Nat) := [.insert 1000 7 16, .setTag 1000 1]

theorem radixTree_shows_tagOne :
    ∃ t map, consume sideBySide tagOne (radixTreeInitTree, IndexMap.empty) = some (t, map) ∧
      Shows t map := by
  apply radixTree_shows tagOne _ tagOne List.prefix_rfl
  intro front op pre got eaten
  rcases front with _ | ⟨fst, _ | ⟨snd, front⟩⟩
  · obtain rfl : op = _ := by simpa [tagOne] using pre
    obtain rfl := Option.some.inj eaten
    refine ⟨rfl, ?_⟩
    rintro ⟨t', bad⟩
    have errno : (Op.perform radixTreeInitTree (Op.insert 1000 7 16)).map Prod.fst = some .enomem :=
      congrArg (Option.map Prod.fst) bad
    exact absurd errno (by decide)
  · obtain ⟨rfl, rfl⟩ : fst = _ ∧ op = _ := by simpa [tagOne] using pre
    obtain rfl := Option.some.inj eaten
    constructor
    · intro hn
      exact absurd hn (by decide)
    · rintro ⟨t', bad⟩
      simp [Op.perform] at bad
  · simp [tagOne] at pre

/-- The leaf at index 0 of an otherwise empty tree is the root itself, at height 0. -/
theorem height_rootLeaf :
    ∃ t map, consume sideBySide [Op.insert 0 7 0] (radixTreeInitTree, IndexMap.empty) =
        some (t, map) ∧
      t.tHeight = 0 ∧ map 0 = some (7, ∅) ∧ radixTreeLookupNode t 0 = some (some 7) := by
  exact ⟨_, _, rfl, rfl, rfl, rfl⟩

end NetBSD.Gen.Radixtree
