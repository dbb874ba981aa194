import NetBSD.Gen.RadixtreeMap

/-!
Owns the changes at a leaf that is there: replacing and removing it, setting and
clearing its tags. The loops go up the way and stop where nothing changes any more.
-/

namespace NetBSD.Gen.Radixtree

open Function Entry

variable {α : Type} {idx other : BitVec 64} {height top : Nat} {e changed root : Entry α}
  {path : List (Frame α)} {value : Option (α × Tags)} {frame : Frame α}

def Turns (height : Nat) (idx : BitVec 64) (value : Option (α × Tags)) (entry changed : Entry α) :
    Prop :=
  ∀ other, changed.get height other =
    if Meets height idx other then value else entry.get height other

theorem Turns.stored (turns : Turns height idx value (frame.nPtrs frame.slot) changed)
    (isSlot : frame.slot = slot idx (4 * height)) (nNptrs : Nat) (msk : Tags) :
    Turns (height + 1) idx value frame.entry (.node (frame.stored changed) nNptrs msk) := by
  intro other
  simp only [Entry.get, Frame.entry, Frame.stored]
  by_cases same : slot other (4 * height) = frame.slot
  · rw [same, update_self, turns other]
    simp only [meets_succ, same, isSlot, true_and]
  rw [update_of_ne same]
  rw [if_neg]
  intro meets
  apply same
  rw [isSlot]
  exact (meets_succ.mp meets).1

/-- An entry after the change: sound, and it holds a leaf as before. -/
structure Changes (height : Nat) (idx : BitVec 64) (value : Option (α × Tags))
    (entry changed : Entry α) : Prop where
  turns : Turns height idx value entry changed
  sound : changed.Sound height
  present : changed.isNull = false

theorem anyTagged_stored (fr : Frame α) (changed : Entry α) (tagid : Fin 2) :
    AnyTagged (fr.stored changed) tagid ↔
      changed.tagged tagid ∨ ∃ i ≠ fr.slot, (fr.nPtrs i).tagged tagid := by
  unfold AnyTagged Frame.stored
  constructor
  · rintro ⟨i, isTagged⟩
    by_cases same : i = fr.slot
    · rw [same, update_self] at isTagged
      exact Or.inl isTagged
    · rw [update_of_ne same] at isTagged
      exact Or.inr ⟨i, same, isTagged⟩
  · rintro (isTagged | ⟨i, ne, isTagged⟩)
    · exact ⟨fr.slot, by rwa [update_self]⟩
    · exact ⟨i, by rwa [update_of_ne ne]⟩

theorem anyTagged_entry (fr : Frame α) (tagid : Fin 2) : AnyTagged fr.nPtrs tagid ↔
      (fr.nPtrs fr.slot).tagged tagid ∨ ∃ i ≠ fr.slot, (fr.nPtrs i).tagged tagid := by
  have same : fr.stored (fr.nPtrs fr.slot) = fr.nPtrs := update_eq_self _ _
  rw [← anyTagged_stored, same]

theorem sound_stored {nPtrs : Fin 16 → Entry α} {slot : Fin 16}
    (kids : ∀ i, (nPtrs i).Sound height) (sound : changed.Sound height) (i : Fin 16) :
    (update nPtrs slot changed i).Sound height := by
  by_cases same : i = slot
  · rw [same, update_self]
    exact sound
  · rw [update_of_ne same]
    exact kids i

theorem Changes.up (chg : Changes height idx value (frame.nPtrs frame.slot) changed)
    (isSlot : frame.slot = slot idx (4 * height)) (sound : frame.entry.Sound (height + 1))
    (here : (frame.nPtrs frame.slot).isNull = false) {msk : Tags}
    (isUnion : ∀ tagid : Fin 2,
      msk.getLsb tagid = true ↔ AnyTagged (frame.stored changed) tagid) :
    Changes (height + 1) idx value frame.entry
      (.node (frame.stored changed) frame.nNptrs msk) := by
  obtain ⟨cnt, ne0, _, kids⟩ := sound
  refine ⟨chg.turns.stored isSlot _ _, ⟨?_, ne0, isUnion, ?_⟩, rfl⟩
  · have update := occupied_update frame.nPtrs frame.slot changed
    rw [here, chg.present] at update
    rw [cnt, Frame.stored]
    simpa using update.symm
  · exact sound_stored kids chg.sound

theorem Changes.rebuild (chg : Changes height idx value e changed)
    (spine : Spine idx height e path top root) (sound : root.Sound top)
    (present : e.isNull = false) (sameTags : changed.entryTagmask = e.entryTagmask) :
    Changes top idx value root (rebuild path changed) := by
  induction spine generalizing changed with
  | here height root => exact chg
  | @under height top root fr path slot tl ih =>
    have nodeSound := tl.sound sound
    have above : Changes (height + 1) idx value fr.entry (fr.plug changed) := by
      apply chg.up slot nodeSound present
      intro tagid
      obtain ⟨_, _, isUnion, _⟩ := nodeSound
      rw [isUnion tagid, anyTagged_entry, anyTagged_stored, tagged, tagged, sameTags]
    exact ih above sound rfl rfl

theorem Changes.tree {t : RadixTree α} (chg : Changes t.tHeight idx value t.tRoot changed)
    (low : t.tHeight ≤ 16) (fits : Fits t.tHeight idx) :
    (⟨changed, t.tHeight⟩ : RadixTree α).Sound ∧
      ∀ other, (⟨changed, t.tHeight⟩ : RadixTree α).get other =
        if other = idx then value else t.get other := by
  refine ⟨⟨chg.sound, low, ?_⟩, ?_⟩
  · intro isNull
    rw [chg.present] at isNull
    exact absurd isNull (by simp)
  intro other
  unfold RadixTree.get
  by_cases fitsOther : Fits t.tHeight other
  · rw [if_pos fitsOther, if_pos fitsOther, chg.turns other]
    simp only [meets_iff fits fitsOther]
  · rw [if_neg fitsOther, if_neg fitsOther, if_neg]
    rintro rfl
    exact fitsOther fits

/-! ### Replacing -/

theorem changes_leaf (ptr p : α) (tags tags' : Tags) (idx : BitVec 64) :
    Changes 0 idx (some (p, tags')) (.leaf ptr tags) (.leaf p tags') := by
  refine ⟨?_, trivial, rfl⟩
  intro other
  rfl

variable {t : RadixTree α} {ptr : α} {tags : Tags}

theorem RadixTree.Sound.replaceNode (sound : t.Sound) (leaf : t.get idx = some (ptr, tags))
    (p : α) : ∃ t', radixTreeReplaceNode t idx p = some (ptr, t') ∧ t'.Sound ∧
      ∀ other, t'.get other = if other = idx then some (p, tags) else t.get other := by
  obtain ⟨path, fnd, fits, spine⟩ := sound.lookupPtr_leaf leaf
  have chg := (changes_leaf ptr p tags tags idx).rebuild spine sound.nodes rfl rfl
  refine ⟨⟨rebuild path (.leaf p tags), t.tHeight⟩, ?_, chg.tree sound.low fits⟩
  unfold radixTreeReplaceNode
  rw [fnd]

/-! ### Setting a tag -/

theorem entryTagmask_plug (fr : Frame α) (e : Entry α) :
    (fr.plug e).entryTagmask = fr.tagmask := rfl

@[simp] theorem entryCompose_self (e : Entry α) :
    e.entryCompose e.entryTagmask = e := by
  cases e <;> rfl

theorem entryTagmask_entryCompose {e : Entry α} (msk : Tags)
    (here : (e.entryCompose msk).isNull = false) :
    (e.entryCompose msk).entryTagmask = msk := by
  cases e with
  | null => exact absurd here (by simp [entryCompose, isNull])
  | leaf ptr mask => rfl
  | node nPtrs nNptrs mask => rfl

variable {tagid : Fin 2}

theorem or_tagidToMask {tags : Tags} (isSet : tags &&& tagidToMask tagid ≠ 0) :
    tags ||| tagidToMask tagid = tags := by
  revert tags tagid
  decide

theorem getLsb_or_tagidToMask (tags : Tags) (tagid other : Fin 2) :
    (tags ||| tagidToMask tagid).getLsb other = true ↔ tags.getLsb other = true ∨ other = tagid := by
  revert tags tagid other
  decide

theorem Changes.setTag {now : Entry α} (chg : Changes height idx value e
      (now.entryCompose (now.entryTagmask ||| tagidToMask tagid)))
    (spine : Spine idx height e path top root) (sound : root.Sound top)
    (present : e.isNull = false) (sameTags : now.entryTagmask = e.entryTagmask) :
    Changes top idx value root (setTagLoop (tagidToMask tagid) path now) := by
  induction spine generalizing now with
  | here height root =>
    unfold setTagLoop
    split
    · rename_i isSet
      rw [or_tagidToMask isSet, entryCompose_self] at chg
      exact chg
    · exact chg
  | @under height top root fr path slot tl ih =>
    unfold setTagLoop
    split
    · rename_i isSet
      rw [or_tagidToMask isSet, entryCompose_self] at chg
      exact chg.rebuild (.under fr slot tl) sound present sameTags
    have nodeSound := tl.sound sound
    refine @ih (fr.plug _) ?_ sound rfl rfl
    apply chg.up slot nodeSound present
    intro other
    obtain ⟨_, _, isUnion, _⟩ := nodeSound
    have isTagged := entryTagmask_entryCompose _ chg.present
    rw [entryTagmask_plug, getLsb_or_tagidToMask, isUnion other, anyTagged_entry, anyTagged_stored, tagged,
      tagged, isTagged, getLsb_or_tagidToMask, sameTags]
    exact or_right_comm

theorem RadixTree.Sound.setTag (sound : t.Sound) (leaf : t.get idx = some (ptr, tags))
    (tagid : Fin 2) :
    ∃ t', radixTreeSetTag t idx tagid = some t' ∧ t'.Sound ∧ ∀ other, t'.get other =
        if other = idx then some (ptr, tags ||| tagidToMask tagid) else t.get other := by
  obtain ⟨path, fnd, fits, spine⟩ := sound.lookupPtr_leaf leaf
  have chg : Changes t.tHeight idx (some (ptr, tags ||| tagidToMask tagid)) t.tRoot
      (setTagLoop (tagidToMask tagid) path (.leaf ptr tags)) :=
    Changes.setTag (changes_leaf ptr ptr tags _ idx) spine sound.nodes rfl rfl
  have len : path.length = t.tHeight := by rw [spine.length, zero_add]
  refine ⟨⟨setTagLoop (tagidToMask tagid) path (.leaf ptr tags), t.tHeight⟩, ?_,
    chg.tree sound.low fits⟩
  unfold radixTreeSetTag
  rw [fnd]
  simp [len, isNull]

/-! ### Clearing a tag -/

theorem getLsb_and_not_tagidToMask (tags : Tags) (tagid other : Fin 2) :
    (tags &&& ~~~tagidToMask tagid).getLsb other = true ↔
      tags.getLsb other = true ∧ other ≠ tagid := by
  revert tags tagid other
  decide

theorem and_not_tagidToMask {tags : Tags} (clr : tags &&& tagidToMask tagid = 0) :
    tags &&& ~~~tagidToMask tagid = tags := by
  revert tags tagid
  decide

/-- Clearing a tag bottom up keeps a tag exactly where a son still carries it. -/
theorem Changes.clearTag {now : Entry α} (chg : Changes height idx value e
      (now.entryCompose (now.entryTagmask &&& ~~~tagidToMask tagid)))
    (spine : Spine idx height e path top root) (sound : root.Sound top)
    (present : e.isNull = false) (sameTags : now.entryTagmask = e.entryTagmask)
    (isSet : e.tagged tagid) :
    ∃ changed, clearTagLoop (tagidToMask tagid) path now = some changed ∧
      Changes top idx value root changed := by
  have notClear : ¬ now.entryTagmask &&& tagidToMask tagid = 0 := by
    rw [sameTags]
    exact and_tagidToMask.mpr isSet
  induction spine generalizing now with
  | here height root =>
    unfold clearTagLoop
    rw [if_neg notClear]
    exact ⟨_, rfl, chg⟩
  | @under height top root fr path slot tl ih =>
    have nodeSound := tl.sound sound
    obtain ⟨_, _, isUnion, _⟩ := tl.sound sound
    have isTagged := entryTagmask_entryCompose _ chg.present
    have nodeSet : fr.entry.tagged tagid := (isUnion tagid).mpr ⟨_, isSet⟩
    -- the other tags of the children are as before
    have otherTags (other : Fin 2) (ne : other ≠ tagid) : fr.tagmask.getLsb other = true ↔
        AnyTagged (fr.stored
          (now.entryCompose (now.entryTagmask &&& ~~~tagidToMask tagid))) other := by
      rw [isUnion other, anyTagged_entry, anyTagged_stored, tagged, tagged, isTagged,
        getLsb_and_not_tagidToMask, sameTags]
      simp [ne]
    unfold clearTagLoop
    rw [if_neg notClear]
    simp only
    split
    · rename_i stillTagged
      rw [and_tagidToMask, anyChildrenTagmask_getLsb] at stillTagged
      refine ⟨_, rfl, ?_⟩
      have above : Changes (height + 1) idx value fr.entry (fr.plug
          (now.entryCompose (now.entryTagmask &&& ~~~tagidToMask tagid))) := by
        apply chg.up slot nodeSound present
        intro other
        by_cases ne : other = tagid
        · subst ne
          exact ⟨fun _ => stillTagged, fun _ => nodeSet⟩
        · exact otherTags other ne
      exact above.rebuild tl sound rfl rfl
    rename_i untagged
    rw [and_tagidToMask, anyChildrenTagmask_getLsb] at untagged
    refine @ih (fr.plug _) ?_ sound rfl rfl nodeSet (and_tagidToMask.mpr nodeSet)
    apply chg.up slot nodeSound present
    intro other
    rw [entryTagmask_plug, getLsb_and_not_tagidToMask]
    by_cases ne : other = tagid
    · subst ne
      exact ⟨fun kept => absurd rfl kept.2, fun isAny => absurd isAny untagged⟩
    · rw [otherTags other ne]
      simp [ne]

theorem RadixTree.Sound.clearTag (sound : t.Sound) (isLeaf : t.get idx = some (ptr, tags))
    (tagid : Fin 2) :
    ∃ t', radixTreeClearTag t idx tagid = some t' ∧ t'.Sound ∧ ∀ other, t'.get other =
        if other = idx then some (ptr, tags &&& ~~~tagidToMask tagid) else t.get other := by
  obtain ⟨path, fnd, fits, spine⟩ := sound.lookupPtr_leaf isLeaf
  have len : path.length = t.tHeight := by rw [spine.length, zero_add]
  have at' : ¬ ((leaf ptr tags).isNull = true ∨ path.length ≠ t.tHeight) := by
    simp [isNull, len]
  unfold radixTreeClearTag
  simp only [fnd, if_neg at']
  change ∃ t', (if tags &&& tagidToMask tagid = 0 then _ else _) = some t' ∧ _
  by_cases clr : tags &&& tagidToMask tagid = 0
  · rw [if_pos clr]
    refine ⟨t, rfl, sound, ?_⟩
    intro other
    rw [and_not_tagidToMask clr, ← isLeaf]
    split
    · rename_i same
      rw [same]
    · rfl
  · rw [if_neg clr]
    have beg : Changes 0 idx (some (ptr, tags &&& ~~~tagidToMask tagid)) (.leaf ptr tags)
        ((leaf ptr tags).entryCompose (tags &&& ~~~tagidToMask tagid)) :=
      changes_leaf ptr ptr tags _ idx
    obtain ⟨changed, loop, chg⟩ :=
      Changes.clearTag beg spine sound.nodes rfl rfl (and_tagidToMask.mp clr)
    exact ⟨⟨changed, t.tHeight⟩, by rw [loop]; rfl, chg.tree sound.low fits⟩

/-! ### Removing -/

theorem Changes.retag {nPtrs : Fin 16 → Entry α} {nNptrs : Nat} {msk : Tags}
    (chg : Changes height idx value e (.node nPtrs nNptrs (anyChildrenTagmask nPtrs)))
    (spine : Spine idx height e path top root) (sound : root.Sound top)
    (present : e.isNull = false) (sameTags : msk = e.entryTagmask) :
    ∃ changed, retagLoop path (.node nPtrs nNptrs msk) = some changed ∧
      Changes top idx value root changed := by
  have ne0 : nNptrs ≠ 0 := by
    cases height with
    | zero => exact chg.sound.elim
    | succ height => exact chg.sound.2.1
  induction spine generalizing nPtrs nNptrs msk with
  | here height root =>
    unfold retagLoop
    rw [if_neg ne0]
    split
    · rename_i same
      rw [same] at chg
      exact ⟨_, rfl, chg⟩
    · exact ⟨_, rfl, chg⟩
  | @under height top root fr path slot tl ih =>
    have nodeSound := tl.sound sound
    unfold retagLoop
    rw [if_neg ne0]
    split
    · rename_i same
      rw [same] at chg
      exact ⟨_, rfl, chg.rebuild (.under fr slot tl) sound present sameTags⟩
    · refine ih ?_ sound rfl rfl nodeSound.2.1
      exact chg.up slot nodeSound present (anyChildrenTagmask_getLsb _)

theorem Spine.free (spine : Spine idx height e path top root) (sound : root.Sound top)
    (present : e.isNull = false) (turns : Turns height idx none e .null) :
    (freeLoop path = some none ∧ Turns top idx none root .null) ∨ ∃ lvl node path' nPtrs nNptrs,
        freeLoop path = some (some (.node nPtrs nNptrs node.entryTagmask, path')) ∧
        Spine idx lvl node path' top root ∧ node.isNull = false ∧
        Changes lvl idx none node (.node nPtrs nNptrs (anyChildrenTagmask nPtrs)) := by
  induction spine with
  | here height root => exact Or.inl ⟨rfl, turns⟩
  | @under height top root fr path slot tl ih =>
    obtain ⟨cnt, ne0, isUnion, kids⟩ := tl.sound sound
    have update : occupied (fr.stored .null) + 1 = fr.nNptrs := by
      have cnts := occupied_update fr.nPtrs fr.slot .null
      rw [present] at cnts
      rw [cnt, Frame.stored]
      simpa [isNull] using cnts
    unfold freeLoop
    rw [if_neg ne0]
    by_cases oths : fr.nNptrs - 1 > 0
    · rw [if_pos oths]
      refine Or.inr ⟨height + 1, fr.entry, path, _, _, rfl, tl, rfl, ?_⟩
      refine ⟨turns.stored slot _ _, ⟨by omega, by omega, anyChildrenTagmask_getLsb _, ?_⟩, rfl⟩
      exact sound_stored kids (sound_null height)
    have isClean : ∀ i, (fr.stored .null i).isNull = true :=
      occupied_eq_zero.mp (by omega)
    rw [if_neg oths, if_pos isClean]
    apply ih sound rfl
    intro other
    have emptied := turns.stored slot 0 0 other
    rw [get_null, ← emptied, Entry.get, isNull_iff.mp (isClean _), get_null]

theorem turns_null (ptr : α) (tags : Tags) (idx : BitVec 64) :
    Turns 0 idx none (.leaf ptr tags) .null := by
  intro other
  rfl

theorem RadixTree.Sound.removeNode (sound : t.Sound) (leaf : t.get idx = some (ptr, tags)) :
    ∃ t', radixTreeRemoveNode t idx = some (ptr, t') ∧ t'.Sound ∧
      ∀ other, t'.get other = if other = idx then none else t.get other := by
  obtain ⟨path, fnd, fits, spine⟩ := sound.lookupPtr_leaf leaf
  have len : ¬ path.length ≠ t.tHeight := by
    rw [spine.length, zero_add, not_not]
  unfold radixTreeRemoveNode
  simp only [fnd, if_neg len]
  rcases spine.free sound.nodes rfl (turns_null ptr tags idx) with ⟨freed, turns⟩ |
    ⟨lvl, node, path', nPtrs, nNptrs, freed, tl, here, chg⟩
  · refine ⟨⟨.null, 0⟩, by rw [freed]; rfl, ⟨trivial, Nat.zero_le 16, fun _ => rfl⟩, ?_⟩
    intro other
    have gone := turns other
    unfold RadixTree.get
    simp only [get_null, ite_self] at gone ⊢
    split
    · rfl
    · rename_i ne
      split
      · rename_i fitsOther
        rwa [if_neg (by rwa [meets_iff fits fitsOther])] at gone
      · rfl
  · obtain ⟨changed, loop, above⟩ := chg.retag tl sound.nodes here rfl
    refine ⟨⟨changed, t.tHeight⟩, ?_, above.tree sound.low fits⟩
    rw [freed, Option.bind_some]
    simp only [loop, Option.map_some]

end NetBSD.Gen.Radixtree
