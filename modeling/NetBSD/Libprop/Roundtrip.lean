import NetBSD.Libprop.Balanced
import NetBSD.Libprop.LeafRound
import Mathlib.Data.List.TakeWhile

/-!
Owns the run of the parser over a written tree. It comes back with the tree, unless there is an
empty blob in it, which is written as an empty element, or a container with more elements than a
capacity can count.
-/

namespace NetBSD.Libprop

open List Option

section Trees

/-- The most elements that a container gets one by one. -/
def maxCount : Nat := 4294967280

mutual

/-- A tree that the library can hold: dictionaries are sorted, keys and blobs have a length. -/
def Wellformed : PropObject → Prop
  | .array pa_array => WellformedItems pa_array
  | .dictionary pd_array => pd_array.Pairwise Before ∧ WellformedEntries pd_array
  | .string _ => True
  | .data bytes => bytes.length < 18446744073709551615
  | .number _ => True
  | .bool _ => True

def WellformedItems : List PropObject → Prop
  | [] => True
  | po :: pa_array => Wellformed po ∧ WellformedItems pa_array

def WellformedEntries : List (Entry PropObject) → Prop
  | [] => True
  | ⟨pdk, po⟩ :: pd_array => pdk.bytes.length ≤ pdkMaxkey ∧ Wellformed po ∧ WellformedEntries pd_array

end

mutual

/-- A tree without an empty blob, and with containers that a capacity can count. -/
def Storable : PropObject → Prop
  | .array pa_array => pa_array.length ≤ maxCount ∧ StorableItems pa_array
  | .dictionary pd_array => pd_array.length ≤ maxCount ∧ StorableEntries pd_array
  | .string _ => True
  | .data bytes => bytes ≠ []
  | .number _ => True
  | .bool _ => True

def StorableItems : List PropObject → Prop
  | [] => True
  | po :: pa_array => Storable po ∧ StorableItems pa_array

def StorableEntries : List (Entry PropObject) → Prop
  | [] => True
  | ⟨_, po⟩ :: pd_array => Storable po ∧ StorableEntries pd_array

end

end Trees

section Outcomes

variable {errno : Bool} {outcome between target : Scan Settled} {good : Prop}

def Arrives (errno : Bool) (outcome target : Scan Settled) : Prop :=
  ∃ tags, Goes errno outcome tags target

/-- The loop ends without an object. -/
def Fails (errno : Bool) (outcome : Scan Settled) : Prop :=
  ∃ reached, Arrives errno outcome reached ∧
    (reached = .ok (.returned none) ∨ reached = .error .smashed)

/-- The loop comes to the target when all is well, and fails when it is not. -/
structure Outcome (errno : Bool) (outcome : Scan Settled) (good : Prop) (target : Scan Settled) :
    Prop where
  arrives : good → Arrives errno outcome target
  fails : ¬ good → Fails errno outcome

theorem Arrives.refl (outcome : Scan Settled) : Arrives errno outcome outcome := ⟨[], .here outcome⟩

theorem Arrives.trans (pre : Arrives errno outcome between) (back : Arrives errno between target) :
    Arrives errno outcome target := by
  obtain ⟨tags, goes⟩ := pre
  obtain ⟨tags', goes'⟩ := back
  exact ⟨tags ++ tags', goes.trans goes'⟩

theorem Fails.behind (pre : Arrives errno outcome between) (fails : Fails errno between) :
    Fails errno outcome := by
  obtain ⟨got, arrives, reach⟩ := fails
  exact ⟨got, pre.trans arrives, reach⟩

theorem Outcome.of_iff {good' : Prop} (back : Outcome errno outcome good target)
    (same : good ↔ good') : Outcome errno outcome good' target :=
  ⟨fun isGood => back.arrives (same.mpr isGood), fun notGood =>
    back.fails fun isGood => notGood (same.mp isGood)⟩

theorem arrives_matched (tag : Tag) (cp : Text) (stack : List Frame) :
    Arrives errno (.ok (.matching tag cp stack)) (byTagStep errno tag cp stack) :=
  ⟨[tag], .matched (.here _)⟩

theorem outcome_of_eq (isTarget : outcome = target) (isGood : good) :
    Outcome errno outcome good target := by
  refine ⟨fun _ => ?_, fun notGood => absurd isGood notGood⟩
  rw [isTarget]
  exact .refl target

theorem fails_returned (out : outcome = .ok (.returned none)) : Fails errno outcome :=
  ⟨outcome, .refl outcome, .inl out⟩

theorem fails_smashed (out : outcome = .error .smashed) : Fails errno outcome :=
  ⟨outcome, .refl outcome, .inr out⟩

end Outcomes

section Tags

variable {name tl : Text}

/-- A name without a character that ends it, and none that makes another tag. -/
structure PlainName (name : Text) : Prop where
  inName : ∀ c ∈ name, endsTagname c = false
  notNil : name ≠ []
  notBang : name.head? ≠ some bang

theorem PlainName.head_append (plain : PlainName name) (tl : Text) :
    (name ++ tl).head? ≠ some bang ∧ (name ++ tl).head? ≠ some slash := by
  obtain ⟨inName, notNil, notBang⟩ := plain
  cases name with
  | nil => exact absurd rfl notNil
  | cons c name =>
    refine ⟨notBang, fun isSlash => ?_⟩
    have notEnd := inName c mem_cons_self
    rw [some.inj isSlash] at notEnd
    cases notEnd

theorem plain_start (plain : PlainName name) (tl : Text) :
    TagAt (less :: (name ++ greater :: tl)) ⟨name, none, false, .tagStart⟩ tl := by
  obtain ⟨notBang, notSlash⟩ := plain.head_append (greater :: tl)
  exact .opening notBang notSlash (.plain plain.inName)

theorem plain_empty (plain : PlainName name) (tl : Text) :
    TagAt (less :: (name ++ slash :: greater :: tl)) ⟨name, none, true, .tagStart⟩ tl := by
  obtain ⟨notBang, notSlash⟩ := plain.head_append (slash :: greater :: tl)
  exact .opening notBang notSlash (.emptyElement plain.inName rfl)

theorem plain_end (plain : PlainName name) (tl : Text) :
    TagAt (less :: slash :: (name ++ greater :: tl)) ⟨name, none, false, .tagEnd⟩ tl :=
  .closing (.plain plain.inName)

theorem endTag_plain (plain : PlainName name) (tl : Text) :
    EndTag name (less :: slash :: (name ++ greater :: tl)) tl :=
  ⟨_, _, .none _, plain_end plain tl, rfl, rfl⟩

theorem blank_tabs (comments : Prop) (depth : Nat) (tl : Text) :
    Blank comments (10 :: (tabs depth ++ tl)) tl := by
  apply Blank.space (by decide)
  apply Blank.of_spaces
  intro c isIn
  rw [eq_of_mem_replicate isIn]
  decide

theorem plain_array : PlainName (chars "array") := ⟨by decide, by decide, by decide⟩
theorem plain_dict : PlainName (chars "dict") := ⟨by decide, by decide, by decide⟩
theorem plain_key : PlainName (chars "key") := ⟨by decide, by decide, by decide⟩
theorem plain_string : PlainName (chars "string") := ⟨by decide, by decide, by decide⟩
theorem plain_data : PlainName (chars "data") := ⟨by decide, by decide, by decide⟩
theorem plain_integer : PlainName (chars "integer") := ⟨by decide, by decide, by decide⟩
theorem plain_true : PlainName (chars "true") := ⟨by decide, by decide, by decide⟩
theorem plain_false : PlainName (chars "false") := ⟨by decide, by decide, by decide⟩
end Tags

section Counts

variable {α : Type}

/-- The capacity that comes from so many elements one by one. -/
def rounded (count : Nat) : Nat := (count + 15) / 16 * 16

theorem array_room {pa : PropArray α} (isRounded : pa.pa_capacity = rounded pa.pa_array.length)
    (below : pa.pa_array.length < maxCount) (po : α) :
    propArrayAdd pa po = .ok ⟨pa.pa_array ++ [po], rounded (pa.pa_array.length + 1)⟩ := by
  unfold propArrayAdd propArrayExpand uint expandStep
  unfold rounded maxCount at *
  by_cases isFull : pa.pa_array.length = pa.pa_capacity
  · dsimp only
    rw [if_pos isFull, if_neg (by omega)]
    dsimp only
    congr 2
    omega
  rw [if_neg isFull]
  dsimp only
  congr 2
  omega

theorem array_smashed {pa : PropArray α} (isRounded : pa.pa_capacity = rounded pa.pa_array.length)
    (isMax : pa.pa_array.length = maxCount) (po : α) : propArrayAdd pa po = .error .smashed := by
  unfold propArrayAdd propArrayExpand uint expandStep
  unfold rounded maxCount at *
  rw [if_pos (by omega), if_pos (by omega)]
  rfl

variable {pd : Dictionary α} {key : CString} {po : α}

section

variable (sorted : (pd.pd_array ++ [(⟨key, po⟩ : Entry α)]).Pairwise Before)

include sorted

theorem last_lookup :
    ∃ idx, propDictLookup pd key = some (.near idx) ∧ Belongs key pd.pd_array pd.pd_array.length ∧
      (0 < pd.pd_array.length → NetBSD.Arith.Beside pd.pd_array.length pd.pd_array.length idx) := by
  obtain ⟨pre, _, across⟩ := pairwise_append.mp sorted
  obtain ⟨res, isRes, looked⟩ := @lookup_spec _ pd key pre
  cases looked with
  | @found idx pde isAt isKey =>
    have prev := across pde (mem_of_getElem? isAt) _ mem_cons_self
    unfold Before at prev
    rw [isKey, strcmp_self] at prev
    omega
  | @near idx point owns beside =>
    have isEnd : pd.pd_array.length ≤ point := by
      apply Nat.le_of_not_lt
      intro lt
      have isIn : pd.pd_array[point] ∈ pd.pd_array.drop point :=
        mem_drop_iff_getElem.mpr ⟨0, by omega, by simp⟩
      have above := owns.back _ isIn
      have prev := across _ (getElem_mem lt) _ mem_cons_self
      unfold Before at prev
      rw [strcmp_neg] at prev
      dsimp only at prev
      omega
    obtain rfl := le_antisymm owns.inside isEnd
    exact ⟨idx, isRes, owns, beside⟩

theorem dictionary_room (short : key.bytes.length ≤ pdkMaxkey)
    (isRounded : pd.pd_capacity = rounded pd.pd_array.length)
    (below : pd.pd_array.length < maxCount) :
    ∃ pd', propDictionaryPut pd key po = .ok pd' ∧ pd'.pd_array = pd.pd_array ++ [⟨key, po⟩] ∧
      pd'.pd_capacity = rounded (pd.pd_array.length + 1) := by
  obtain ⟨idx, isLookup, owns, beside⟩ := last_lookup sorted
  have isAdd := @add_eq _ pd ⟨key, po⟩ idx _ owns beside (by unfold rounded at isRounded; omega)
    (by unfold rounded maxCount expandStep at *; omega)
  rw [take_length, drop_length] at isAdd
  unfold propDictionaryPut
  simp only [isLookup]
  rw [if_neg (not_lt.mpr short), isAdd]
  refine ⟨_, rfl, rfl, ?_⟩
  show grown pd = _
  unfold grown rounded expandStep at *
  split <;> omega

theorem dictionary_smashed (short : key.bytes.length ≤ pdkMaxkey)
    (isRounded : pd.pd_capacity = rounded pd.pd_array.length)
    (isMax : pd.pd_array.length = maxCount) : propDictionaryPut pd key po = .error .smashed := by
  obtain ⟨idx, isLookup, _, _⟩ := last_lookup sorted
  unfold rounded maxCount at *
  have isFull := @add_full _ pd idx ⟨key, po⟩ (by omega) (by omega) (by unfold expandStep; omega)
  unfold propDictionaryPut
  simp only [isLookup]
  rw [if_neg (not_lt.mpr short), isFull]
  rfl

end

end Counts

/-!
### The tree

The induction over a written tree, with one lemma for a leaf, an array and a dictionary.
-/

variable {errno : Bool}

def masterTag : PropObject → Option Text
  | .array _ => some (chars "array")
  | .dictionary _ => some (chars "dict")
  | _ => none

/-- The parser over an object that is written in front of a text: it begins at a start tag, and the
loop comes back with the object or fails. -/
structure Reads (errno : Bool) (depth : Nat) (po : PropObject) (rest : Text) (place : Text)
    (tag : Tag) (mid : Text) : Prop where
  isPlace : externalize depth po ++ rest = tabs depth ++ place
  tagAt : TagAt place tag mid
  isStart : tag.poic_tag_type = .tagStart
  isMaster : ∀ name, masterTag po = some name → tag.poic_tagname = name
  outcome : ∀ stack, Outcome errno (byTagStep errno tag mid stack) (Storable po)
    (settle stack (some (po, 10 :: rest)))

variable {po : PropObject}

section Leaves

theorem cString_bytes (contents : CString) : cString contents.bytes = contents := by
  have whole : contents.bytes.takeWhile (· ≠ 0) = contents.bytes := by
    apply takeWhile_eq_self_iff.mpr
    intro c isIn
    simpa using contents.noNul c isIn
  unfold cString
  congr

theorem leaf_step {tag : Tag} {cp tl : Text} {obj : PropObject}
    (leaf : Leaf errno tag cp obj tl) (stack : List Frame) :
    byTagStep errno tag cp stack = settle stack (some (obj, tl)) := by
  obtain ⟨poi_intern, ent, isIntern⟩ := leaf.internalize
  rw [byTagStep_eq ent rfl, isIntern]
  rfl

theorem reads_tagged {depth : Nat} {name body : Text} (plain : PlainName name)
    (isText : externalize depth po = externalizeStartTag depth name ++ body ++ externalizeEndTag name)
    (leaf : ∀ tl, Leaf errno ⟨name, none, false, .tagStart⟩
      (body ++ less :: slash :: (name ++ greater :: 10 :: tl)) po (10 :: tl))
    (noMaster : masterTag po = none) (storable : Storable po) (tl : Text) :
    ∃ plc tag mid, Reads errno depth po tl plc tag mid := by
  refine ⟨_, _, _, ?_, plain_start plain _, rfl, ?_, fun stack =>
    outcome_of_eq (leaf_step (leaf tl) stack) storable⟩
  · rw [isText]
    unfold externalizeStartTag externalizeEndTag
    simp only [append_assoc, cons_append, nil_append]
  · intro other oth
    rw [noMaster] at oth
    cases oth

theorem reads_empty {depth : Nat} {name : Text} (plain : PlainName name)
    (isText : externalize depth po = externalizeEmptyTag depth name)
    (isMaster : ∀ oth, masterTag po = some oth → name = oth)
    (outcome : ∀ tl stack, Outcome errno
      (byTagStep errno ⟨name, none, true, .tagStart⟩ (10 :: tl) stack) (Storable po)
      (settle stack (some (po, 10 :: tl)))) (tl : Text) :
    ∃ plc tag mid, Reads errno depth po tl plc tag mid := by
  refine ⟨_, _, _, ?_, plain_empty plain (10 :: tl), rfl, isMaster, outcome tl⟩
  rw [isText]
  unfold externalizeEmptyTag
  simp only [append_assoc, cons_append, nil_append]

theorem reads_string (depth : Nat) (contents : CString) (tl : Text) :
    ∃ plc tag mid, Reads errno depth (.string contents) tl plc tag mid := by
  by_cases empty : contents.bytes = []
  · apply reads_empty plain_string
    · rw [externalize]
      exact if_pos empty
    · intro other oth
      cases oth
    · intro tl stack
      have hstr : cString [] = contents := by
        rw [← empty]
        exact cString_bytes contents
      rw [← hstr]
      exact outcome_of_eq (leaf_step (.emptyString rfl rfl) stack) trivial
  apply reads_tagged plain_string
  · rw [externalize]
    exact if_neg empty
  · intro tl
    have hread := @decodeString_encode (slash :: (chars "string" ++ greater :: 10 :: tl))
      contents.bytes
    have leaf := @Leaf.string errno ⟨chars "string", none, false, .tagStart⟩ _ _ _ _ rfl rfl rfl
      hread (endTag_plain plain_string (10 :: tl))
    rwa [cString_bytes] at leaf
  · rfl
  · trivial

theorem reads_number (depth : Nat) (v : Number) (tl : Text) :
    ∃ plc tag mid, Reads errno depth (.number v) tl plc tag mid := by
  apply reads_tagged plain_integer
  · rw [externalize]
    rfl
  · intro tl
    exact .integer rfl rfl rfl (internalizeNumber_encode errno v _)
      (endTag_plain plain_integer (10 :: tl))
  · rfl
  · trivial

theorem reads_bool (depth : Nat) (v : Bool) (tl : Text) :
    ∃ plc tag mid, Reads errno depth (.bool v) tl plc tag mid := by
  cases v with
  | true =>
    apply reads_empty plain_true
      rfl
    · intro other oth
      cases oth
    · intro tl stack
      exact outcome_of_eq (leaf_step (.bool true rfl rfl rfl) stack) trivial
  | false =>
    apply reads_empty plain_false
      rfl
    · intro other oth
      cases oth
    · intro tl stack
      exact outcome_of_eq (leaf_step (.bool false rfl rfl rfl) stack) trivial

theorem empty_data_step (cp : Text) (stack : List Frame) :
    byTagStep errno ⟨chars "data", none, true, .tagStart⟩ cp stack = .ok (.returned none) := by
  rw [byTagStep_eq .data rfl]
  exact afterStep_none stack

theorem reads_data (depth : Nat) {bytes : List UInt8} (wellformed : Wellformed (.data bytes))
    (tl : Text) : ∃ plc tag mid, Reads errno depth (.data bytes) tl plc tag mid := by
  have sml : bytes.length < 18446744073709551615 := by
    rw [Wellformed] at wellformed
    exact wellformed
  by_cases empty : bytes = []
  · apply reads_empty plain_data
    · rw [externalize]
      exact if_pos empty
    · intro other oth
      cases oth
    · intro tl stack
      refine ⟨fun storable => ?_, fun _ => fails_returned (empty_data_step _ stack)⟩
      exact absurd empty storable
  apply reads_tagged plain_data
  · rw [externalize]
    exact if_neg empty
  · intro tl
    have fst := @decodeData_encode none bytes (slash :: (chars "data" ++ greater :: 10 :: tl))
      (fun size hsz => by cases hsz)
    have snd := @decodeData_encode (some ((bytes.length + 1) % 18446744073709551616)) bytes
      (slash :: (chars "data" ++ greater :: 10 :: tl)) (fun size hsz => by
        cases hsz
        omega)
    refine .data rfl rfl ?_ snd (endTag_plain plain_data (10 :: tl))
    show (decodeData none _ >>= fun res => pure res.1.length) = _
    rw [fst]
    rfl
  · rfl
  · rw [Storable]
    exact empty

end Leaves

section Containers

theorem container_text {depth : Nat} {name body : Text} (tl : Text) :
    externalizeContainer depth name false body ++ tl =
      tabs depth ++ less :: (name ++ greater :: 10 :: (body ++
        (tabs depth ++ less :: slash :: (name ++ greater :: 10 :: tl)))) := by
  unfold externalizeContainer externalizeStartTag externalizeEndTag
  rw [if_neg Bool.false_ne_true]
  simp only [append_assoc, cons_append, nil_append]

variable {depth : Nat} {stack : List Frame} {tl : Text}

theorem array_close (pa : PropArray PropObject) : propArrayInternalizeBody pa (10 :: (tabs depth ++
      less :: slash :: (chars "array" ++ greater :: 10 :: tl))) >>= afterStep stack =
        settle stack (some (.array pa.pa_array, 10 :: tl)) := by
  have isTag := findTag_either.mpr ⟨_, blank_tabs True depth _, plain_end plain_array (10 :: tl)⟩
  unfold propArrayInternalizeBody
  rw [isTag]
  rfl

/-- An element inside a container is read, and then the container goes on. -/
theorem Outcome.element {po : PropObject} {tag : Tag} {mid : Text} {target : Scan Settled}
    {resumed : Scan Settled} (outcome : Outcome errno (byTagStep errno tag mid stack) (Storable po)
      resumed) {good : Prop} (later : Outcome errno resumed good target) :
    Outcome errno (.ok (.matching tag mid stack)) (Storable po ∧ good) target := by
  constructor
  · rintro ⟨storable, isGood⟩
    exact (arrives_matched tag mid _).trans ((outcome.arrives storable).trans (later.arrives isGood))
  · intro notBoth
    apply Fails.behind (arrives_matched tag mid _)
    by_cases storable : Storable po
    · exact (later.fails fun isGood => notBoth ⟨storable, isGood⟩).behind (outcome.arrives storable)
    · exact outcome.fails storable

/-- One item of an array, written in front of the others. -/
theorem array_item {pa : PropArray PropObject} {plc mid tail : Text}
    {tag : Tag} (reads : Reads errno (depth + 1) po tail plc tag mid) {good : Prop}
    {target : Scan Settled}
    (later : Outcome errno (propArrayAdd pa po >>= fun pa =>
      propArrayInternalizeBody pa (10 :: tail) >>= afterStep stack) good target) :
    Outcome errno (propArrayInternalizeBody pa (10 :: (externalize (depth + 1) po ++ tail)) >>=
      afterStep stack) (Storable po ∧ good) target := by
  have isTag := findTag_either.mpr ⟨plc, blank_tabs True (depth + 1) plc, reads.tagAt⟩
  rw [← reads.isPlace] at isTag
  have outcome := reads.outcome (.array pa :: stack)
  have isMatching : propArrayInternalizeBody pa (10 :: (externalize (depth + 1) po ++ tail)) >>=
      afterStep stack = .ok (.matching tag mid (.array pa :: stack)) := by
    unfold propArrayInternalizeBody
    rw [isTag]
    simp only [scan_ok_bind]
    rw [if_neg (by simp [reads.isStart])]
    rfl
  have isResumed : settle (.array pa :: stack) (some (po, 10 :: tail)) =
      propArrayAdd pa po >>= fun pa =>
        propArrayInternalizeBody pa (10 :: tail) >>= afterStep stack := by
    exact bind_assoc _ _ _
  rw [isResumed] at outcome
  rw [isMatching]
  exact outcome.element later

theorem dictionary_close (pd : Dictionary PropObject) :
    propDictionaryInternalizeBody pd (10 :: (tabs depth ++
      less :: slash :: (chars "dict" ++ greater :: 10 :: tl))) >>= afterStep stack =
        settle stack (some (.dictionary pd.pd_array, 10 :: tl)) := by
  have isTag := findTag_either.mpr ⟨_, blank_tabs True depth _, plain_end plain_dict (10 :: tl)⟩
  unfold propDictionaryInternalizeBody
  rw [isTag]
  rfl

def keyText (depth : Nat) (pdk : CString) (behind : Text) : Text :=
  tabs depth ++ less :: (chars "key" ++ greater :: (encodeString pdk.bytes ++
    less :: slash :: (chars "key" ++ greater :: 10 :: behind)))

theorem key_text (pdk : CString) (tail : Text) :
    externalizeStartTag depth (chars "key") ++ encodeString pdk.bytes ++
      externalizeEndTag (chars "key") ++ tail = keyText depth pdk tail := by
  unfold keyText externalizeStartTag externalizeEndTag
  simp only [append_assoc, cons_append, nil_append]

/-- One entry of a dictionary, key and value. -/
theorem dictionary_entry {pdk : CString} (short : pdk.bytes.length ≤ pdkMaxkey)
    {pd : Dictionary PropObject} {plc mid tail : Text} {tag : Tag}
    (reads : Reads errno (depth + 1) po tail plc tag mid) {good : Prop} {target : Scan Settled}
    (later : Outcome errno (orNull (propDictionaryPut pd pdk po >>= fun pd =>
      propDictionaryInternalizeBody pd (10 :: tail)) >>= afterStep stack) good target) :
    Outcome errno (propDictionaryInternalizeBody pd (10 ::
      keyText (depth + 1) pdk (externalize (depth + 1) po ++ tail)) >>= afterStep stack)
      (Storable po ∧ good) target := by
  have outcome := reads.outcome (.dictionary pd pdk :: stack)
  have isKeyTag := findTag_either.mpr ⟨_, blank_tabs True (depth + 1) _, plain_start plain_key
    (encodeString pdk.bytes ++ less :: slash :: (chars "key" ++ greater :: 10 ::
      (externalize (depth + 1) po ++ tail)))⟩
  have isKey := decodeString_room (@decodeString_encode (slash :: (chars "key" ++ greater :: 10 ::
    (externalize (depth + 1) po ++ tail))) pdk.bytes) short
  obtain ⟨ctag, isClose⟩ := findTag_end.mpr
    (endTag_plain plain_key (10 :: (externalize (depth + 1) po ++ tail)))
  have val : findTag (10 :: (externalize (depth + 1) po ++ tail)) none .tagStart =
      .ok (tag, mid) := by
    rw [reads.isPlace]
    exact findTag_start.mpr ⟨plc, blank_tabs True (depth + 1) plc, reads.tagAt, reads.isStart,
      fun _ isWant => by cases isWant⟩
  have isMatching : propDictionaryInternalizeBody pd (10 ::
      keyText (depth + 1) pdk (externalize (depth + 1) po ++ tail)) >>= afterStep stack =
        .ok (.matching tag mid (.dictionary pd pdk :: stack)) := by
    unfold propDictionaryInternalizeBody keyText
    rw [isKeyTag]
    simp only [scan_ok_bind]
    rw [isKey]
    simp only [scan_ok_bind]
    rw [isClose]
    simp only [scan_ok_bind]
    rw [val, cString_bytes]
    rfl
  rw [isMatching]
  exact outcome.element later

end Containers

section Trees

/-- The end tag of a container at a depth, in front of a text. -/
def closing (depth : Nat) (name rest : Text) : Text :=
  tabs depth ++ less :: slash :: (name ++ greater :: 10 :: rest)

mutual

/-- A written object reads back as itself, by induction on it. -/
theorem reads_object : (po : PropObject) → Wellformed po → ∀ (depth : Nat) (tl : Text),
    ∃ plc tag mid, Reads errno depth po tl plc tag mid
  | .string contents, _, depth, tl => reads_string depth contents tl
  | .data _, wellformed, depth, tl => reads_data depth wellformed tl
  | .number value, _, depth, tl => reads_number depth value tl
  | .bool value, _, depth, tl => reads_bool depth value tl
  | .array [], _, depth, tl => by
    apply reads_empty plain_array
      rfl
    · intro other oth
      exact some.inj oth
    · intro tl stack
      exact outcome_of_eq (array_step rfl rfl _ stack) ⟨Nat.zero_le _, trivial⟩
  | .array (po :: pa_array), wellformed, depth, tl => by
    have items := reads_items (po :: pa_array) wellformed depth tl
    refine ⟨_, _, _, ?_, plain_start plain_array (10 :: (externalizeItems (depth + 1)
      (po :: pa_array) ++ closing depth (chars "array") tl)), rfl, ?_, fun stack => ?_⟩
    · rw [externalize]
      exact container_text tl
    · intro other oth
      exact some.inj oth
    · have outcome := items ⟨[], 0⟩ stack rfl (Nat.zero_le _)
      rw [length_nil, Nat.zero_add] at outcome
      exact outcome
  | .dictionary [], _, depth, tl => by
    apply reads_empty plain_dict
      rfl
    · intro other oth
      exact some.inj oth
    · intro tl stack
      exact outcome_of_eq (dict_step rfl rfl _ stack) ⟨Nat.zero_le _, trivial⟩
  | .dictionary (pde :: pd_array), wellformed, depth, tl => by
    have ents := reads_entries (pde :: pd_array) wellformed.2 depth tl
    refine ⟨_, _, _, ?_, plain_start plain_dict (10 :: (externalizeEntries (depth + 1)
      (pde :: pd_array) ++ closing depth (chars "dict") tl)), rfl, ?_, fun stack => ?_⟩
    · rw [externalize]
      exact container_text tl
    · intro other oth
      exact some.inj oth
    · have outcome := ents (propDictionaryCreate 0) stack wellformed.1 rfl (Nat.zero_le _)
      rw [dict_step rfl rfl]
      unfold propDictionaryCreate at outcome
      rw [length_nil, Nat.zero_add] at outcome
      exact outcome

/-- Written items read back in their order. -/
theorem reads_items : (pa_array : List PropObject) → WellformedItems pa_array →
    ∀ (depth : Nat) (tl : Text) (pa : PropArray PropObject) (stack : List Frame),
    pa.pa_capacity = rounded pa.pa_array.length → pa.pa_array.length ≤ maxCount →
    Outcome errno (propArrayInternalizeBody pa (10 :: (externalizeItems (depth + 1) pa_array ++
        closing depth (chars "array") tl)) >>= afterStep stack)
      (pa.pa_array.length + pa_array.length ≤ maxCount ∧ StorableItems pa_array)
      (settle stack (some (.array (pa.pa_array ++ pa_array), 10 :: tl)))
  | [], _, depth, tl, pa, stack, _, below => by
    rw [append_nil]
    exact outcome_of_eq (array_close pa) ⟨below, trivial⟩
  | po :: pa_array, wellformed, depth, tl, pa, stack, isRounded, below => by
    rw [WellformedItems] at wellformed
    obtain ⟨plc, tag, mid, reads⟩ := reads_object po wellformed.1 (depth + 1)
      (externalizeItems (depth + 1) pa_array ++ closing depth (chars "array") tl)
    have later : Outcome errno (propArrayAdd pa po >>= fun pa => propArrayInternalizeBody pa
        (10 :: (externalizeItems (depth + 1) pa_array ++ closing depth (chars "array") tl)) >>=
          afterStep stack)
        (pa.pa_array.length + 1 + pa_array.length ≤ maxCount ∧ StorableItems pa_array)
        (settle stack (some (.array (pa.pa_array ++ po :: pa_array), 10 :: tl))) := by
      by_cases rm : pa.pa_array.length < maxCount
      · have onward := reads_items pa_array wellformed.2 depth tl
          ⟨pa.pa_array ++ [po], rounded (pa.pa_array.length + 1)⟩ stack
          (by rw [length_append, length_singleton])
          (by rw [length_append]; exact rm)
        rw [length_append, length_singleton, append_assoc,
          singleton_append] at onward
        rw [array_room isRounded rm]
        exact onward
      · have isMax := le_antisymm below (Nat.le_of_not_lt rm)
        refine ⟨fun isGood => absurd isGood.1 (by omega), fun _ => fails_smashed ?_⟩
        rw [array_smashed isRounded isMax]
        rfl
    have outcome := array_item reads later
    rw [externalizeItems, append_assoc, StorableItems]
    exact outcome.of_iff (by rw [add_assoc, add_comm 1]; exact and_left_comm)

/-- Written entries read back in their order. -/
theorem reads_entries : (pd_array : List (Entry PropObject)) → WellformedEntries pd_array →
    ∀ (depth : Nat) (tl : Text) (pd : Dictionary PropObject) (stack : List Frame),
    (pd.pd_array ++ pd_array).Pairwise Before →
    pd.pd_capacity = rounded pd.pd_array.length → pd.pd_array.length ≤ maxCount →
    Outcome errno (propDictionaryInternalizeBody pd (10 :: (externalizeEntries (depth + 1) pd_array ++
        closing depth (chars "dict") tl)) >>= afterStep stack)
      (pd.pd_array.length + pd_array.length ≤ maxCount ∧ StorableEntries pd_array)
      (settle stack (some (.dictionary (pd.pd_array ++ pd_array), 10 :: tl)))
  | [], _, depth, tl, pd, stack, _, _, below => by
    rw [append_nil]
    exact outcome_of_eq (dictionary_close pd) ⟨below, trivial⟩
  | ⟨pdk, po⟩ :: pd_array, wellformed, depth, tl, pd, stack, sorted, isRounded, below => by
    rw [WellformedEntries] at wellformed
    obtain ⟨plc, tag, mid, reads⟩ := reads_object po wellformed.2.1 (depth + 1)
      (externalizeEntries (depth + 1) pd_array ++ closing depth (chars "dict") tl)
    have isSplit : pd.pd_array ++ ⟨pdk, po⟩ :: pd_array =
        pd.pd_array ++ [⟨pdk, po⟩] ++ pd_array := by
      rw [append_assoc, singleton_append]
    rw [isSplit] at sorted ⊢
    have sortedFront := (pairwise_append.mp sorted).1
    have later : Outcome errno (orNull (propDictionaryPut pd pdk po >>= fun pd =>
        propDictionaryInternalizeBody pd (10 :: (externalizeEntries (depth + 1) pd_array ++
          closing depth (chars "dict") tl))) >>= afterStep stack)
        (pd.pd_array.length + 1 + pd_array.length ≤ maxCount ∧ StorableEntries pd_array)
        (settle stack (some (.dictionary (pd.pd_array ++ [⟨pdk, po⟩] ++ pd_array),
          10 :: tl))) := by
      by_cases rm : pd.pd_array.length < maxCount
      · obtain ⟨pd', isPut, isArray, isCapacity⟩ :=
          dictionary_room sortedFront wellformed.1 isRounded rm
        have len : pd'.pd_array.length = pd.pd_array.length + 1 := by
          rw [isArray, length_append, length_singleton]
        have onward := reads_entries pd_array wellformed.2.2 depth tl pd' stack
          (by rw [isArray]; exact sorted) (by rw [len]; exact isCapacity)
          (by rw [len]; exact rm)
        rw [len, isArray] at onward
        have once : orNull (propDictionaryInternalizeBody pd' (10 :: (externalizeEntries (depth + 1)
            pd_array ++ closing depth (chars "dict") tl))) = propDictionaryInternalizeBody pd'
              (10 :: (externalizeEntries (depth + 1) pd_array ++
                closing depth (chars "dict") tl)) := orNull_orNull _
        rw [isPut, scan_ok_bind, once]
        exact onward
      · have isMax := le_antisymm below (Nat.le_of_not_lt rm)
        refine ⟨fun isGood => absurd isGood.1 (by omega), fun _ => fails_smashed ?_⟩
        rw [dictionary_smashed sortedFront wellformed.1 isRounded isMax]
        rfl
    have outcome := dictionary_entry wellformed.1 reads later
    rw [externalizeEntries, append_assoc, append_assoc, key_text, StorableEntries,
      length_cons]
    exact outcome.of_iff (by rw [add_assoc, add_comm 1]; exact and_left_comm)

end

end Trees

end NetBSD.Libprop
