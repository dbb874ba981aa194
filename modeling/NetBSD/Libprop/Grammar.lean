import NetBSD.Libprop.ParseSafe

/-!
Owns the runs of the parser's loop as the tags that `match_start` comes to, and what an array and a
dictionary get from an object.
-/

namespace NetBSD.Libprop

open List Option

variable {steps : Nat}

section Runs

variable {errno : Bool}

def afterStep (stack : List Frame) : Step → Scan Settled
  | .finished result => settle stack result
  | .pushed frame tag cp => pure (.matching tag cp (frame :: stack))

variable {tag : Tag}

theorem byTagStep_eq {name : Text} {poi_intern : Tag → Text → Scan Step}
    (ent : TableEntry errno name poi_intern) (hname : tag.poic_tagname = name) (cp : Text)
    (stack : List Frame) :
    byTagStep errno tag cp stack = poi_intern tag cp >>= afterStep stack := by
  unfold byTagStep
  simp only [hname, tableEntry_iff.mpr ent]
  rfl

@[simp] theorem afterStep_none (stack : List Frame) :
    afterStep stack (.finished none) = .ok (.returned none) := by
  induction stack with
  | nil => rfl
  | cons fr stack ih =>
    cases fr with
    | array | dictionary => exact ih

/-- The loop comes from one outcome to another and matches these tags on the way. -/
inductive Goes (errno : Bool) : Scan Settled → List Tag → Scan Settled → Prop where
  | here (outcome : Scan Settled) : Goes errno outcome [] outcome
  | matched {tag : Tag} {cp : Text} {stack : List Frame} {tags : List Tag} {final : Scan Settled}
      (behind : Goes errno (byTagStep errno tag cp stack) tags final) :
      Goes errno (.ok (.matching tag cp stack)) (tag :: tags) final

variable {tags : List Tag}

theorem Goes.trans {fst snd third : Scan Settled} {tags' : List Tag}
    (pre : Goes errno fst tags snd) (back : Goes errno snd tags' third) :
    Goes errno fst (tags ++ tags') third := by
  induction pre with
  | here outcome => exact back
  | matched tail ih => exact .matched (ih back)

def Ended : Scan Settled → Prop
  | .ok (.matching _ _ _) => False
  | _ => True

theorem Goes.unique {outcome fst snd : Scan Settled} {tags' : List Tag}
    (one : Goes errno outcome tags fst) (endedFirst : Ended fst)
    (oth : Goes errno outcome tags' snd) (endedSecond : Ended snd) :
    tags = tags' ∧ fst = snd := by
  induction one generalizing tags' with
  | here outcome =>
    cases oth with
    | here => exact ⟨rfl, rfl⟩
    | matched tail => exact absurd endedFirst id
  | matched tail ih =>
    cases oth with
    | here => exact absurd endedSecond id
    | matched behind' =>
      obtain ⟨rfl, rfl⟩ := ih endedFirst behind'
      exact ⟨rfl, rfl⟩

theorem Goes.of_ended {outcome final : Scan Settled} (ended : Ended outcome)
    (goes : Goes errno outcome tags final) : tags = [] ∧ final = outcome := by
  cases goes with
  | here => exact ⟨rfl, rfl⟩
  | matched tail => exact absurd ended id

variable {stack : List Frame} {cp : Text}

theorem Goes.few {final : Scan Settled}
    (goes : Goes errno (.ok (.matching tag cp stack)) tags final) :
    tags.length ≤ cp.length + 1 := by
  generalize len : cp.length = n
  induction n using Nat.strongRecOn generalizing tag cp stack tags with
  | ind n ih =>
    cases goes with
    | here => exact Nat.zero_le _
    | @matched _ _ _ tags _ tail =>
      have safe := safe_byTagStep errno tag cp stack
      rw [length_cons]
      generalize byTagStep errno tag cp stack = outcome at tail safe
      cases tail with
      | here => exact Nat.succ_le_succ (Nat.zero_le n)
      | @matched tag' cp' stack' tags' _ behind' =>
        have lt : cp'.length < cp.length := safe
        have := ih cp'.length (by omega) (.matched behind') rfl
        omega

variable {result : Option (PropObject × Text)}

theorem goes_of_byTagLoop (isRes : byTagLoop errno steps tag cp stack = .ok result) :
    ∃ tags, Goes errno (.ok (.matching tag cp stack)) tags (.ok (.returned result)) := by
  induction steps generalizing tag cp stack with
  | zero => cases isRes
  | succ steps ih =>
    obtain ⟨done, isSettled, tail⟩ := scan_bind_eq_ok.mp isRes
    cases done with
    | returned result =>
      cases tail
      refine ⟨[tag], .matched ?_⟩
      rw [isSettled]
      exact .here _
    | matching tag' cp' stack' =>
      obtain ⟨tags, goes⟩ := ih tail
      refine ⟨tag :: tags, .matched ?_⟩
      rw [isSettled]
      exact goes

theorem byTagLoop_of_goes
    (goes : Goes errno (.ok (.matching tag cp stack)) tags (.ok (.returned result)))
    (suff : tags.length ≤ steps) : byTagLoop errno steps tag cp stack = .ok result := by
  induction steps generalizing tag cp stack tags with
  | zero =>
    obtain rfl := length_eq_zero_iff.mp (Nat.le_zero.mp suff)
    cases goes
  | succ steps ih =>
    cases goes with
    | @matched _ _ _ tags _ tail =>
      rw [byTagLoop]
      generalize byTagStep errno tag cp stack = outcome at tail
      cases tail with
      | here => rfl
      | matched behind' => exact ih (.matched behind') (Nat.le_of_succ_le_succ suff)

theorem byTag_iff : propObjectInternalizeByTag errno tag cp = .ok result ↔
      ∃ tags, Goes errno (.ok (.matching tag cp [])) tags (.ok (.returned result)) := by
  constructor
  · exact goes_of_byTagLoop
  · rintro ⟨tags, goes⟩
    exact byTagLoop_of_goes goes goes.few

end Runs

section Assign

variable {α : Type} {array : List (Entry α)}

/-- An object for a key of a sorted array, in place of the one it had. -/
def assign : List (Entry α) → CString → α → List (Entry α)
  | [], key, po => [⟨key, po⟩]
  | pde :: array, key, po =>
    if pde.pde_key = key then ⟨key, po⟩ :: array
    else if strcmp key.bytes pde.pde_key.bytes < 0 then ⟨key, po⟩ :: pde :: array
    else pde :: assign array key po

variable {key : CString}

end Assign

/-!
### Elements

The grammar of a property list: the elements of a text by their tags, each closed at its own
level, with the tree that they denote. The contents of a leaf denote what its decoder reads.
-/

section Strings

variable {limit : Nat} {out tl cp : Text}

theorem decodeStringLoop_room {tarindex : Nat}
    (hstr : decodeStringLoop none steps tarindex cp = .ok (out, tl))
    (rm : tarindex + out.length ≤ limit) :
    decodeStringLoop (some limit) steps tarindex cp = .ok (out, tl) := by
  induction steps generalizing tarindex cp out with
  | zero => cases hstr
  | succ steps ih =>
    cases cp with
    | nil => cases hstr
    | cons c cp =>
      rw [decodeStringLoop] at hstr ⊢
      by_cases isLess : c = less
      · rw [if_pos isLess] at hstr ⊢
        exact hstr
      rw [if_neg isLess] at hstr ⊢
      obtain ⟨⟨d, src⟩, isChar, fromChar⟩ := scan_bind_eq_ok.mp hstr
      rw [isChar]
      dsimp only at fromChar
      obtain ⟨⟨tail, last⟩, isTail, result⟩ := scan_bind_eq_ok.mp fromChar
      cases result
      rw [length_cons] at rm
      dsimp only at rm
      simp only [scan_ok_bind, any_some]
      rw [if_neg (by simp only [decide_eq_true_eq]; omega), ih isTail (by omega)]
      rfl

theorem decodeString_room (hstr : decodeString none cp = .ok (out, tl))
    (rm : out.length ≤ limit) : decodeString (some limit) cp = .ok (out, tl) :=
  decodeStringLoop_room hstr (by omega)

end Strings

section Grammar

def EndTag (name : Text) (cp rest : Text) : Prop :=
  ∃ mid tag, Blank False cp mid ∧ TagAt mid tag rest ∧ tag.poic_tagname = name ∧
    tag.poic_tag_type = .tagEnd

/-- A leaf behind its start tag: empty, or up to and with its end tag. -/
inductive Leaf (errno : Bool) (tag : Tag) : Text → PropObject → Text → Prop where
  | emptyString {cp : Text} (isName : tag.poic_tagname = chars "string")
      (isEmpty : tag.poic_is_empty_element = true) :
      Leaf errno tag cp (.string (cString [])) cp
  | string {cp str behind rest : Text} (isName : tag.poic_tagname = chars "string")
      (notEmpty : tag.poic_is_empty_element = false) (noAttr : tag.poic_tagattr = none)
      (body : decodeString none cp = .ok (str, behind)) (close : EndTag (chars "string") behind rest) :
      Leaf errno tag cp (.string (cString str)) rest
  | data {cp behind rest : Text} {bytes : List UInt8} (isName : tag.poic_tagname = chars "data")
      (notEmpty : tag.poic_is_empty_element = false)
      (size : dataLength errno tag cp = .ok bytes.length)
      (body : decodeData (some ((bytes.length + 1) % 18446744073709551616)) cp =
        .ok (bytes, behind))
      (close : EndTag (chars "data") behind rest) : Leaf errno tag cp (.data bytes) rest
  | integer {cp behind rest : Text} {value : Number}
      (isName : tag.poic_tagname = chars "integer")
      (notEmpty : tag.poic_is_empty_element = false) (noAttr : tag.poic_tagattr = none)
      (body : internalizeNumber errno cp = .ok (value, behind))
      (close : EndTag (chars "integer") behind rest) : Leaf errno tag cp (.number value) rest
  | bool {cp : Text} (value : Bool)
      (isName : tag.poic_tagname = if value then chars "true" else chars "false")
      (isEmpty : tag.poic_is_empty_element = true) (noAttr : tag.poic_tagattr = none) :
      Leaf errno tag cp (.bool value) cp

/-- What a part of a text denotes. -/
inductive Part where
  | element (obj : PropObject)
  | items (objs : List PropObject)
  | entries (pairs : List (CString × PropObject))

/-- Pairs in the order of the text as a sorted array; a later object for a key is the one that
stays. -/
def assigned (array : List (Entry PropObject)) (pairs : List (CString × PropObject)) :
    List (Entry PropObject) :=
  pairs.foldl (fun array pair => assign array pair.1 pair.2) array

/-- From one place of a text to another there is an element, or the rest of an array or of a
dictionary with the end tag. Only where it is strict an element has to begin at a start tag. -/
inductive Denotes (errno : Bool) (strict : Prop) : Text → Part → Text → Prop where
  | leaf {cp mid rest : Text} {tag : Tag} {obj : PropObject} (tagAt : TagAt cp tag mid)
      (isStart : strict → tag.poic_tag_type = .tagStart) (body : Leaf errno tag mid obj rest) :
      Denotes errno strict cp (.element obj) rest
  | emptyArray {cp rest : Text} {tag : Tag} (tagAt : TagAt cp tag rest)
      (isStart : strict → tag.poic_tag_type = .tagStart)
      (isName : tag.poic_tagname = chars "array")
      (isEmpty : tag.poic_is_empty_element = true) (noAttr : tag.poic_tagattr = none) :
      Denotes errno strict cp (.element (.array [])) rest
  | array {cp mid rest : Text} {tag : Tag} {objs : List PropObject} (tagAt : TagAt cp tag mid)
      (isStart : strict → tag.poic_tag_type = .tagStart)
      (isName : tag.poic_tagname = chars "array")
      (notEmpty : tag.poic_is_empty_element = false) (noAttr : tag.poic_tagattr = none)
      (items : Denotes errno strict mid (.items objs) rest) :
      Denotes errno strict cp (.element (.array objs)) rest
  | endArray {cp mid rest : Text} {tag : Tag} (blank : Blank True cp mid)
      (tagAt : TagAt mid tag rest) (isName : tag.poic_tagname = chars "array")
      (isEnd : tag.poic_tag_type = .tagEnd) : Denotes errno strict cp (.items []) rest
  | item {cp mid next rest : Text} {obj : PropObject} {objs : List PropObject}
      (blank : Blank True cp mid) (head : Denotes errno strict mid (.element obj) next)
      (tail : Denotes errno strict next (.items objs) rest) :
      Denotes errno strict cp (.items (obj :: objs)) rest
  | emptyDict {cp rest : Text} {tag : Tag} (tagAt : TagAt cp tag rest)
      (isStart : strict → tag.poic_tag_type = .tagStart)
      (isName : tag.poic_tagname = chars "dict")
      (isEmpty : tag.poic_is_empty_element = true) (noAttr : tag.poic_tagattr = none) :
      Denotes errno strict cp (.element (.dictionary [])) rest
  | dict {cp mid rest : Text} {tag : Tag} {pairs : List (CString × PropObject)}
      (tagAt : TagAt cp tag mid) (isStart : strict → tag.poic_tag_type = .tagStart)
      (isName : tag.poic_tagname = chars "dict") (notEmpty : tag.poic_is_empty_element = false)
      (noAttr : tag.poic_tagattr = none)
      (entries : Denotes errno strict mid (.entries pairs) rest) :
      Denotes errno strict cp (.element (.dictionary (assigned [] pairs))) rest
  | endDict {cp mid rest : Text} {tag : Tag} (blank : Blank True cp mid)
      (tagAt : TagAt mid tag rest) (isName : tag.poic_tagname = chars "dict")
      (isEnd : tag.poic_tag_type = .tagEnd) : Denotes errno strict cp (.entries []) rest
  | entry {cp keyAt body key behind next valueAt after rest : Text} {tag : Tag} {obj : PropObject}
      {pairs : List (CString × PropObject)} (blank : Blank True cp keyAt)
      (tagAt : TagAt keyAt tag body) (isStart : tag.poic_tag_type = .tagStart)
      (isName : tag.poic_tagname = chars "key") (notEmpty : tag.poic_is_empty_element = false)
      (isKey : decodeString (some pdkMaxkey) body = .ok (key, behind))
      (close : EndTag (chars "key") behind next) (blankValue : Blank True next valueAt)
      (value : Denotes errno strict valueAt (.element obj) after)
      (tail : Denotes errno strict after (.entries pairs) rest) :
      Denotes errno strict cp (.entries ((cString key, obj) :: pairs)) rest

end Grammar

section Tags

variable {cp mid tl : Text} {tag : Tag} {type : TagType} {want : Option Text}

theorem Blank.imp {comments comments' : Prop} (weaker : comments → comments')
    (blank : Blank comments cp tl) : Blank comments' cp tl := by
  induction blank with
  | none cp => exact .none cp
  | space isSpace tail ih => exact .space isSpace ih
  | comment may body tail ih =>
    exact .comment (weaker may) body ih

theorem findTag_end {name : Text} :
    (∃ tag, findTag cp (some name) .tagEnd = .ok (tag, tl)) ↔ EndTag name cp tl := by
  constructor
  · rintro ⟨tag, isTag⟩
    obtain ⟨mid, blank, tagAt, hname, isType⟩ := findTag_iff.mp isTag
    refine ⟨mid, tag, blank.imp fun ne => ne rfl, tagAt, (hname name rfl).symm, ?_⟩
    rcases isType with isEither | isEnd
    · cases isEither
    · exact isEnd.symm
  rintro ⟨mid, tag, blank, tagAt, hname, isEnd⟩
  refine ⟨tag, findTag_iff.mpr ⟨mid, blank.imp fun never => never.elim, tagAt, ?_, ?_⟩⟩
  · rintro other oth
    cases oth
    exact hname.symm
  · exact .inr isEnd.symm

theorem findTag_start {name : Option Text} : findTag cp name .tagStart = .ok (tag, tl) ↔
      ∃ mid, Blank True cp mid ∧ TagAt mid tag tl ∧ tag.poic_tag_type = .tagStart ∧
        ∀ want, name = some want → tag.poic_tagname = want := by
  rw [findTag_iff]
  constructor
  · rintro ⟨mid, blank, tagAt, hname, isType⟩
    refine ⟨mid, blank.imp fun _ => trivial, tagAt, ?_, fun want isWant => (hname want isWant).symm⟩
    rcases isType with isEither | beg
    · cases isEither
    · exact beg.symm
  · rintro ⟨mid, blank, tagAt, beg, hname⟩
    refine ⟨mid, blank.imp fun _ => by decide, tagAt, ?_, .inr beg.symm⟩
    exact fun want isWant => (hname want isWant).symm

theorem findTag_either :
    findTag cp none .tagEither = .ok (tag, tl) ↔ ∃ mid, Blank True cp mid ∧ TagAt mid tag tl := by
  rw [findTag_iff]
  constructor
  · rintro ⟨mid, blank, tagAt, _⟩
    exact ⟨mid, blank.imp fun _ => trivial, tagAt⟩
  · rintro ⟨mid, blank, tagAt⟩
    exact ⟨mid, blank.imp fun _ => by decide, tagAt, fun want isWant => (by cases isWant), .inl rfl⟩

theorem TagAt.unique {tag' : Tag} {rest' : Text} (one : TagAt cp tag tl)
    (oth : TagAt cp tag' rest') : tag = tag' ∧ tl = rest' := by
  have isTag := findTag_either.mpr ⟨cp, .none cp, one⟩
  have isTag' := findTag_either.mpr ⟨cp, .none cp, oth⟩
  cases isTag.symm.trans isTag'
  exact ⟨rfl, rfl⟩

end Tags

end NetBSD.Libprop
