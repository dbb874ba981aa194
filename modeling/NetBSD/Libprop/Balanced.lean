import NetBSD.Libprop.Grammar

/-!
Owns the parser against the grammar: what it finds is an element of the grammar, but an array takes
an item at any end tag but its own. Such an item has two end tags too many, so the tags of the text
are enough to say that there is none.
-/

namespace NetBSD.Libprop

open List Option

variable {errno : Bool}

section Leaves

variable {tag : Tag} {cp tl : Text} {obj : PropObject}

theorem leaf_of_ok {scan : Scan (PropObject × Text)} (isLeaf : scan = .ok (obj, tl)) :
    leaf scan = .ok (.finished (some (obj, tl))) := by
  rw [isLeaf]
  rfl

/-- A leaf element is read by the table's function for its name. -/
theorem Leaf.internalize (leaf : Leaf errno tag cp obj tl) :
    ∃ poi_intern, TableEntry errno tag.poic_tagname poi_intern ∧
      poi_intern tag cp = .ok (.finished (some (obj, tl))) := by
  cases leaf with
  | emptyString name empty =>
    rw [name]
    refine ⟨_, .string, leaf_of_ok ?_⟩
    unfold propStringInternalize
    rw [if_pos empty]
    rfl
  | string name notEmpty noAttr body close =>
    obtain ⟨ctag, isClose⟩ := findTag_end.mpr close
    rw [name]
    refine ⟨_, .string, leaf_of_ok ?_⟩
    unfold propStringInternalize
    rw [if_neg (by simp [notEmpty]), if_neg (by simp [noAttr]), body]
    simp only [scan_ok_bind]
    rw [decodeString_room body (le_refl _)]
    simp only [scan_ok_bind]
    rw [if_neg fun ne => ne rfl, isClose]
    rfl
  | data name notEmpty size body close =>
    obtain ⟨ctag, isClose⟩ := findTag_end.mpr close
    rw [name]
    refine ⟨_, .data, leaf_of_ok ?_⟩
    unfold propDataInternalize
    rw [if_neg (by simp [notEmpty]), size]
    simp only [scan_ok_bind, body]
    rw [if_neg fun ne => ne rfl, isClose]
    rfl
  | integer name notEmpty noAttr body close =>
    obtain ⟨ctag, isClose⟩ := findTag_end.mpr close
    rw [name]
    refine ⟨_, .integer, leaf_of_ok ?_⟩
    unfold propNumberInternalize
    rw [if_neg (by simp [notEmpty, noAttr]), body]
    simp only [scan_ok_bind]
    rw [isClose]
    rfl
  | bool v name empty noAttr =>
    have ent : tag.poic_tagname = chars "true" ∨ tag.poic_tagname = chars "false" := by
      cases v with
      | true => exact .inl name
      | false => exact .inr name
    refine ⟨_, .bool ent, leaf_of_ok ?_⟩
    unfold propBoolInternalize
    rw [if_neg (by simp [empty, noAttr]), name]
    cases v with
    | true => rfl
    | false => rfl

theorem array_step {tag : Tag} (name : tag.poic_tagname = chars "array")
    (noAttr : tag.poic_tagattr = none) (cp : Text) (stack : List Frame) :
    byTagStep errno tag cp stack =
      if tag.poic_is_empty_element then settle stack (some (.array [], cp))
      else propArrayInternalizeBody ⟨[], 0⟩ cp >>= afterStep stack := by
  rw [byTagStep_eq .array name]
  unfold propArrayInternalize
  rw [if_neg (by simp [noAttr])]
  split <;> rfl

theorem dict_step {tag : Tag} (name : tag.poic_tagname = chars "dict")
    (noAttr : tag.poic_tagattr = none) (cp : Text) (stack : List Frame) :
    byTagStep errno tag cp stack =
      if tag.poic_is_empty_element then settle stack (some (.dictionary [], cp))
      else propDictionaryInternalizeBody (propDictionaryCreate 0) cp >>= afterStep stack := by
  rw [byTagStep_eq .dict name]
  unfold propDictionaryInternalize
  rw [if_neg (by simp [noAttr])]
  split <;> rfl

end Leaves

variable {tags : List Tag}

section Sound

variable {α : Type} {stack : List Frame} {tags : List Tag} {final : PropObject × Text}

/-- The run comes to an object. -/
abbrev Yields (errno : Bool) (outcome : Scan Settled) (tags : List Tag)
    (final : PropObject × Text) : Prop :=
  Goes errno outcome tags (.ok (.returned (some final)))

theorem Yields.bind {scan : Scan α} {f : α → Scan Settled}
    (yields : Yields errno (scan >>= f) tags final) :
    ∃ a, scan = .ok a ∧ Yields errno (f a) tags final := by
  cases scan with
  | ok a => exact ⟨a, rfl, yields⟩
  | error stop =>
    have ended : Ended (.error stop) := trivial
    cases (Goes.of_ended ended yields).2

theorem orNull_orNull (scan : Scan Step) : orNull (orNull scan) = orNull scan := by
  cases scan with
  | ok step => rfl
  | error stop => cases stop <;> rfl

/-- A container whose start tag has an attribute is not accepted. -/
theorem Yields.noAttr {α : Type} {attr : Option α} {scan : Scan Step}
    (yields : Yields errno ((if attr.isSome then pure (.finished none) else scan) >>=
      afterStep stack) tags final) :
    attr = none ∧ Yields errno (scan >>= afterStep stack) tags final := by
  cases attr with
  | none => exact ⟨rfl, yields⟩
  | some _ =>
    simp only [isSome_some, if_true, scan_pure, scan_ok_bind, afterStep_none] at yields
    have ended : Ended (.ok (.returned none)) := trivial
    cases (Goes.of_ended ended yields).2

end Sound

section Counts

/-- From one place of a text to another these tags come, with comments and other characters between
them. -/
inductive Tagged : Text → List Tag → Text → Prop where
  | done (cp : Text) : Tagged cp [] cp
  | other {c : UInt8} {cp rest : Text} {tags : List Tag} (notLess : c ≠ less)
      (behind : Tagged cp tags rest) : Tagged (c :: cp) tags rest
  | comment {cp mid rest : Text} {tags : List Tag} (body : Closed cp mid)
      (behind : Tagged mid tags rest) : Tagged (chars "<!--" ++ cp) tags rest
  | tag {cp mid rest : Text} {tag : Tag} {tags : List Tag} (tagAt : TagAt cp tag mid)
      (behind : Tagged mid tags rest) : Tagged cp (tag :: tags) rest

/-- The start tags, without those of empty elements. -/
def starts (tags : List Tag) : Nat :=
  tags.countP fun tag => tag.poic_tag_type = .tagStart ∧ tag.poic_is_empty_element = false

def ends (tags : List Tag) : Nat := tags.countP fun tag => tag.poic_tag_type = .tagEnd

def EndsPlist (tag : Tag) : Prop := tag.poic_tagname = chars "plist" ∧ tag.poic_tag_type = .tagEnd

instance decidableEndsPlist : DecidablePred EndsPlist :=
  fun _ => inferInstanceAs (Decidable (_ ∧ _))

/-- These tags come in front of the first `</plist>`. -/
def InFront (cp : Text) (tags : List Tag) (rest : Text) : Prop :=
  ∃ mid close, Tagged cp tags mid ∧ (∀ tag ∈ tags, ¬ EndsPlist tag) ∧ TagAt mid close rest ∧
    EndsPlist close

variable {cp mid tl : Text} {tag : Tag} {tags tags' : List Tag}

theorem Tagged.trans (pre : Tagged cp tags mid) (back : Tagged mid tags' tl) :
    Tagged cp (tags ++ tags') tl := by
  induction pre with
  | done cp => exact back
  | other ge tail ih => exact .other ge (ih back)
  | comment body tail ih => exact .comment body (ih back)
  | tag tagAt tail ih => exact .tag tagAt (ih back)

theorem Blank.tagged {comments : Prop} (blank : Blank comments cp tl) : Tagged cp [] tl := by
  induction blank with
  | none cp => exact .done cp
  | space isSpace tail ih =>
    exact .other (fun isLess => absurd (isLess ▸ isSpace) (by decide)) ih
  | comment may body tail ih => exact .comment body ih

theorem Skips.tagged (skips : Skips cp tl) : Tagged cp [] tl := by
  obtain ⟨pre, oths, rfl⟩ := skips
  induction pre with
  | nil => exact .done tl
  | cons c pre ih =>
    obtain ⟨ge, oths⟩ := forall_mem_cons.mp oths
    exact .other ge (ih oths)

theorem EndTag.tagged {name : Text} (isEnd : EndTag name cp tl) :
    ∃ close, Tagged cp [close] tl ∧ close.poic_tagname = name ∧
      close.poic_tag_type = .tagEnd := by
  obtain ⟨mid, close, blank, tagAt, hname, isType⟩ := isEnd
  exact ⟨close, blank.tagged.trans (.tag tagAt (.done tl)), hname, isType⟩

/-- A tag begins with `<`, and is no comment. -/
theorem TagAt.head (tagAt : TagAt cp tag tl) : cp.head? = some less ∧ cp[1]? ≠ some bang := by
  cases tagAt with
  | opening notBang notSlash tail =>
    refine ⟨rfl, ?_⟩
    rw [getElem?_cons_succ, ← head?_eq_getElem?]
    exact notBang
  | closing tail => exact ⟨rfl, (by decide : some slash ≠ some bang)⟩

/-- The tags in front of a text are determined by it. -/
theorem InFront.unique {rest' : Text} (one : InFront cp tags tl)
    (oth : InFront cp tags' rest') : tags = tags' ∧ tl = rest' := by
  obtain ⟨mid, close, tagged, names, closeAt, isClose⟩ := one
  obtain ⟨mid', close', tagged', names', closeAt', isClose'⟩ := oth
  induction tagged generalizing tags' with
  | done cp =>
    cases tagged' with
    | done => exact ⟨rfl, (closeAt.unique closeAt').2⟩
    | other ge tail => exact absurd (some.inj closeAt.head.1) ge
    | comment body tail => exact absurd rfl closeAt.head.2
    | tag tagAt tail =>
      obtain ⟨rfl, _⟩ := tagAt.unique closeAt
      exact absurd isClose (names' _ mem_cons_self)
  | other ge tail ih =>
    cases tagged' with
    | done => exact absurd (some.inj closeAt'.head.1) ge
    | other _ behind' => exact ih names closeAt behind' names'
    | comment body behind' => exact absurd rfl ge
    | tag tagAt behind' => exact absurd (some.inj tagAt.head.1) ge
  | @comment cp mid₁ _ _ body tail ih =>
    generalize isText : chars "<!--" ++ cp = text at tagged'
    cases tagged' with
    | done =>
      rw [← isText] at closeAt'
      exact absurd rfl closeAt'.head.2
    | other ge behind' =>
      cases isText
      exact absurd rfl ge
    | comment body' behind' =>
      obtain rfl := append_cancel_left isText
      cases (skipComment_iff.mpr body).symm.trans (skipComment_iff.mpr body')
      exact ih names closeAt behind' names'
    | tag tagAt behind' =>
      rw [← isText] at tagAt
      exact absurd rfl tagAt.head.2
  | tag tagAt tail ih =>
    obtain ⟨name, names⟩ := forall_mem_cons.mp names
    cases tagged' with
    | done =>
      obtain ⟨rfl, _⟩ := tagAt.unique closeAt'
      exact absurd isClose' name
    | other ge behind' => exact absurd (some.inj tagAt.head.1) ge
    | comment body behind' => exact absurd rfl tagAt.head.2
    | tag tagAt' behind' =>
      obtain ⟨rfl, rfl⟩ := tagAt.unique tagAt'
      obtain ⟨rfl, same⟩ := ih names closeAt behind' (forall_mem_cons.mp names').2
      exact ⟨rfl, same⟩

/-- The end tags that a part has more than start tags: a container has its own. -/
def Part.closers : Part → Nat
  | .element _ => 0
  | .items _ | .entries _ => 1

variable {errno : Bool} {strict : Prop} {part : Part} {obj : PropObject}

/-- A part has at least its share of end tags, and just its share where it is strict. -/
structure Spans (errno : Bool) (strict : Prop) (cp : Text) (part : Part) (rest : Text)
    (tags : List Tag) : Prop where
  tagged : Tagged cp tags rest
  names : ∀ tag ∈ tags, tag.poic_tagname ≠ chars "plist"
  few : starts tags + part.closers ≤ ends tags
  even : strict → starts tags + part.closers = ends tags
  exact : starts tags + part.closers = ends tags → Denotes errno True cp part rest

theorem starts_append (tags tags' : List Tag) :
    starts (tags ++ tags') = starts tags + starts tags' :=
  countP_append

theorem ends_append (tags tags' : List Tag) : ends (tags ++ tags') = ends tags + ends tags' :=
  countP_append

theorem counts_end (isEnd : tag.poic_tag_type = .tagEnd) : starts [tag] = 0 ∧ ends [tag] = 1 := by
  constructor
  · simp [starts, isEnd]
  · simp [ends, isEnd]

theorem even_end (isEnd : tag.poic_tag_type = .tagEnd) : starts [tag] + 1 = ends [tag] := by
  obtain ⟨hn, isOne⟩ := counts_end isEnd
  omega

theorem counts_start (beg : tag.poic_tag_type = .tagStart) :
    starts [tag] = (if tag.poic_is_empty_element then 0 else 1) ∧ ends [tag] = 0 := by
  constructor
  · cases isEmpty : tag.poic_is_empty_element with
    | true | false => simp [starts, beg, isEmpty]
  · simp [ends, beg]

theorem TagAt.kinds (tagAt : TagAt cp tag tl) : tag.poic_tag_type = .tagStart ∨
    tag.poic_tag_type = .tagEnd ∧ tag.poic_is_empty_element = false := by
  cases tagAt with
  | opening notBang notSlash tail => exact .inl tail.poic_tag_type_eq
  | closing tail =>
    refine .inr ⟨tail.poic_tag_type_eq, ?_⟩
    cases tail with
    | plain | valued => rfl
    | emptyElement inName beg => cases beg

theorem Spans.empty (tagAt : TagAt cp tag tl) (emp : tag.poic_is_empty_element = true)
    (name : tag.poic_tagname ≠ chars "plist")
    (den : tag.poic_tag_type = .tagStart → Denotes errno True cp (.element obj) tl) :
    Spans errno strict cp (.element obj) tl [tag] := by
  have beg : tag.poic_tag_type = .tagStart := by
    rcases tagAt.kinds with beg | ⟨_, ne⟩
    · exact beg
    · cases emp.symm.trans ne
  obtain ⟨noStart, noEnd⟩ := counts_start beg
  rw [if_pos emp] at noStart
  have same : starts [tag] + Part.closers (.element obj) = ends [tag] := by rw [noStart, noEnd]; rfl
  exact ⟨.tag tagAt (.done tl), forall_mem_singleton.mpr name, le_of_eq same, fun _ => same,
    fun _ => den beg⟩

/-- An element that begins at an end tag has two end tags too many. -/
theorem Spans.element (tagAt : TagAt cp tag mid) (ne : tag.poic_is_empty_element = false)
    (name : tag.poic_tagname ≠ chars "plist") (tagged : Tagged mid tags tl)
    (names : ∀ tag ∈ tags, tag.poic_tagname ≠ chars "plist") (few : starts tags + 1 ≤ ends tags)
    (even : strict → tag.poic_tag_type = .tagStart ∧ starts tags + 1 = ends tags)
    (exact : tag.poic_tag_type = .tagStart → starts tags + 1 = ends tags →
      Denotes errno True cp (.element obj) tl) :
    Spans errno strict cp (.element obj) tl (tag :: tags) := by
  have names' : ∀ oth ∈ tag :: tags, oth.poic_tagname ≠ chars "plist" :=
    forall_mem_cons.mpr ⟨name, names⟩
  have startsCons := starts_append [tag] tags
  have endsCons := ends_append [tag] tags
  rw [singleton_append] at startsCons endsCons
  rcases tagAt.kinds with beg | ⟨isEnd, _⟩
  · obtain ⟨isOne, hn⟩ := counts_start beg
    rw [if_neg (by simp [ne])] at isOne
    refine ⟨.tag tagAt tagged, names', ?_, fun isStrict => ?_, fun same => exact beg ?_⟩
    · show starts (tag :: tags) + 0 ≤ ends (tag :: tags)
      omega
    · have := (even isStrict).2
      show starts (tag :: tags) + 0 = ends (tag :: tags)
      omega
    · change starts (tag :: tags) + 0 = ends (tag :: tags) at same
      omega
  · obtain ⟨hn, isOne⟩ := counts_end isEnd
    refine ⟨.tag tagAt tagged, names', ?_, fun isStrict => ?_, fun same => absurd same ?_⟩
    · show starts (tag :: tags) + 0 ≤ ends (tag :: tags)
      omega
    · cases isEnd.symm.trans (even isStrict).1
    · show starts (tag :: tags) + 0 ≠ ends (tag :: tags)
      omega

theorem Leaf.tagged (leaf : Leaf errno tag cp obj tl) : tag.poic_tagname ≠ chars "plist" ∧
    (tag.poic_is_empty_element = true ∧ tl = cp ∨
      tag.poic_is_empty_element = false ∧ ∃ close, Tagged cp [close] tl ∧
        close.poic_tagname ≠ chars "plist" ∧ close.poic_tag_type = .tagEnd) := by
  cases leaf with
  | emptyString name emp => exact ⟨by rw [name]; decide, .inl ⟨emp, rfl⟩⟩
  | string name ne noAttr body close =>
    have skips := safe_decodeString none cp
    rw [body] at skips
    obtain ⟨ctag, tagged, closeName, isEnd⟩ := close.tagged
    exact ⟨by rw [name]; decide, .inr ⟨ne, ctag, skips.tagged.trans tagged,
      by rw [closeName]; decide, isEnd⟩⟩
  | @data _ _ bytes name ne size body close =>
    have skips := safe_decodeData (some ((bytes.length + 1) % 18446744073709551616)) cp
    rw [body] at skips
    obtain ⟨ctag, tagged, closeName, isEnd⟩ := close.tagged
    exact ⟨by rw [name]; decide, .inr ⟨ne, ctag, skips.tagged.trans tagged,
      by rw [closeName]; decide, isEnd⟩⟩
  | integer name ne noAttr body close =>
    have skips := safe_internalizeNumber errno cp
    rw [body] at skips
    obtain ⟨ctag, tagged, closeName, isEnd⟩ := close.tagged
    exact ⟨by rw [name]; decide, .inr ⟨ne, ctag, skips.tagged.trans tagged,
      by rw [closeName]; decide, isEnd⟩⟩
  | bool v name emp noAttr =>
    refine ⟨?_, .inl ⟨emp, rfl⟩⟩
    rw [name]
    cases v <;> decide

/-- A denoted element spans balanced tags. -/
theorem Denotes.spans (den : Denotes errno strict cp part tl) :
    ∃ tags, Spans errno strict cp part tl tags := by
  induction den with
  | leaf tagAt beg body =>
    obtain ⟨name, ⟨emp, rfl⟩ | ⟨ne, close, tagged, closeName, isEnd⟩⟩ := body.tagged
    · exact ⟨_, .empty tagAt emp name fun start => .leaf tagAt (fun _ => start) body⟩
    · have same := even_end isEnd
      exact ⟨_, .element tagAt ne name tagged (forall_mem_singleton.mpr closeName)
        (le_of_eq same) (fun isStrict => ⟨beg isStrict, same⟩)
        fun start _ => .leaf tagAt (fun _ => start) body⟩
  | emptyArray tagAt beg hname emp noAttr =>
    exact ⟨_, .empty tagAt emp (by rw [hname]; decide) fun start =>
      .emptyArray tagAt (fun _ => start) hname emp noAttr⟩
  | array tagAt beg hname ne noAttr items ih =>
    obtain ⟨tags, spans⟩ := ih
    exact ⟨_, .element tagAt ne (by rw [hname]; decide) spans.tagged spans.names spans.few
      (fun isStrict => ⟨beg isStrict, spans.even isStrict⟩) fun start same =>
        .array tagAt (fun _ => start) hname ne noAttr (spans.exact same)⟩
  | endArray blank tagAt hname isEnd =>
    have same := even_end isEnd
    exact ⟨_, blank.tagged.trans (.tag tagAt (.done _)),
      forall_mem_singleton.mpr (by rw [hname]; decide), le_of_eq same, fun _ => same,
      fun _ => .endArray blank tagAt hname isEnd⟩
  | @item cp mid next tl obj objs blank head tail ihHead ihTail =>
    obtain ⟨tags, spans⟩ := ihHead
    obtain ⟨tags', spans'⟩ := ihTail
    have few : starts tags + 0 ≤ ends tags := spans.few
    have few' : starts tags' + 1 ≤ ends tags' := spans'.few
    refine ⟨tags ++ tags', blank.tagged.trans (spans.tagged.trans spans'.tagged),
      forall_mem_append.mpr ⟨spans.names, spans'.names⟩, ?_, fun isStrict => ?_, fun same => ?_⟩
    · rw [starts_append, ends_append]
      show _ + 1 ≤ _
      omega
    · have even : starts tags + 0 = ends tags := spans.even isStrict
      have even' : starts tags' + 1 = ends tags' := spans'.even isStrict
      rw [starts_append, ends_append]
      show _ + 1 = _
      omega
    · rw [starts_append, ends_append] at same
      change _ + 1 = _ at same
      exact .item blank (spans.exact (show _ + 0 = _ by omega))
        (spans'.exact (show _ + 1 = _ by omega))
  | emptyDict tagAt beg hname emp noAttr =>
    exact ⟨_, .empty tagAt emp (by rw [hname]; decide) fun start =>
      .emptyDict tagAt (fun _ => start) hname emp noAttr⟩
  | dict tagAt beg hname ne noAttr entries ih =>
    obtain ⟨tags, spans⟩ := ih
    exact ⟨_, .element tagAt ne (by rw [hname]; decide) spans.tagged spans.names spans.few
      (fun isStrict => ⟨beg isStrict, spans.even isStrict⟩) fun start same =>
        .dict tagAt (fun _ => start) hname ne noAttr (spans.exact same)⟩
  | endDict blank tagAt hname isEnd =>
    have same := even_end isEnd
    exact ⟨_, blank.tagged.trans (.tag tagAt (.done _)),
      forall_mem_singleton.mpr (by rw [hname]; decide), le_of_eq same, fun _ => same,
      fun _ => .endDict blank tagAt hname isEnd⟩
  | @entry cp keyAt body key behind next valueAt s' tl tag obj pairs blank tagAt beg hname
      ne isKey close blankValue value tail ihValue ihTail =>
    obtain ⟨tags, spans⟩ := ihValue
    obtain ⟨tags', spans'⟩ := ihTail
    have skips := safe_decodeString (some pdkMaxkey) body
    rw [isKey] at skips
    obtain ⟨ctag, tagged, closeName, isEnd⟩ := close.tagged
    obtain ⟨isOne, hn⟩ := counts_start beg
    rw [if_neg (by simp [ne])] at isOne
    obtain ⟨isNone', isOne'⟩ := counts_end isEnd
    have few : starts tags + 0 ≤ ends tags := spans.few
    have few' : starts tags' + 1 ≤ ends tags' := spans'.few
    have all : Tagged cp ([tag] ++ [ctag] ++ tags ++ tags') tl :=
      (((blank.tagged.trans (.tag tagAt skips.tagged)).trans tagged).trans
        (blankValue.tagged.trans spans.tagged)).trans spans'.tagged
    refine ⟨_, all, ?_, ?_, fun isStrict => ?_, fun same => ?_⟩
    · simp only [forall_mem_append, forall_mem_singleton, hname, closeName]
      exact ⟨⟨by decide, spans.names⟩, spans'.names⟩
    · simp only [starts_append, ends_append]
      show _ + 1 ≤ _
      omega
    · have even : starts tags + 0 = ends tags := spans.even isStrict
      have even' : starts tags' + 1 = ends tags' := spans'.even isStrict
      simp only [starts_append, ends_append]
      show _ + 1 = _
      omega
    · simp only [starts_append, ends_append] at same
      change _ + 1 = _ at same
      exact .entry blank tagAt beg hname ne isKey close blankValue
        (spans.exact (show _ + 0 = _ by omega)) (spans'.exact (show _ + 1 = _ by omega))

end Counts

/-!
### The two entries

The balance of the documents that the two entries of the parser accept.
-/

variable {xml master_tag : Text} {obj : PropObject}

structure Accepted (errno : Bool) (xml master_tag : Text) (obj : PropObject) : Prop where
  run : ∃ cp body mid behind : Text, ∃ plist tag : Tag, ∃ tags : List Tag,
    contextAlloc xml = .ok cp ∧ findTag cp (some (chars "plist")) .tagStart = .ok (plist, body) ∧
    plist.poic_is_empty_element = false ∧
    findTag body (some master_tag) .tagStart = .ok (tag, mid) ∧
    Yields errno (.ok (.matching tag mid [])) tags (obj, behind) ∧
    ∃ last, findTag behind (some (chars "plist")) .tagEnd = .ok last

theorem accepted (isObject : propGenericInternalize errno xml master_tag = .ok obj) :
    Accepted errno xml master_tag obj := by
  obtain ⟨cp, hctx, fromContext⟩ := scan_bind_eq_ok.mp isObject
  obtain ⟨⟨plist, body⟩, isPlist, fromPlist⟩ := scan_bind_eq_ok.mp fromContext
  dsimp only at fromPlist
  split at fromPlist
  · cases fromPlist
  rename_i ne
  split at fromPlist
  · cases fromPlist
  obtain ⟨⟨tag, mid⟩, isMaster, fromMaster⟩ := scan_bind_eq_ok.mp fromPlist
  obtain ⟨res, isRes, fromResult⟩ := scan_bind_eq_ok.mp fromMaster
  cases res with
  | none => cases fromResult
  | some parsed =>
    obtain ⟨last, lst, same⟩ := scan_bind_eq_ok.mp fromResult
    obtain ⟨tags, goes⟩ := byTag_iff.mp isRes
    cases same
    exact ⟨cp, body, mid, parsed.2, plist, tag, tags, hctx, isPlist,
      eq_false_of_ne_true ne, isMaster, goes, last, lst⟩

section Slip

theorem Tagged.read {cp mid tl : Text} {tag : Tag} {tags : List Tag}
    (isTag : findTag cp none .tagEither = .ok (tag, mid)) (tail : Tagged mid tags tl) :
    Tagged cp (tag :: tags) tl := by
  obtain ⟨plc, blank, tagAt⟩ := findTag_either.mp isTag
  exact blank.tagged.trans (.tag tagAt tail)

end Slip

end NetBSD.Libprop
