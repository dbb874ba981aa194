import NetBSD.Libprop.Roundtrip

/-!
Owns the round trip of a property list: written, read back and compared.
-/

namespace NetBSD.Libprop

variable {errno : Bool}

section Equals

/-- What `prop_object_equals` does when two objects are equal. -/
def afterEquals (steps : Nat) : List EqualsFrame → Option Bool
  | [] => some true
  | frame :: stack => equalsLoop steps frame stack

theorem equalsLoop_true {fr : EqualsFrame}
    (isTrue : potEquals fr.idx fr.obj1 fr.obj2 = .equalsTrue) (steps : Nat)
    (stack : List EqualsFrame) : equalsLoop (steps + 1) fr stack = afterEquals steps stack := by
  rw [equalsLoop.eq_def]
  simp only [isTrue]
  cases stack with
  | nil => rfl
  | cons fr stack => rfl

theorem equalsLoop_recurse {fr : EqualsFrame} {obj1 obj2 : PropObject}
    (isRecurse : potEquals fr.idx fr.obj1 fr.obj2 = .equalsRecurse obj1 obj2) (steps : Nat)
    (stack : List EqualsFrame) : equalsLoop (steps + 1) fr stack =
      equalsLoop steps ⟨obj1, obj2, 0⟩ ({ fr with idx := fr.idx + 1 } :: stack) := by
  rw [equalsLoop.eq_def]
  simp only [isRecurse]

theorem heads {α : Type} {list back : List α} {idx : Nat} (isBack : list.drop idx = back) :
    list[idx]? = back.head? ∧ list.drop (idx + 1) = back.tail := by
  rw [← isBack, List.head?_drop, List.tail_drop]
  exact ⟨rfl, rfl⟩

theorem potEquals_array {array1 array2 back1 back2 : List PropObject} {idx : Nat}
    (isLong : array1.length = array2.length) (isBack1 : array1.drop idx = back1)
    (isBack2 : array2.drop idx = back2) : potEquals idx (.array array1) (.array array2) =
      match back1.head?, back2.head? with
      | some obj1, some obj2 => .equalsRecurse obj1 obj2
      | _, _ => .equalsTrue := by
  rw [potEquals, if_neg (not_not_intro isLong), (heads isBack1).1, (heads isBack2).1]
  all_goals rfl

theorem potEquals_dictionary {dict1 dict2 back1 back2 : List (Entry PropObject)} {idx : Nat}
    (isLong : dict1.length = dict2.length) (isBack1 : dict1.drop idx = back1)
    (isBack2 : dict2.drop idx = back2) : potEquals idx (.dictionary dict1) (.dictionary dict2) =
      match back1.head?, back2.head? with
      | some pde1, some pde2 =>
        if pde1.pde_key = pde2.pde_key then .equalsRecurse pde1.pde_objref pde2.pde_objref
        else .equalsFalse
      | _, _ => .equalsTrue := by
  rw [potEquals, if_neg (not_not_intro isLong), (heads isBack1).1, (heads isBack2).1]
  all_goals rfl

theorem propNumberEquals_self (v : Number) : propNumberEquals v v = true := by
  cases v with
  | signed | unsigned => exact decide_eq_true rfl

theorem ofBool_true {same : Bool} (isTrue : same = true) : EqualsRv.ofBool same = .equalsTrue := by
  rw [isTrue]
  rfl

mutual

theorem equals_object : (po : PropObject) → ∃ few, ∀ steps stack,
    equalsLoop (steps + few) ⟨po, po, 0⟩ stack = afterEquals steps stack
  | .array pa_array => equals_items pa_array pa_array 0 rfl
  | .dictionary pd_array => equals_entries pd_array pd_array 0 rfl
  | .string _ => ⟨1, equalsLoop_true (ofBool_true (decide_eq_true rfl))⟩
  | .data _ => ⟨1, equalsLoop_true (ofBool_true (decide_eq_true rfl))⟩
  | .number value => ⟨1, equalsLoop_true (ofBool_true (propNumberEquals_self value))⟩
  | .bool _ => ⟨1, equalsLoop_true (ofBool_true (decide_eq_true rfl))⟩

theorem equals_items (pa_array : List PropObject) : (back : List PropObject) → ∀ idx,
    pa_array.drop idx = back → ∃ few, ∀ steps stack,
    equalsLoop (steps + few) ⟨.array pa_array, .array pa_array, idx⟩ stack = afterEquals steps stack
  | [], _, isBack => ⟨1, equalsLoop_true (potEquals_array rfl isBack isBack)⟩
  | po :: back, idx, isBack => by
    obtain ⟨inner, isInner⟩ := equals_object po
    obtain ⟨later, late⟩ := equals_items pa_array back (idx + 1) (heads isBack).2
    refine ⟨later + inner + 1, fun steps stack => ?_⟩
    rw [← add_assoc, ← add_assoc, equalsLoop_recurse (potEquals_array rfl isBack isBack),
      isInner]
    exact late steps stack

theorem equals_entries (pd_array : List (Entry PropObject)) : (back : List (Entry PropObject)) →
    ∀ idx, pd_array.drop idx = back → ∃ few, ∀ steps stack,
    equalsLoop (steps + few) ⟨.dictionary pd_array, .dictionary pd_array, idx⟩ stack =
      afterEquals steps stack
  | [], _, isBack => ⟨1, equalsLoop_true (potEquals_dictionary rfl isBack isBack)⟩
  | ⟨pdk, po⟩ :: back, idx, isBack => by
    obtain ⟨inner, isInner⟩ := equals_object po
    obtain ⟨later, late⟩ := equals_entries pd_array back (idx + 1) (heads isBack).2
    refine ⟨later + inner + 1, fun steps stack => ?_⟩
    have next' := (potEquals_dictionary rfl isBack isBack).trans (if_pos (rfl : pdk = pdk))
    rw [← add_assoc, ← add_assoc, equalsLoop_recurse next', isInner]
    exact late steps stack

end

theorem propObjectEquals_self (po : PropObject) : ∃ steps, propObjectEquals steps po po = some true := by
  obtain ⟨few, isEqual⟩ := equals_object po
  exact ⟨0 + few, isEqual 0 []⟩

end Equals

section Document

theorem contextAlloc_header (body : Text) :
    contextAlloc (plistXmlHeader ++ less :: (chars "plist version=\"1.0\"" ++ body)) =
      .ok (less :: (chars "plist version=\"1.0\"" ++ body)) := by
  unfold contextAlloc
  obtain ⟨few, isSteps⟩ : ∃ few,
      (plistXmlHeader ++ less :: (chars "plist version=\"1.0\"" ++ body)).length + 1 = few + 3 := by
    refine ⟨(plistXmlHeader ++ less :: (chars "plist version=\"1.0\"" ++ body)).length - 2, ?_⟩
    simp only [List.length_append, List.length_cons]
    have : 4 < (chars "plist version=\"1.0\"").length := by decide
    omega
  rw [isSteps]
  rfl

/-- The attribute of the `plist` tag that is written. -/
def versionAttr (behind : Text) : TagAttr :=
  ⟨chars "version", chars "1.0" ++ quote :: greater :: behind, 3⟩

theorem plist_tag (tail : Text) :
    TagAt (less :: (chars "plist" ++ (chars " version=\"1.0\"" ++ greater :: tail)))
      ⟨chars "plist", some (versionAttr tail), false, .tagStart⟩ tail :=
  .opening (fun isBang => by cases isBang) (fun isSlash => by cases isSlash)
    (@TagTail.valued .tagStart (chars "plist") [] (chars "version") (chars "1.0") tail 32 equals
      (by decide) (by decide) (by decide) (by decide) (by decide) (by decide) (by decide))

theorem document_text (root : PropObject) :
    propExternalize root = plistXmlHeader ++ less :: (chars "plist" ++
      (chars " version=\"1.0\"" ++ greater :: 10 ::
        (externalize 0 root ++ externalizeEndTag (chars "plist")))) := by
  rfl

/-- The parser over a text that is written: it comes to the loop with the tag of the root. -/
structure Opens (errno : Bool) (root : PropObject) (master : Text) (tag : Tag) (mid : Text) :
    Prop where
  isContext : ∃ cp plist body, contextAlloc (propExternalize root) = .ok cp ∧
    findTag cp (some (chars "plist")) .tagStart = .ok (plist, body) ∧
    plist.poic_is_empty_element = false ∧
    plist.poic_tagattr.any (fun attr => attr.poic_tagattr ≠ chars "version") = false ∧
    findTag body (some master) .tagStart = .ok (tag, mid)
  outcome : Outcome errno (byTagStep errno tag mid []) (Storable root)
    (settle [] (some (root, 10 :: externalizeEndTag (chars "plist"))))

theorem opens {root : PropObject} {master : Text} (isRoot : masterTag root = some master)
    (wellformed : Wellformed root) : ∃ tag mid, Opens errno root master tag mid := by
  obtain ⟨plc, tag, mid, reads⟩ :=
    @reads_object errno root wellformed 0 (externalizeEndTag (chars "plist"))
  have isBody := reads.isPlace
  have isPlist := plist_tag (10 :: (externalize 0 root ++ externalizeEndTag (chars "plist")))
  refine ⟨tag, mid, ⟨_, _, _, ?_, findTag_start.mpr ⟨_, .none _, isPlist, rfl, ?_⟩, rfl, rfl,
    findTag_start.mpr ⟨plc, ?_, reads.tagAt, reads.isStart, ?_⟩⟩, reads.outcome []⟩
  · rw [document_text]
    exact contextAlloc_header _
  · intro want isWant
    exact Option.some.inj isWant
  · rw [isBody]
    exact blank_tabs True 0 plc
  · intro want isWant
    rw [← Option.some.inj isWant]
    exact reads.isMaster master isRoot

theorem Opens.accepts {root : PropObject} {master : Text} {tag : Tag} {mid : Text}
    (isOpen : Opens errno root master tag mid) (storable : Storable root) :
    propGenericInternalize errno (propExternalize root) master = .ok root := by
  obtain ⟨cp, plist, body, hctx, isPlist, ne, isVersion, isMaster⟩ := isOpen.isContext
  have arrives := (arrives_matched tag mid []).trans (isOpen.outcome.arrives storable)
  have isObject := byTag_iff.mpr arrives
  unfold propGenericInternalize
  rw [hctx, scan_ok_bind, isPlist]
  simp only [scan_ok_bind]
  rw [if_neg (by rw [ne]; decide), if_neg (by rw [isVersion]; decide), isMaster]
  simp only [scan_ok_bind]
  rw [isObject]
  rfl

theorem Opens.refuses {root : PropObject} {master : Text} {tag : Tag} {mid : Text}
    (isOpen : Opens errno root master tag mid) (notStorable : ¬ Storable root) (res : PropObject) :
    propGenericInternalize errno (propExternalize root) master ≠ .ok res := by
  intro isRes
  obtain ⟨cp, plist, body, hctx, isPlist, _, _, isMaster⟩ := isOpen.isContext
  obtain ⟨cp', body', mid', tail, plist', tag', tags, isContext', isPlist', _, isMaster', goes, _⟩ :=
    (accepted isRes).run
  cases hctx.symm.trans isContext'
  cases isPlist.symm.trans isPlist'
  cases isMaster.symm.trans isMaster'
  obtain ⟨got, ⟨failing, fails⟩, reach⟩ :=
    (isOpen.outcome.fails notStorable).behind (arrives_matched tag mid [])
  have ended : Ended got := by
    rcases reach with rfl | rfl
    · trivial
    · trivial
  obtain ⟨_, same⟩ := fails.unique ended goes trivial
  rcases reach with rfl | rfl
  · cases same
  · cases same

/-- A tree of the library is written and comes back, equal to the first, exactly when there is no
empty blob in it and no container with more elements than a capacity can count. -/
theorem plist_roundtrip (errno : Bool) (root : PropObject) (master : Text)
    (isRoot : masterTag root = some master) (wellformed : Wellformed root) :
    (∃ result, propGenericInternalize errno (propExternalize root) master = .ok result ∧
      (∃ steps, propObjectEquals steps root result = some true) ∧ result = root) ↔
        Storable root := by
  obtain ⟨tag, mid, isOpen⟩ := @opens errno root master isRoot wellformed
  constructor
  · rintro ⟨result, isRes, _⟩
    by_contra notStorable
    exact isOpen.refuses notStorable result isRes
  · intro storable
    exact ⟨root, isOpen.accepts storable, propObjectEquals_self root, rfl⟩

/-- A dictionary with a string and an array of one number. -/
def smallTree : PropObject :=
  .dictionary [⟨cString (chars "a"), .string (cString (chars "x<y"))⟩,
    ⟨cString (chars "b"), .array [.number (.signed (-1))]⟩]

theorem wellformed_smallTree : Wellformed smallTree := by
  refine ⟨List.pairwise_pair.mpr ?_, ?_, trivial, ?_, ⟨trivial, trivial⟩, trivial⟩
  · show strcmp (cString (chars "a")).bytes (cString (chars "b")).bytes < 0
    decide
  · decide
  · decide

theorem plist_roundtrip_smallTree :
    ∃ result, propGenericInternalize false (propExternalize smallTree) (chars "dict") = .ok result ∧
      (∃ steps, propObjectEquals steps smallTree result = some true) ∧ result = smallTree :=
  (plist_roundtrip false smallTree (chars "dict") rfl wellformed_smallTree).mpr
    ⟨(by decide), trivial, ⟨(by decide), trivial, trivial⟩, trivial⟩

/-- A dictionary with a blob of size 0. -/
def emptyBlob : PropObject := .dictionary [⟨cString (chars "a"), .data []⟩]

theorem wellformed_emptyBlob : Wellformed emptyBlob := by
  unfold emptyBlob
  simp only [Wellformed, WellformedEntries]
  exact ⟨List.pairwise_singleton _ _, by decide, by decide, trivial⟩

theorem not_storable_emptyBlob : ¬ Storable emptyBlob := fun storable => storable.2.1 rfl

/-- An empty blob is written as an empty element, which is not accepted. -/
theorem plist_roundtrip_emptyBlob :
    propExternalize emptyBlob = plistXmlHeader ++ (chars "<plist version=\"1.0\">\n<dict>\n" ++
      chars "\t<key>a</key>\n\t<data/>\n</dict>\n</plist>\n") ∧
    ∀ result, propGenericInternalize false (propExternalize emptyBlob) (chars "dict") ≠
      .ok result := by
  obtain ⟨tag, mid, isOpen⟩ := @opens false emptyBlob (chars "dict") rfl wellformed_emptyBlob
  exact ⟨congrArg (plistXmlHeader ++ ·) rfl, isOpen.refuses not_storable_emptyBlob⟩

end Document

end NetBSD.Libprop
