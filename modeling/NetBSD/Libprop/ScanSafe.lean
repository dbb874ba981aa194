import NetBSD.Libprop.Plist

/-!
Owns the tags of a text: what blank space, comments and tags are as text, and that
`findTag` finds exactly them.
-/

namespace NetBSD.Libprop

open List Nat

section Monad

variable {α β : Type}

@[simp] theorem scan_pure (a : α) : (pure a : Scan α) = .ok a := rfl

@[simp] theorem scan_throw (stop : Stop) : (throw stop : Scan α) = .error stop := rfl

@[simp] theorem scan_ok_bind (a : α) (f : α → Scan β) : (Except.ok a >>= f : Scan β) = f a := rfl

@[simp] theorem scan_error_bind (stop : Stop) (f : α → Scan β) :
    (Except.error stop >>= f : Scan β) = .error stop := rfl

theorem scan_bind_eq_ok {scan : Scan α} {f : α → Scan β} {b : β} :
    (scan >>= f) = .ok b ↔ ∃ a, scan = .ok a ∧ f a = .ok b := by
  cases scan with
  | ok | error => simp

end Monad

section Characters

variable {cp tl word : Text} {c : UInt8}

@[simp] theorem charAt_cons (c : UInt8) (cp : Text) : charAt (c :: cp) 0 = .ok c := rfl

theorem charAt_zero (cp : Text) : charAt cp 0 = .ok (cp.headD 0) := by
  cases cp with
  | nil => rfl
  | cons c cp => rfl

@[simp] theorem advance_cons (c : UInt8) (cp : Text) : advance (c :: cp) = .ok cp := rfl

@[simp] theorem expect_cons (c : UInt8) (cp : Text) : expect c (c :: cp) = .ok cp := by
  simp [expect]

theorem expect_ok (notNul : c ≠ 0) (rst : expect c cp = .ok tl) : cp = c :: tl := by
  unfold expect at rst
  rw [charAt_zero] at rst
  cases cp with
  | nil =>
    simp only [scan_ok_bind] at rst
    rw [if_pos fun same => notNul same.symm] at rst
    cases rst
  | cons d cp =>
    simp only [headD_cons, scan_ok_bind] at rst
    by_cases same : d = c
    · rw [if_neg fun ne => ne same] at rst
      cases rst
      rw [same]
    · rw [if_pos same] at rst
      cases rst

theorem cons_of_headD (hd : cp.headD 0 = c) (notNul : c ≠ 0) : ∃ tail, cp = c :: tail := by
  cases cp with
  | nil => exact absurd hd.symm notNul
  | cons d cp => exact ⟨cp, by rw [← hd]; rfl⟩

@[simp] theorem looksAt_cons (c : UInt8) (cp : Text) (i : Nat) (str : Text) :
    looksAt (c :: cp) (i + 1) str = looksAt cp i str := by
  induction str generalizing i with
  | nil => rfl
  | cons d str ih =>
    rw [looksAt, looksAt, charAt, ih]

theorem looksAt_zero {str : Text} (noNul : ∀ c ∈ str, c ≠ 0) (cp : Text) :
    looksAt cp 0 str = .ok (str.isPrefixOf cp) := by
  induction str generalizing cp with
  | nil => rfl
  | cons d str ih =>
    have notNul := noNul d mem_cons_self
    rw [looksAt, charAt_zero]
    cases cp with
    | nil =>
      simp only [scan_ok_bind]
      rw [if_neg fun same => notNul same.symm]
      rfl
    | cons c cp =>
      simp only [headD_cons, scan_ok_bind, scan_pure, isPrefixOf_cons_cons]
      by_cases same : c = d
      · rw [looksAt_cons, ih (forall_mem_cons.mp noNul).2, same]
        simp
      · have oth : (d == c) = false := beq_false_of_ne fun eq => same eq.symm
        rw [if_neg same, oth, Bool.false_and]

theorem skipSpace_append (spaces : ∀ c ∈ word, propIsspace c = true)
    (ends : ∀ c, tl.head? = some c → propIsspace c = false) : skipSpace (word ++ tl) = tl := by
  unfold skipSpace
  rw [dropWhile_append_of_pos spaces]
  cases tl with
  | nil => rfl
  | cons c tl => rw [dropWhile_cons_of_neg (by rw [ends c rfl]; decide)]

theorem skipSpace_split (cp : Text) : ∃ spaces, cp = spaces ++ skipSpace cp ∧
    (∀ c ∈ spaces, propIsspace c = true) ∧
    ∀ c, (skipSpace cp).head? = some c → propIsspace c = false := by
  refine ⟨cp.takeWhile propIsspace, takeWhile_append_dropWhile.symm, fun c isIn => ?_,
    fun c hd => ?_⟩
  · exact all_eq_true.mp all_takeWhile c isIn
  · have stop := head?_dropWhile_not propIsspace cp
    unfold skipSpace at hd
    rw [hd] at stop
    simpa using stop

theorem scanWord_append {ends : UInt8 → Bool} (lt : ∀ c ∈ word, ends c = false)
    (isEnd : ends c = true) : scanWord ends (word ++ c :: tl) = .ok (word, c :: tl) := by
  induction word with
  | nil =>
    rw [nil_append, scanWord, if_pos isEnd]
    rfl
  | cons d word ih =>
    rw [cons_append, scanWord, if_neg (by simp [lt d mem_cons_self]),
      ih (forall_mem_cons.mp lt).2]
    rfl

theorem scanWord_ok {ends : UInt8 → Bool} {tail : Text}
    (isWord : scanWord ends cp = .ok (word, tail)) :
    ∃ c tl, tail = c :: tl ∧ cp = word ++ c :: tl ∧ ends c = true ∧
      ∀ c ∈ word, ends c = false := by
  induction cp generalizing word with
  | nil => cases isWord
  | cons d cp ih =>
    rw [scanWord] at isWord
    by_cases isEnd : ends d = true
    · rw [if_pos isEnd] at isWord
      cases isWord
      exact ⟨d, cp, rfl, rfl, isEnd, fun _ isIn => absurd isIn not_mem_nil⟩
    rw [if_neg isEnd] at isWord
    obtain ⟨⟨word', behind'⟩, isTail, same⟩ := scan_bind_eq_ok.mp isWord
    cases same
    obtain ⟨c, tl, rfl, rfl, isEndC, lt⟩ := ih isTail
    refine ⟨c, tl, rfl, rfl, isEndC, fun e isIn => ?_⟩
    rcases mem_cons.mp isIn with rfl | isIn
    · exact eq_false_of_ne_true isEnd
    · exact lt e isIn

end Characters

variable {cp : Text}

section Blank

/-- A text up to the first `-->` and behind it. -/
inductive Closed : Text → Text → Prop where
  | here (rest : Text) : Closed (chars "-->" ++ rest) rest
  | there {c : UInt8} {cp rest : Text} (notHere : ¬ chars "-->" <+: c :: cp)
      (behind : Closed cp rest) : Closed (c :: cp) rest

/-- White space, with comments where they are allowed. -/
inductive Blank (comments : Prop) : Text → Text → Prop where
  | none (cp : Text) : Blank comments cp cp
  | space {c : UInt8} {cp rest : Text} (isSpace : propIsspace c = true)
      (behind : Blank comments cp rest) : Blank comments (c :: cp) rest
  | comment {cp mid rest : Text} (allowed : comments) (body : Closed cp mid)
      (behind : Blank comments mid rest) : Blank comments (chars "<!--" ++ cp) rest

theorem skipComment_cons (c : UInt8) (cp : Text) : skipComment (c :: cp) =
    if chars "-->" <+: c :: cp then .ok ((c :: cp).drop 3) else skipComment cp := by
  rw [skipComment, looksAt_zero (by decide)]
  simp only [scan_ok_bind, isPrefixOf_iff_prefix, scan_pure]

theorem skipComment_iff {tl : Text} : skipComment cp = .ok tl ↔ Closed cp tl := by
  constructor
  · intro rst
    induction cp with
    | nil => cases rst
    | cons c cp ih =>
      rw [skipComment_cons] at rst
      by_cases isHere : chars "-->" <+: c :: cp
      · rw [if_pos isHere] at rst
        obtain ⟨tail, aft⟩ := isHere
        cases rst
        rw [← aft]
        exact Closed.here tail
      · rw [if_neg isHere] at rst
        exact Closed.there isHere (ih rst)
  · intro closed
    induction closed with
    | here tl =>
      rfl
    | there notHere tail ih =>
      rw [skipComment_cons, if_neg notHere]
      exact ih

theorem Closed.shorter {tl : Text} (closed : Closed cp tl) : tl.length < cp.length := by
  induction closed with
  | here tl =>
    rw [length_append]
    exact Nat.lt_add_of_pos_left (by decide)
  | there notHere tail ih => exact lt_succ_of_lt ih

end Blank

variable {c : UInt8}

section Tags

inductive TagTail (tagType : TagType) : Text → Tag → Text → Prop where
  | plain {name rest : Text} (inName : ∀ c ∈ name, endsTagname c = false) :
      TagTail tagType (name ++ greater :: rest) ⟨name, none, false, tagType⟩ rest
  | emptyElement {name rest : Text} (inName : ∀ c ∈ name, endsTagname c = false)
      (isStart : tagType = .tagStart) :
      TagTail tagType (name ++ slash :: greater :: rest) ⟨name, none, true, tagType⟩ rest
  | valued {name gap attr value rest : Text} {space sign : UInt8}
      (inName : ∀ c ∈ name, endsTagname c = false) (isSpace : propIsspace space = true)
      (inGap : ∀ c ∈ gap, propIsspace c = true) (inAttr : ∀ c ∈ attr, endsTagattr c = false)
      (isSign : endsTagattr sign = true) (notGap : attr = [] → propIsspace sign = false)
      (inValue : ∀ c ∈ value, decide (c = quote) = false) :
      TagTail tagType
        (name ++ space :: (gap ++ (attr ++ sign :: quote :: (value ++ quote :: greater :: rest))))
        ⟨name, some ⟨attr, value ++ quote :: greater :: rest, value.length⟩, false, tagType⟩ rest

inductive TagAt : Text → Tag → Text → Prop where
  | opening {cp rest : Text} {tag : Tag} (notBang : cp.head? ≠ some bang)
      (notSlash : cp.head? ≠ some slash) (tail : TagTail .tagStart cp tag rest) :
      TagAt (less :: cp) tag rest
  | closing {cp rest : Text} {tag : Tag} (tail : TagTail .tagEnd cp tag rest) :
      TagAt (less :: slash :: cp) tag rest

def Wanted (name : Option Text) (type : TagType) (tag : Tag) : Prop :=
  (∀ want, name = some want → want = tag.poic_tagname) ∧
    (type = .tagEither ∨ type = tag.poic_tag_type)

variable {cp tl : Text} {tag : Tag} {want : Option Text} {tagType : TagType}

theorem TagTail.poic_tag_type_eq (tail : TagTail tagType cp tag tl) :
    tag.poic_tag_type = tagType := by
  cases tail <;> rfl

theorem scanTagattr_ok {attr : TagAttr} (isAttr : scanTagattr cp = .ok (attr, tl)) :
    ∃ gap name sign v, (∀ c ∈ gap, propIsspace c = true) ∧
      (∀ c ∈ name, endsTagattr c = false) ∧ endsTagattr sign = true ∧
      (name = [] → propIsspace sign = false) ∧ (∀ c ∈ v, decide (c = quote) = false) ∧
      cp = gap ++ (name ++ sign :: quote :: (v ++ quote :: greater :: tl)) ∧
      attr = ⟨name, v ++ quote :: greater :: tl, v.length⟩ := by
  obtain ⟨gap, isGap, inGap, notGap⟩ := skipSpace_split cp
  unfold scanTagattr at isAttr
  split at isAttr
  · cases isAttr
  obtain ⟨⟨name, bhd⟩, hname, fromName⟩ := scan_bind_eq_ok.mp isAttr
  obtain ⟨sign, signed, rfl, isSkip, isSign, inName⟩ := scanWord_ok hname
  rw [isSkip] at notGap isGap
  simp only [advance_cons, scan_ok_bind] at fromName
  obtain ⟨val, isVal, fromVal⟩ := scan_bind_eq_ok.mp fromName
  obtain rfl := expect_ok (by decide) isVal
  obtain ⟨⟨v, ended⟩, isValue, fromEnd⟩ := scan_bind_eq_ok.mp fromVal
  obtain ⟨last, tail, rfl, rfl, isQuote, inValue⟩ := scanWord_ok isValue
  obtain rfl : last = quote := of_decide_eq_true isQuote
  simp only [advance_cons, scan_ok_bind] at fromEnd
  obtain ⟨cp, isEnd, lst⟩ := scan_bind_eq_ok.mp fromEnd
  obtain rfl := expect_ok (by decide) isEnd
  cases lst
  refine ⟨gap, name, sign, v, inGap, inName, isSign, ?_, inValue, isGap, rfl⟩
  rintro rfl
  exact notGap sign rfl

theorem scanTagattr_append {gap name v : Text} {sign : UInt8}
    (inGap : ∀ c ∈ gap, propIsspace c = true) (inAttr : ∀ c ∈ name, endsTagattr c = false)
    (isSign : endsTagattr sign = true) (notGap : name = [] → propIsspace sign = false)
    (inValue : ∀ c ∈ v, decide (c = quote) = false) :
    scanTagattr (gap ++ (name ++ sign :: quote :: (v ++ quote :: greater :: tl))) =
      .ok (⟨name, v ++ quote :: greater :: tl, v.length⟩, tl) := by
  have isSkip := @skipSpace_append (name ++ sign :: quote :: (v ++ quote :: greater :: tl)) gap
    inGap (by
      intro c hd
      cases name with
      | nil =>
        obtain rfl := Option.some.inj hd
        exact notGap rfl
      | cons d name =>
        obtain rfl := Option.some.inj hd
        have notEnd := inAttr d mem_cons_self
        exact (Bool.or_eq_false_iff.mp notEnd).1)
  unfold scanTagattr
  rw [if_neg (by simp)]
  dsimp only
  rw [isSkip, scanWord_append inAttr isSign]
  simp only [scan_ok_bind, advance_cons, expect_cons]
  rw [scanWord_append inValue (by decide)]
  rfl

/-- The name scanned is the one wanted. -/
theorem scanTagname_ok (isTag : scanTagname cp want tagType = .ok (tag, tl)) :
    TagTail tagType cp tag tl ∧ ∀ name, want = some name → name = tag.poic_tagname := by
  obtain ⟨⟨name, bhd⟩, hname, fromName⟩ := scan_bind_eq_ok.mp isTag
  obtain ⟨c, tail, rfl, rfl, isEnd, inName⟩ := scanWord_ok hname
  dsimp only at fromName
  split at fromName
  · cases fromName
  rename_i isWanted
  have wanted : ∀ oth, want = some oth → oth = name := by
    rintro oth rfl
    apply Decidable.byContradiction
    intro ne
    exact isWanted (by simpa using ne)
  simp only [charAt_cons, advance_cons, scan_ok_bind] at fromName
  by_cases isSlash : c = slash
  · rw [if_pos isSlash] at fromName
    split at fromName
    · cases fromName
    rename_i beg
    obtain ⟨last, lst, res⟩ := scan_bind_eq_ok.mp fromName
    obtain rfl := expect_ok (by decide) lst
    cases res
    rw [isSlash]
    exact ⟨.emptyElement inName (Decidable.not_not.mp beg), wanted⟩
  rw [if_neg isSlash] at fromName
  by_cases isGreater : c = greater
  · rw [if_pos isGreater] at fromName
    cases fromName
    rw [isGreater]
    exact ⟨.plain inName, wanted⟩
  rw [if_neg isGreater] at fromName
  obtain ⟨⟨attr, last⟩, isAttr, res⟩ := scan_bind_eq_ok.mp fromName
  cases res
  obtain ⟨gap, attrName, sign, v, inGap, inAttr, isSign, notGap, inValue, rfl, rfl⟩ :=
    scanTagattr_ok isAttr
  have isSpace : propIsspace c = true := by
    unfold endsTagname at isEnd
    simpa [isSlash, isGreater] using isEnd
  exact ⟨.valued inName isSpace inGap inAttr isSign notGap inValue, wanted⟩

theorem space_not_slash (isSpace : propIsspace c = true) : c ≠ slash := by
  rintro rfl
  cases isSpace

theorem space_not_greater (isSpace : propIsspace c = true) : c ≠ greater := by
  rintro rfl
  cases isSpace

theorem TagTail.scanTagname (tail : TagTail tagType cp tag tl)
    (wanted : ∀ name, want = some name → name = tag.poic_tagname) :
    scanTagname cp want tagType = .ok (tag, tl) := by
  have isWanted : ¬ (want.any fun t => t ≠ tag.poic_tagname) = true := by
    cases want with
    | none => simp
    | some name => simp [wanted name rfl]
  unfold Libprop.scanTagname
  cases tail with
  | plain inName =>
    rw [scanWord_append inName (by decide)]
    simp only [scan_ok_bind]
    rw [if_neg isWanted]
    rfl
  | emptyElement inName beg =>
    rw [scanWord_append inName (by decide)]
    simp only [scan_ok_bind, charAt_cons, advance_cons]
    rw [if_neg isWanted, if_pos trivial, if_neg (fun ne => ne beg)]
    rfl
  | valued inName isSpace inGap inAttr isSign notGap inValue =>
    rw [scanWord_append inName (by unfold endsTagname; rw [isSpace]; rfl)]
    simp only [scan_ok_bind, charAt_cons, advance_cons]
    rw [if_neg isWanted, if_neg (space_not_slash isSpace), if_neg (space_not_greater isSpace),
      scanTagattr_append inGap inAttr isSign notGap inValue]
    rfl

end Tags

variable {steps : Nat}

section Find

variable {cp mid tl : Text} {tag : Tag} {want : Option Text} {type : TagType}

theorem Blank.trans {comments : Prop} (pre : Blank comments cp mid)
    (back : Blank comments mid tl) : Blank comments cp tl := by
  induction pre with
  | none cp => exact back
  | space isSpace tail ih => exact .space isSpace (ih back)
  | comment may body tail ih =>
    exact .comment may body (ih back)

theorem Blank.of_spaces {comments : Prop} {spaces : Text}
    (isSpace : ∀ c ∈ spaces, propIsspace c = true) : Blank comments (spaces ++ tl) tl := by
  induction spaces with
  | nil => exact .none tl
  | cons c spaces ih =>
    apply Blank.space (isSpace c mem_cons_self)
    exact ih (forall_mem_cons.mp isSpace).2

/-- A tag found stands behind blanks and comments only. -/
theorem findTagLoop_ok (isTag : findTagLoop steps cp want type = .ok (tag, tl)) :
    ∃ mid, Blank (type ≠ .tagEnd) cp mid ∧ TagAt mid tag tl ∧ Wanted want type tag := by
  induction steps generalizing cp with
  | zero => cases isTag
  | succ steps ih =>
    obtain ⟨spaces, isSplit, isSpace, _⟩ := skipSpace_split cp
    rw [findTagLoop] at isTag
    obtain ⟨bhd, isLess, fromLess⟩ := scan_bind_eq_ok.mp isTag
    rw [expect_ok (by decide) isLess] at isSplit
    have pre : Blank (type ≠ .tagEnd) cp (less :: bhd) := by
      rw [isSplit]
      exact Blank.of_spaces isSpace
    rw [charAt_zero] at fromLess
    simp only [scan_ok_bind] at fromLess
    by_cases isBang : bhd.headD 0 = bang
    · obtain ⟨body, rfl⟩ := cons_of_headD isBang (by decide)
      rw [if_pos isBang, looksAt_cons, looksAt_zero (by decide)] at fromLess
      simp only [scan_ok_bind] at fromLess
      split at fromLess
      · cases fromLess
      rename_i isComment
      split at fromLess
      · cases fromLess
      rename_i may
      obtain ⟨s', aft, again⟩ := scan_bind_eq_ok.mp fromLess
      have opens : chars "--" <+: body := by simpa using isComment
      obtain ⟨lt, rfl⟩ := opens
      obtain ⟨mid, back, isTagAt, wanted⟩ := ih again
      have comment := Blank.comment may (skipComment_iff.mp aft) back
      exact ⟨mid, pre.trans comment, isTagAt, wanted⟩
    rw [if_neg isBang] at fromLess
    have notBang : bhd.head? ≠ some bang := fun hd => by
      rw [headD_eq_head?_getD, hd] at isBang
      exact isBang rfl
    by_cases isSlash : bhd.headD 0 = slash
    · obtain ⟨name, rfl⟩ := cons_of_headD isSlash (by decide)
      rw [if_pos isSlash] at fromLess
      split at fromLess
      · cases fromLess
      rename_i notStart
      obtain ⟨tail, same⟩ := scanTagname_ok fromLess
      refine ⟨_, pre, .closing tail, same, ?_⟩
      rw [tail.poic_tag_type_eq]
      cases type with
      | tagStart => exact absurd rfl notStart
      | tagEnd => exact .inr rfl
      | tagEither => exact .inl rfl
    rw [if_neg isSlash] at fromLess
    have notSlash : bhd.head? ≠ some slash := fun hd => by
      rw [headD_eq_head?_getD, hd] at isSlash
      exact isSlash rfl
    split at fromLess
    · cases fromLess
    rename_i notEnd
    obtain ⟨tail, same⟩ := scanTagname_ok fromLess
    refine ⟨_, pre, .opening notBang notSlash tail, same, ?_⟩
    rw [tail.poic_tag_type_eq]
    cases type with
    | tagStart => exact .inr rfl
    | tagEnd => exact absurd rfl notEnd
    | tagEither => exact .inl rfl

theorem findTagLoop_space (isSpace : propIsspace c = true) (steps : Nat) :
    findTagLoop steps (c :: cp) want type = findTagLoop steps cp want type := by
  cases steps with
  | zero => rfl
  | succ steps =>
    rw [findTagLoop, findTagLoop]
    unfold skipSpace
    rw [dropWhile_cons_of_pos isSpace]

theorem skipSpace_less (cp : Text) : skipSpace (less :: cp) = less :: cp := rfl

theorem findTagLoop_comment (may : type ≠ .tagEnd) (body : Closed cp mid) (steps : Nat) :
    findTagLoop (steps + 1) (chars "<!--" ++ cp) want type =
      findTagLoop steps mid want type := by
  rw [show chars "<!--" ++ cp = less :: bang :: (chars "--" ++ cp) from rfl, findTagLoop,
    skipSpace_less]
  simp only [expect_cons, scan_ok_bind]
  rw [if_neg may]
  have aft : skipComment ((bang :: (chars "--" ++ cp)).drop 3) = .ok mid :=
    skipComment_iff.mpr body
  rw [aft]
  rfl

theorem findTagLoop_tag (tagAt : TagAt cp tag tl) (wanted : Wanted want type tag) (steps : Nat) :
    findTagLoop (steps + 1) cp want type = .ok (tag, tl) := by
  rw [findTagLoop]
  cases tagAt with
  | opening notBang notSlash tail =>
    have isType := wanted.2
    rw [tail.poic_tag_type_eq] at isType
    rw [skipSpace_less]
    simp only [expect_cons, scan_ok_bind, charAt_zero]
    rw [if_neg (by
        intro isBang
        obtain ⟨bhd, rfl⟩ := cons_of_headD isBang (by decide)
        exact notBang (congrArg some isBang)),
      if_neg (by
        intro isSlash
        obtain ⟨bhd, rfl⟩ := cons_of_headD isSlash (by decide)
        exact notSlash (congrArg some isSlash)),
      if_neg (by rcases isType with rfl | rfl <;> decide)]
    exact tail.scanTagname wanted.1
  | closing tail =>
    have isType := wanted.2
    rw [tail.poic_tag_type_eq] at isType
    rw [skipSpace_less]
    simp only [expect_cons, scan_ok_bind, charAt_cons]
    rw [if_neg (by decide), if_pos trivial, if_neg (by rcases isType with rfl | rfl <;> decide)]
    exact tail.scanTagname wanted.1

theorem findTagLoop_blank (blank : Blank (type ≠ .tagEnd) cp mid) (tagAt : TagAt mid tag tl)
    (wanted : Wanted want type tag) (suff : cp.length < steps) :
    findTagLoop steps cp want type = .ok (tag, tl) := by
  induction blank generalizing steps with
  | none cp =>
    obtain ⟨steps, rfl⟩ : ∃ few, steps = few + 1 := ⟨steps - 1, by omega⟩
    exact findTagLoop_tag tagAt wanted steps
  | space isSpace tail ih =>
    rw [findTagLoop_space isSpace]
    exact ih tagAt (lt_of_succ_lt suff)
  | comment may body tail ih =>
    obtain ⟨steps, rfl⟩ : ∃ few, steps = few + 1 := ⟨steps - 1, by omega⟩
    rw [findTagLoop_comment may body]
    apply ih tagAt
    have := body.shorter
    rw [length_append] at suff
    omega

theorem findTag_iff : findTag cp want type = .ok (tag, tl) ↔
    ∃ mid, Blank (type ≠ .tagEnd) cp mid ∧ TagAt mid tag tl ∧ Wanted want type tag := by
  constructor
  · exact findTagLoop_ok
  · rintro ⟨mid, blank, tagAt, wanted⟩
    exact findTagLoop_blank blank tagAt wanted (lt_succ_self _)

end Find

/-!
### Every text

The safety of the parser on every text: no character behind the NUL is read, and the bounds
on the steps are never used up, as every tag and every comment moves the cursor.
-/

variable {α β : Type}

/-- A scan that comes to a result of a kind, fails, or is outside an array. -/
def Safe (post : α → Prop) : Scan α → Prop
  | .ok a => post a
  | .error stop => stop = .rejected ∨ stop = .smashed

theorem Safe.bind {post : α → Prop} {post' : β → Prop} {scan : Scan α} {f : α → Scan β}
    (safe : Safe post scan) (next : ∀ a, post a → Safe post' (f a)) : Safe post' (scan >>= f) := by
  cases scan with
  | ok a => exact next a safe
  | error stop => exact safe

theorem Safe.mono {post post' : α → Prop} {scan : Scan α} (safe : Safe post scan)
    (weaker : ∀ a, post a → post' a) : Safe post' scan := by
  cases scan with
  | ok a => exact weaker a safe
  | error stop => exact safe

theorem safe_rejected (post : α → Prop) : Safe post (.error .rejected) := .inl rfl

section Characters

variable {cp : Text}

theorem safe_expect (notNul : c ≠ 0) (cp : Text) :
    Safe (fun tl => cp = c :: tl) (expect c cp) := by
  cases cp with
  | nil =>
    unfold expect
    rw [charAt_zero]
    simp only [scan_ok_bind]
    rw [if_pos fun same => notNul same.symm]
    exact safe_rejected _
  | cons d cp =>
    by_cases same : d = c
    · rw [same, expect_cons]
      exact rfl
    · unfold expect
      simp only [charAt_cons, scan_ok_bind]
      rw [if_pos same]
      exact safe_rejected _

theorem safe_scanWord (ends : UInt8 → Bool) (cp : Text) :
    Safe (fun res => ∃ c tl, res.2 = c :: tl ∧ tl.length < cp.length)
      (scanWord ends cp) := by
  induction cp with
  | nil => exact safe_rejected _
  | cons c cp ih =>
    rw [scanWord]
    split
    · exact ⟨c, cp, rfl, lt_succ_self _⟩
    · apply ih.bind
      rintro ⟨word, tail⟩ ⟨d, tl, aft, lt⟩
      exact ⟨d, tl, aft, lt_succ_of_lt lt⟩

theorem safe_skipComment (cp : Text) :
    Safe (fun tl => tl.length < cp.length) (skipComment cp) := by
  induction cp with
  | nil => exact safe_rejected _
  | cons c cp ih =>
    rw [skipComment_cons]
    split
    · show ((c :: cp).drop 3).length < (c :: cp).length
      rw [length_drop, length_cons]
      omega
    · exact ih.mono fun tl lt => lt_succ_of_lt lt

theorem skipSpace_length (cp : Text) : (skipSpace cp).length ≤ cp.length :=
  (dropWhile_sublist propIsspace).length_le

end Characters

section Tags

theorem safe_scanTagattr (cp : Text) :
    Safe (fun res => res.2.length < cp.length) (scanTagattr cp) := by
  have skip := skipSpace_length cp
  unfold scanTagattr
  split
  · exact safe_rejected _
  apply (safe_scanWord endsTagattr (skipSpace cp)).bind
  rintro ⟨name, bhd⟩ ⟨sign, signed, aft, lt⟩
  obtain rfl : bhd = sign :: signed := aft
  apply (safe_expect (by decide) signed).bind
  rintro val rfl
  rw [length_cons] at lt
  apply (safe_scanWord _ val).bind
  rintro ⟨v, ended⟩ ⟨last, tail, isEnded, ending⟩
  obtain rfl : ended = last :: tail := isEnded
  apply (safe_expect (by decide) tail).bind
  rintro tl rfl
  rw [length_cons] at ending
  show tl.length < cp.length
  omega

theorem safe_scanTagname (cp : Text) (tag : Option Text) (tagType : TagType) :
    Safe (fun res => res.2.length < cp.length) (scanTagname cp tag tagType) := by
  unfold scanTagname
  apply (safe_scanWord endsTagname cp).bind
  rintro ⟨name, bhd⟩ ⟨c, tail, aft, lt⟩
  obtain rfl : bhd = c :: tail := aft
  dsimp only
  split
  · exact safe_rejected _
  simp only [charAt_cons, advance_cons, scan_ok_bind]
  split
  · split
    · exact safe_rejected _
    · apply (safe_expect (by decide) tail).bind
      rintro tl rfl
      exact lt_trans (lt_succ_self _) lt
  · split
    · exact lt
    · apply (safe_scanTagattr tail).bind
      intro res shorterResult
      exact lt_trans shorterResult lt

/-- The search for a tag stays in the text and gets shorter. -/
theorem safe_findTagLoop (tag : Option Text) (type : TagType) (suff : cp.length < steps) :
    Safe (fun res => res.2.length < cp.length) (findTagLoop steps cp tag type) := by
  induction steps generalizing cp with
  | zero => omega
  | succ steps ih =>
    have skip := skipSpace_length cp
    apply (safe_expect (by decide) (skipSpace cp)).bind
    intro tail isSkip
    rw [isSkip, length_cons] at skip
    rw [charAt_zero]
    simp only [scan_ok_bind]
    split
    · rename_i isBang
      obtain ⟨body, rfl⟩ := cons_of_headD isBang (by decide)
      rw [length_cons] at skip
      rw [looksAt_cons, looksAt_zero (by decide)]
      simp only [scan_ok_bind]
      split
      · exact safe_rejected _
      split
      · exact safe_rejected _
      apply (safe_skipComment _).bind
      intro s' lt
      rw [length_drop, length_cons] at lt
      apply (ih (by omega)).mono
      omega
    split
    · rename_i isSlash
      obtain ⟨name, rfl⟩ := cons_of_headD isSlash (by decide)
      rw [length_cons] at skip
      split
      · exact safe_rejected _
      · rw [advance_cons]
        apply (safe_scanTagname name tag .tagEnd).mono
        omega
    · split
      · exact safe_rejected _
      · apply (safe_scanTagname tail tag .tagStart).mono
        omega

theorem safe_findTag (cp : Text) (tag : Option Text) (type : TagType) :
    Safe (fun res => res.2.length < cp.length) (findTag cp tag type) :=
  safe_findTagLoop tag type (lt_succ_self _)

end Tags

section Strings

/-- A scanner has gone over characters other than `<`. -/
def Skips (cp rest : Text) : Prop := ∃ front, (∀ c ∈ front, c ≠ less) ∧ cp = front ++ rest

theorem Skips.refl (cp : Text) : Skips cp cp := ⟨[], fun _ isIn => absurd isIn not_mem_nil, rfl⟩

theorem Skips.cons {tl : Text} (ge : c ≠ less) (skips : Skips cp tl) :
    Skips (c :: cp) tl := by
  obtain ⟨pre, oths, rfl⟩ := skips
  exact ⟨c :: pre, forall_mem_cons.mpr ⟨ge, oths⟩, rfl⟩

theorem Skips.trans {mid tl : Text} (skips : Skips cp mid) (tail : Skips mid tl) :
    Skips cp tl := by
  obtain ⟨pre, oths, rfl⟩ := skips
  obtain ⟨front', others', rfl⟩ := tail
  exact ⟨pre ++ front', forall_mem_append.mpr ⟨oths, others'⟩, (append_assoc ..).symm⟩

theorem Skips.length_le {tl : Text} (skips : Skips cp tl) : tl.length ≤ cp.length := by
  obtain ⟨pre, _, rfl⟩ := skips
  rw [length_append]
  omega

theorem Skips.of_prefix {str : Text} (isPre : str.isPrefixOf cp = true)
    (oths : ∀ c ∈ str, c ≠ less) : Skips cp (cp.drop str.length) := by
  obtain ⟨tl, rfl⟩ := isPrefixOf_iff_prefix.mp isPre
  exact ⟨str, oths, by rw [drop_left]⟩

theorem skips_skipSpace (cp : Text) : Skips cp (skipSpace cp) := by
  obtain ⟨spaces, isCp, areSpaces, _⟩ := skipSpace_split cp
  refine ⟨spaces, fun c isIn isLess => ?_, isCp⟩
  exact absurd (isLess ▸ areSpaces c isIn) (by decide)

theorem safe_decodeEntity (cp : Text) :
    Safe (fun res => Skips cp res.2) (decodeEntity (ampersand :: cp)) := by
  unfold decodeEntity
  simp only [looksAt_cons]
  rw [looksAt_zero (by decide), looksAt_zero (by decide), looksAt_zero (by decide),
    looksAt_zero (by decide), looksAt_zero (by decide)]
  simp only [scan_ok_bind]
  split
  · exact @Skips.of_prefix cp (chars "amp;") (by assumption) (by decide)
  split
  · exact @Skips.of_prefix cp (chars "lt;") (by assumption) (by decide)
  split
  · exact @Skips.of_prefix cp (chars "gt;") (by assumption) (by decide)
  · split
    · exact @Skips.of_prefix cp (chars "apos;") (by assumption) (by decide)
    · split
      · exact @Skips.of_prefix cp (chars "quot;") (by assumption) (by decide)
      · exact safe_rejected _

theorem safe_decodeChar (c : UInt8) (cp : Text) :
    Safe (fun res => Skips cp res.2) (decodeChar (c :: cp)) := by
  rw [decodeChar]
  split
  · rename_i isAmpersand
    rw [isAmpersand]
    exact safe_decodeEntity cp
  · exact .refl cp

theorem safe_decodeStringLoop (targsize : Option Nat) {tarindex : Nat} (suff : cp.length < steps) :
    Safe (fun res => Skips cp res.2) (decodeStringLoop targsize steps tarindex cp) := by
  induction steps generalizing cp tarindex with
  | zero => omega
  | succ steps ih =>
    cases cp with
    | nil => exact safe_rejected _
    | cons c cp =>
      rw [decodeStringLoop]
      rw [length_cons] at suff
      split
      · exact Skips.refl _
      rename_i ge
      apply (safe_decodeChar c cp).bind
      rintro ⟨d, src⟩ skips
      have notLonger := skips.length_le
      dsimp only at notLonger ⊢
      split
      · exact safe_rejected _
      apply (ih (by omega)).bind
      rintro ⟨out, tl⟩ tail
      exact (skips.trans tail).cons ge

theorem safe_decodeString (targsize : Option Nat) (cp : Text) :
    Safe (fun res => Skips cp res.2) (decodeString targsize cp) :=
  safe_decodeStringLoop targsize (lt_succ_self _)

end Strings

end NetBSD.Libprop
