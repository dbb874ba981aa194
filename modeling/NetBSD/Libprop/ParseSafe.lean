import NetBSD.Libprop.ScanSafe

/-!
Owns the safety of the whole parser: the leaves, the internalizers, the loop over the stack, and
both entries.
-/

namespace NetBSD.Libprop

open List Step

section Data

/-- Decoding never reads behind the text's end. -/
theorem safe_decodeLoop (targsize : Option Nat) (tarindex st byte : Nat) (cp : Text) :
    Safe (fun dec => Skips cp dec.src) (decodeLoop targsize tarindex st byte cp) := by
  induction cp generalizing tarindex st byte with
  | nil => exact safe_rejected _
  | cons ch src ih =>
    have same : ch ≠ less → ∀ tarindex st byte : Nat,
        Safe (fun dec => Skips (ch :: src) dec.src)
          (decodeLoop targsize tarindex st byte src) := by
      intro ge tarindex st byte
      exact (ih tarindex st byte).mono fun tl => .cons ge
    have later : ch ≠ less → ∀ (tarindex st byte : Nat) (f : Decoded → Decoded),
        (∀ dec, (f dec).src = dec.src) →
        Safe (fun dec => Skips (ch :: src) dec.src)
          (decodeLoop targsize tarindex st byte src >>= fun tl => pure (f tl)) := by
      intro ge tarindex st byte f sameSrc
      apply (same ge tarindex st byte).bind
      intro tl skips
      show Skips (ch :: src) (f tl).src
      rw [sameSrc]
      exact skips
    rw [decodeLoop]
    split
    · rename_i isSpace
      exact same (fun isLess => absurd (isLess ▸ isSpace) (by decide)) _ _ _
    split
    · exact Skips.refl _
    rename_i ge
    split
    · exact (Skips.refl src).cons ge
    split
    · exact safe_rejected _
    split
    · split
      · exact safe_rejected _
      · exact same ge _ _ _
    split
    · split
      · exact safe_rejected _
      · exact later ge _ _ _ _ fun _ => rfl
    split
    · split
      · exact safe_rejected _
      · exact later ge _ _ _ _ fun _ => rfl
    · split
      · exact safe_rejected _
      · exact later ge _ _ _ _ fun _ => rfl

theorem safe_skipToLess (src : Text) : Safe (Skips src) (skipToLess src) := by
  unfold skipToLess
  dsimp only
  rw [charAt_zero]
  simp only [scan_ok_bind]
  split
  · exact safe_rejected _
  · exact skips_skipSpace src

theorem safe_decodeData (targsize : Option Nat) (cp : Text) :
    Safe (fun res => Skips cp res.2) (decodeData targsize cp) := by
  apply (safe_decodeLoop targsize 0 0 0 cp).bind
  intro dec skips
  dsimp only
  split
  · split
    · exact safe_rejected _
    split
    · exact safe_rejected _
    split
    · apply (safe_expect (by decide) _).bind
      intro src isSkip
      have spaces := skips_skipSpace dec.src
      rw [isSkip] at spaces
      exact (safe_skipToLess src).bind fun tl tail =>
        (skips.trans (spaces.trans ((Skips.refl src).cons (by decide)))).trans tail
    · exact (safe_skipToLess dec.src).bind fun tl tail => skips.trans tail
  · split
    · exact safe_rejected _
    · exact skips

end Data

section Numbers

theorem skips_tail {s : Text} {c : UInt8} (hd : s.head? = some c) (ge : c ≠ less) :
    Skips s s.tail := by
  obtain ⟨tail, rfl⟩ := head?_eq_some_iff.mp hd
  exact (Skips.refl tail).cons ge

theorem skips_dropWhile {p : UInt8 → Bool} (ge : p less = false) (s : Text) :
    Skips s (s.dropWhile p) := by
  refine ⟨s.takeWhile p, fun c isIn isLess => ?_, takeWhile_append_dropWhile.symm⟩
  have holds := all_eq_true.mp (all_takeWhile (p := p)) c isIn
  rw [isLess, ge] at holds
  cases holds

theorem drop_takeWhile (p : UInt8 → Bool) (s : Text) :
    s.drop (s.takeWhile p).length = s.dropWhile p :=
  append_cancel_left <| (prefix_iff_eq_append.mp ( takeWhile_prefix p)).trans
    (takeWhile_append_dropWhile (p := p)).symm

theorem signOf_skips (s : Text) : Skips s (signOf s).2 := by
  unfold signOf
  split
  · exact skips_tail (by assumption) (by decide)
  · split
    · exact skips_tail (by assumption) (by decide)
    · exact .refl s

theorem baseOf_skips (s : Text) : Skips s (baseOf s).2 ∧ (baseOf s).1 ≤ 16 := by
  unfold baseOf
  split
  · rename_i eq0
    split
    · rename_i isHex
      refine ⟨?_, Nat.le_refl 16⟩
      obtain ⟨tail, rfl⟩ := head?_eq_some_iff.mp eq0
      have isX : Skips tail tail.tail := by
        rcases isHex.1 with isX | isX
        · exact skips_tail (by rw [head?_eq_getElem?]; exact isX) (by decide)
        · exact skips_tail (by rw [head?_eq_getElem?]; exact isX) (by decide)
      rw [← tail_drop]
      exact isX.cons (by decide)
    · exact ⟨.refl s, (by decide : 8 ≤ 16)⟩
  · exact ⟨.refl s, (by decide : 10 ≤ 16)⟩

theorem strto_skips (nptr : Text) : Skips nptr (strto nptr).endptr := by
  have dropped := skips_dropWhile (by decide : isspace less = false) nptr
  have signed := signOf_skips (nptr.dropWhile isspace)
  obtain ⟨based, sml⟩ := baseOf_skips (signOf (nptr.dropWhile isspace)).2
  have digits := skips_dropWhile (p := isDigit (baseOf (signOf (nptr.dropWhile isspace)).2).1)
    (decide_eq_false (by rw [show digitValue less = 36 from rfl]; omega))
    (baseOf (signOf (nptr.dropWhile isspace)).2).2
  unfold strto
  dsimp only
  split
  · exact .refl nptr
  · rw [drop_takeWhile]
    exact dropped.trans (signed.trans (based.trans digits))

theorem safe_internalizeSigned (errno : Bool) (cp : Text) :
    Safe (fun res => Skips cp res.2) (internalizeSigned errno cp) := by
  unfold internalizeSigned
  dsimp only
  split
  · exact safe_rejected _
  · exact strto_skips cp

theorem safe_internalizeUnsigned (errno : Bool) (cp : Text) :
    Safe (fun res => Skips cp res.2) (internalizeUnsigned errno cp) := by
  unfold internalizeUnsigned
  dsimp only
  split
  · exact safe_rejected _
  · exact strto_skips cp

theorem safe_internalizeNumber (errno : Bool) (cp : Text) :
    Safe (fun res => Skips cp res.2) (internalizeNumber errno cp) := by
  have asSigned := safe_internalizeSigned errno cp
  have asUnsigned := safe_internalizeUnsigned errno cp
  unfold internalizeNumber
  rw [charAt_zero, looksAt_zero (by decide)]
  simp only [scan_ok_bind]
  split
  · exact asSigned
  · split
    · exact asUnsigned
    · split
      · exact asUnsigned
      · exact asSigned

end Numbers

section Leaves

theorem safe_propStringInternalize (tag : Tag) (cp : Text) :
    Safe (fun res => res.2.length ≤ cp.length) (propStringInternalize tag cp) := by
  unfold propStringInternalize
  split
  · exact le_refl _
  split
  · exact safe_rejected _
  apply (safe_decodeString none cp).bind
  rintro ⟨str, _⟩ _
  apply (safe_decodeString _ cp).bind
  rintro ⟨again, tl⟩ skips
  dsimp only at skips ⊢
  split
  · exact safe_rejected _
  · apply (safe_findTag tl _ _).bind
    rintro ⟨_, last⟩ lt
    exact le_trans (le_of_lt lt) skips.length_le

theorem safe_dataLength (errno : Bool) (tag : Tag) (cp : Text) :
    Safe (fun _ => True) (dataLength errno tag cp) := by
  unfold dataLength
  split
  · dsimp only
    split
    · exact safe_rejected _
    · split
      · exact safe_rejected _
      · split
        · exact safe_rejected _
        · trivial
  · exact (safe_decodeData none cp).bind fun _ _ => trivial

theorem safe_propDataInternalize (errno : Bool) (tag : Tag) (cp : Text) :
    Safe (fun res => res.2.length ≤ cp.length) (propDataInternalize errno tag cp) := by
  unfold propDataInternalize
  split
  · exact safe_rejected _
  apply (safe_dataLength errno tag cp).bind
  intro len _
  apply (safe_decodeData _ cp).bind
  rintro ⟨bytes, tl⟩ skips
  dsimp only at skips ⊢
  split
  · exact safe_rejected _
  · apply (safe_findTag tl _ _).bind
    rintro ⟨_, last⟩ lt
    exact le_trans (le_of_lt lt) skips.length_le

theorem safe_propNumberInternalize (errno : Bool) (tag : Tag) (cp : Text) :
    Safe (fun res => res.2.length ≤ cp.length) (propNumberInternalize errno tag cp) := by
  unfold propNumberInternalize
  split
  · exact safe_rejected _
  · apply (safe_internalizeNumber errno cp).bind
    rintro ⟨v, tl⟩ skips
    apply (safe_findTag tl _ _).bind
    rintro ⟨_, last⟩ lt
    exact le_trans (le_of_lt lt) skips.length_le

theorem safe_propBoolInternalize (tag : Tag) (cp : Text) :
    Safe (fun res => res.2.length ≤ cp.length) (propBoolInternalize tag cp) := by
  unfold propBoolInternalize
  split
  · exact safe_rejected _
  · exact le_refl _

end Leaves

section Parser

/-- The cursor of a step is in what was left, and a tag has moved it. -/
def Step.Within (n : Nat) : Step → Prop
  | .finished result => ∀ obj rest, result = some (obj, rest) → rest.length ≤ n
  | .pushed _ _ cp => cp.length < n

def Settled.Within (n : Nat) : Settled → Prop
  | .returned result => ∀ obj rest, result = some (obj, rest) → rest.length ≤ n
  | .matching _ cp _ => cp.length < n

theorem within_none (n : Nat) : (finished none).Within n := fun _ _ hsome => by cases hsome

theorem safe_orNull {n : Nat} {scan : Scan Step} (safe : Safe (Within n) scan) :
    Safe (Within n) (orNull scan) := by
  unfold orNull
  split
  · exact within_none n
  · exact safe

theorem safe_leaf {n : Nat} {scan : Scan (PropObject × Text)}
    (safe : Safe (fun res => res.2.length ≤ n) scan) : Safe (Within n) (leaf scan) := by
  apply safe_orNull
  cases scan with
  | ok res =>
    rintro obj tl hsome
    cases hsome
    exact safe
  | error stop => exact safe

theorem safe_propArrayInternalizeBody (pa : PropArray PropObject) (cp : Text) :
    Safe (Within cp.length) (propArrayInternalizeBody pa cp) := by
  apply safe_orNull
  apply (safe_findTag cp _ _).bind
  rintro ⟨tag, tl⟩ lt
  dsimp only at lt ⊢
  split
  · rintro obj last hsome
    cases hsome
    exact le_of_lt lt
  · exact lt

theorem safe_propArrayAdd (pa : PropArray PropObject) (po : PropObject) :
    Safe (fun _ => True) (propArrayAdd pa po) := by
  unfold propArrayAdd
  dsimp only
  split
  · exact .inr rfl
  · trivial

theorem safe_propDictionaryInternalizeBody (pd : Dictionary PropObject) (cp : Text) :
    Safe (Within cp.length) (propDictionaryInternalizeBody pd cp) := by
  apply safe_orNull
  apply (safe_findTag cp _ _).bind
  rintro ⟨tag, body⟩ lt
  dsimp only at lt ⊢
  split
  · rintro obj last hsome
    cases hsome
    exact le_of_lt lt
  split
  · exact safe_rejected _
  apply (safe_decodeString _ body).bind
  rintro ⟨key, tail⟩ skips
  have notLonger := skips.length_le
  apply (safe_findTag tail _ _).bind
  rintro ⟨_, next⟩ shorterNext
  apply (safe_findTag next _ _).bind
  rintro ⟨v, last⟩ shorterLast
  dsimp only at notLonger shorterNext shorterLast
  show last.length < cp.length
  omega

theorem safe_propDictionaryPut (pd : Dictionary PropObject) (tmpkey : CString) (po : PropObject) :
    Safe (fun _ => True) (propDictionaryPut pd tmpkey po) := by
  unfold propDictionaryPut
  split
  · exact .inr rfl
  · trivial
  · split
    · exact safe_rejected _
    · split
      · exact .inr rfl
      · trivial

theorem safe_propArrayInternalize (tag : Tag) (cp : Text) :
    Safe (Within cp.length) (propArrayInternalize tag cp) := by
  unfold propArrayInternalize
  split
  · exact within_none _
  · split
    · rintro obj tl hsome
      cases hsome
      exact le_refl _
    · exact safe_propArrayInternalizeBody _ cp

theorem safe_propDictionaryInternalize (tag : Tag) (cp : Text) :
    Safe (Within cp.length) (propDictionaryInternalize tag cp) := by
  unfold propDictionaryInternalize
  split
  · exact within_none _
  · split
    · rintro obj tl hsome
      cases hsome
      exact le_refl _
    · exact safe_propDictionaryInternalizeBody _ cp

inductive TableEntry (errno : Bool) : Text → (Tag → Text → Scan Step) → Prop where
  | array : TableEntry errno (chars "array") propArrayInternalize
  | dict : TableEntry errno (chars "dict") propDictionaryInternalize
  | bool {name : Text} (isName : name = chars "true" ∨ name = chars "false") :
      TableEntry errno name fun tag cp => leaf (propBoolInternalize tag cp)
  | data : TableEntry errno (chars "data") fun tag cp => leaf (propDataInternalize errno tag cp)
  | integer :
      TableEntry errno (chars "integer") fun tag cp => leaf (propNumberInternalize errno tag cp)
  | string : TableEntry errno (chars "string") fun tag cp => leaf (propStringInternalize tag cp)

/-- The table's lookup, name by name. -/
theorem tableEntry_iff {errno : Bool} {name : Text} {poi_intern : Tag → Text → Scan Step} :
    internalizer errno name = some poi_intern ↔ TableEntry errno name poi_intern := by
  constructor
  · intro ent
    unfold internalizer at ent
    split at ent
    · rename_i hname
      cases ent
      rw [hname]
      exact .array
    split at ent
    · rename_i hname
      cases ent
      exact .bool (.inl hname)
    split at ent
    · rename_i hname
      cases ent
      exact .bool (.inr hname)
    split at ent
    · rename_i hname
      cases ent
      rw [hname]
      exact .data
    split at ent
    · rename_i hname
      cases ent
      rw [hname]
      exact .dict
    split at ent
    · rename_i hname
      cases ent
      rw [hname]
      exact .integer
    split at ent
    · rename_i hname
      cases ent
      rw [hname]
      exact .string
    · cases ent
  · intro ent
    cases ent with
    | array => rfl
    | dict => rfl
    | bool hname =>
      rcases hname with rfl | rfl
      · rfl
      · rfl
    | data => rfl
    | integer => rfl
    | string => rfl

theorem safe_internalizer {errno : Bool} {name : Text} {poi_intern : Tag → Text → Scan Step}
    (ent : TableEntry errno name poi_intern) (tag : Tag) (cp : Text) :
    Safe (Within cp.length) (poi_intern tag cp) := by
  cases ent with
  | array => exact safe_propArrayInternalize tag cp
  | dict => exact safe_propDictionaryInternalize tag cp
  | bool hname => exact safe_leaf (safe_propBoolInternalize tag cp)
  | data => exact safe_leaf (safe_propDataInternalize errno tag cp)
  | integer => exact safe_leaf (safe_propNumberInternalize errno tag cp)
  | string => exact safe_leaf (safe_propStringInternalize tag cp)

theorem safe_resume {n : Nat} (fr : Frame) {child : Option (PropObject × Text)}
    (bnd : (finished child).Within n) : Safe (Within n) (fr.resume child) := by
  have wider : ∀ {m : Nat} {step : Step}, m ≤ n → step.Within m → step.Within n := by
    intro m step notMore isWithin
    cases step with
    | finished res => exact fun obj tl hsome => le_trans (isWithin obj tl hsome) notMore
    | pushed fr tag cp => exact lt_of_lt_of_le isWithin notMore
  cases child with
  | none =>
    cases fr with
    | array | dictionary => exact within_none n
  | some res =>
    obtain ⟨child, cp⟩ := res
    have notMore : cp.length ≤ n := bnd child cp rfl
    cases fr with
    | array pa =>
      apply (safe_propArrayAdd pa child).bind
      intro pa' _
      exact (safe_propArrayInternalizeBody pa' cp).mono fun step => wider notMore
    | dictionary pd tmpkey =>
      apply safe_orNull
      apply (safe_propDictionaryPut pd tmpkey child).bind
      intro pd' _
      exact (safe_propDictionaryInternalizeBody pd' cp).mono fun step => wider notMore

theorem safe_settle {n : Nat} (stack : List Frame) {res : Option (PropObject × Text)}
    (bnd : (finished res).Within n) :
    Safe (Settled.Within n) (settle stack res) := by
  induction stack generalizing res with
  | nil => exact bnd
  | cons fr stack ih =>
    rw [settle]
    apply (safe_resume fr bnd).bind
    intro step isWithin
    cases step with
    | finished res => exact ih isWithin
    | pushed fr tag cp => exact isWithin

theorem safe_byTagStep (errno : Bool) (tag : Tag) (cp : Text) (stack : List Frame) :
    Safe (Settled.Within cp.length) (byTagStep errno tag cp stack) := by
  unfold byTagStep
  split
  · exact within_none _
  rename_i poi_intern ent
  apply (safe_internalizer (tableEntry_iff.mp ent) tag cp).bind
  intro step isWithin
  cases step with
  | finished res => exact safe_settle stack isWithin
  | pushed fr tag cp => exact isWithin

end Parser

end NetBSD.Libprop
