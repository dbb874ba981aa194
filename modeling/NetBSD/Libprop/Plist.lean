import NetBSD.Libprop.Scan

/-!
Owns property lists: their trees, the parser of `prop_object.c` with its stack of open containers,
the writers, and `prop_object_equals`. The parser fills containers by `prop_array_add` and
`prop_dictionary_set`; a tree has the elements of a container without its capacity.
-/

namespace NetBSD.Libprop

/-- A property tree. -/
inductive PropObject where
  | array (pa_array : List PropObject)
  | dictionary (pd_array : List (Entry PropObject))
  | string (contents : CString)
  | data (bytes : List UInt8)
  | number (value : Number)
  | bool (value : Bool)

section Containers

variable {α : Type}

/-- `struct _prop_array` with the elements below `pa_count`. -/
structure PropArray (α : Type) where
  pa_array : List α
  pa_capacity : Nat

def propArrayExpand (pa : PropArray α) (capacity : Nat) : Option (PropArray α) :=
  if pa.pa_capacity > capacity then none else some { pa with pa_capacity := capacity }

def propArrayAdd (pa : PropArray α) (po : α) : Scan (PropArray α) :=
  let expanded :=
    if pa.pa_array.length = pa.pa_capacity then
      propArrayExpand pa (uint (pa.pa_capacity + expandStep))
    else some pa
  match expanded with
  | none => throw .smashed
  | some pa => pure { pa with pa_array := pa.pa_array ++ [po] }

/-- `prop_dictionary_set` on the dictionary of a parse; references are counted elsewhere. -/
def propDictionaryPut (pd : Dictionary α) (key : CString) (po : α) : Scan (Dictionary α) :=
  match propDictLookup pd key with
  | none => throw .smashed
  | some (.found idx) =>
    pure { pd with pd_array := pd.pd_array.modify idx fun pde => { pde with pde_objref := po } }
  | some (.near idx) =>
    if key.bytes.length > pdkMaxkey then throw .rejected
    else
      match propDictionaryAdd pd idx ⟨key, po⟩ with
      | none => throw .smashed
      | some pd => pure pd

end Containers

section Leaves

theorem takeWhile_noNul (s : Text) : ∀ c ∈ s.takeWhile (· ≠ 0), c ≠ 0 := by
  intro c isIn
  have kept := List.all_takeWhile (l := s) (p := (· ≠ 0))
  simpa using List.all_eq_true.mp kept c isIn

def cString (s : Text) : CString := ⟨s.takeWhile (· ≠ 0), takeWhile_noNul s⟩

def propStringInternalize (tag : Tag) (cp : Text) : Scan (PropObject × Text) := do
  if tag.poic_is_empty_element then pure (.string (cString []), cp)
  else
    if tag.poic_tagattr.isSome then throw .rejected
    let (str, _) ← decodeString none cp
    let (again, cp) ← decodeString (some str.length) cp
    if again.length ≠ str.length then throw .rejected
    let (_, cp) ← findTag cp (some (chars "string")) .tagEnd
    pure (.string (cString again), cp)

/-- The length of a blob: from the attribute if there is one, else by a first pass. -/
def dataLength (errno : Bool) (tag : Tag) (cp : Text) : Scan Nat :=
  match tag.poic_tagattr with
  | some attr =>
    let number := strto attr.poic_tagattrval
    if attr.poic_tagattr ≠ chars "size" ∨ attr.poic_tagattrval_len = 0 then throw .rejected
    else if errno && (strtoull number).2 then throw .rejected
    else if number.endptr.length + attr.poic_tagattrval_len ≠ attr.poic_tagattrval.length then
      throw .rejected
    else pure (strtoull number).1
  | none => do pure (← decodeData none cp).1.length

def propDataInternalize (errno : Bool) (tag : Tag) (cp : Text) : Scan (PropObject × Text) := do
  if tag.poic_is_empty_element then throw .rejected
  let len ← dataLength errno tag cp
  let (bytes, cp) ← decodeData (some ((len + 1) % 18446744073709551616)) cp
  if bytes.length ≠ len then throw .rejected
  let (_, cp) ← findTag cp (some (chars "data")) .tagEnd
  pure (.data bytes, cp)

def propNumberInternalize (errno : Bool) (tag : Tag) (cp : Text) : Scan (PropObject × Text) := do
  if tag.poic_tagattr.isSome ∨ tag.poic_is_empty_element then throw .rejected
  let (value, cp) ← internalizeNumber errno cp
  let (_, cp) ← findTag cp (some (chars "integer")) .tagEnd
  pure (.number value, cp)

def propBoolInternalize (tag : Tag) (cp : Text) : Scan (PropObject × Text) := do
  if tag.poic_tagattr.isSome ∨ tag.poic_is_empty_element = false then throw .rejected
  pure (.bool (tag.poic_tagname = chars "true"), cp)

end Leaves

section Parser

/-- An element of the stack: a container with the routine that goes on with it. -/
inductive Frame where
  | array (pa : PropArray PropObject)
  | dictionary (pd : Dictionary PropObject) (tmpkey : CString)

/-- What an internalizer does: it is done, with an object or without, or it is to be called again
with the object of a tag. -/
inductive Step where
  | finished (result : Option (PropObject × Text))
  | pushed (frame : Frame) (tag : Tag) (cp : Text)

/-- A failure inside is an object that is not there. -/
def orNull (scan : Scan Step) : Scan Step :=
  match scan with
  | .error .rejected => pure (.finished none)
  | result => result

/-- A leaf is never to be called again. -/
def leaf (scan : Scan (PropObject × Text)) : Scan Step :=
  orNull (scan.map fun result => .finished (some result))

def propArrayInternalizeBody (pa : PropArray PropObject) (cp : Text) : Scan Step := orNull do
  let (tag, cp) ← findTag cp none .tagEither
  if tag.poic_tagname = chars "array" ∧ tag.poic_tag_type = .tagEnd then
    pure (.finished (some (.array pa.pa_array, cp)))
  else pure (.pushed (.array pa) tag cp)

def propArrayInternalize (tag : Tag) (cp : Text) : Scan Step :=
  if tag.poic_tagattr.isSome then pure (.finished none)
  else if tag.poic_is_empty_element then pure (.finished (some (.array [], cp)))
  else propArrayInternalizeBody ⟨[], 0⟩ cp

def propArrayInternalizeContinue (pa : PropArray PropObject) (child : Option (PropObject × Text)) :
    Scan Step :=
  match child with
  | none => pure (.finished none)
  | some (child, cp) => do propArrayInternalizeBody (← propArrayAdd pa child) cp

def propDictionaryInternalizeBody (pd : Dictionary PropObject) (cp : Text) : Scan Step := orNull do
  let (tag, cp) ← findTag cp none .tagEither
  if tag.poic_tagname = chars "dict" ∧ tag.poic_tag_type = .tagEnd then
    pure (.finished (some (.dictionary pd.pd_array, cp)))
  else if tag.poic_tagname ≠ chars "key" ∨ tag.poic_tag_type ≠ .tagStart ∨
      tag.poic_is_empty_element then throw .rejected
  else do
    let (tmpkey, cp) ← decodeString (some pdkMaxkey) cp
    let (_, cp) ← findTag cp (some (chars "key")) .tagEnd
    let (tag, cp) ← findTag cp none .tagStart
    pure (.pushed (.dictionary pd (cString tmpkey)) tag cp)

def propDictionaryInternalize (tag : Tag) (cp : Text) : Scan Step :=
  if tag.poic_tagattr.isSome then pure (.finished none)
  else if tag.poic_is_empty_element then pure (.finished (some (.dictionary [], cp)))
  else propDictionaryInternalizeBody (propDictionaryCreate 0) cp

def propDictionaryInternalizeContinue (pd : Dictionary PropObject) (tmpkey : CString)
    (child : Option (PropObject × Text)) : Scan Step :=
  match child with
  | none => pure (.finished none)
  | some (child, cp) => orNull do propDictionaryInternalizeBody (← propDictionaryPut pd tmpkey child) cp

/-- `_prop_object_internalizer_table`. -/
def internalizer (errno : Bool) (name : Text) : Option (Tag → Text → Scan Step) :=
  if name = chars "array" then some propArrayInternalize
  else if name = chars "true" then some fun tag cp => leaf (propBoolInternalize tag cp)
  else if name = chars "false" then some fun tag cp => leaf (propBoolInternalize tag cp)
  else if name = chars "data" then some fun tag cp => leaf (propDataInternalize errno tag cp)
  else if name = chars "dict" then some propDictionaryInternalize
  else if name = chars "integer" then some fun tag cp => leaf (propNumberInternalize errno tag cp)
  else if name = chars "string" then some fun tag cp => leaf (propStringInternalize tag cp)
  else none

def Frame.resume (frame : Frame) (child : Option (PropObject × Text)) : Scan Step :=
  match frame with
  | .array pa => propArrayInternalizeContinue pa child
  | .dictionary pd tmpkey => propDictionaryInternalizeContinue pd tmpkey child

/-- What the containers on the stack make of an object: the object of the whole, or a tag to go on
with. -/
inductive Settled where
  | returned (result : Option (PropObject × Text))
  | matching (tag : Tag) (cp : Text) (stack : List Frame)

def settle : List Frame → Option (PropObject × Text) → Scan Settled
  | [], result => pure (.returned result)
  | frame :: stack, result => do
      match ← frame.resume result with
      | .finished result => settle stack result
      | .pushed frame tag cp => pure (.matching tag cp (frame :: stack))

/-- `_prop_object_internalize_by_tag` from `match_start` on, up to `match_start` again. Without an
entry of the table all containers on the stack are given up. -/
def byTagStep (errno : Bool) (tag : Tag) (cp : Text) (stack : List Frame) : Scan Settled :=
  match internalizer errno tag.poic_tagname with
  | none => pure (.returned none)
  | some poi_intern => do
      match ← poi_intern tag cp with
      | .finished result => settle stack result
      | .pushed frame tag cp => pure (.matching tag cp (frame :: stack))

def byTagLoop (errno : Bool) : Nat → Tag → Text → List Frame → Scan (Option (PropObject × Text))
  | 0, _, _, _ => throw .endless
  | steps + 1, tag, cp, stack => do
      match ← byTagStep errno tag cp stack with
      | .returned result => pure result
      | .matching tag cp stack => byTagLoop errno steps tag cp stack

def propObjectInternalizeByTag (errno : Bool) (tag : Tag) (cp : Text) :
    Scan (Option (PropObject × Text)) :=
  byTagLoop errno (cp.length + 1) tag cp []

def propGenericInternalize (errno : Bool) (xml master_tag : Text) : Scan PropObject := do
  let cp ← contextAlloc xml
  let (tag, cp) ← findTag cp (some (chars "plist")) .tagStart
  if tag.poic_is_empty_element then throw .rejected
  if tag.poic_tagattr.any (fun attr => attr.poic_tagattr ≠ chars "version") then throw .rejected
  let (tag, cp) ← findTag cp (some master_tag) .tagStart
  match ← propObjectInternalizeByTag errno tag cp with
  | none => throw .rejected
  | some (obj, cp) => do
      let _ ← findTag cp (some (chars "plist")) .tagEnd
      pure obj

end Parser

/-!
### Writers

The writers of a property list and `prop_object_equals`. The text of a dictionary has its
entries in the order of the array, each with its own object.
-/

section Writers

def tabs (depth : Nat) : Text := List.replicate depth 9

def externalizeStartTag (depth : Nat)
    (tag : Text) : Text := tabs depth ++ less :: (tag ++ [greater])

def externalizeEndTag (tag : Text) : Text := less :: slash :: (tag ++ [greater, 10])

def externalizeEmptyTag (depth : Nat) (tag : Text) : Text :=
  tabs depth ++ less :: (tag ++ [slash, greater, 10])

/-- A character of `_prop_object_externalize_append_encoded_cstring`. -/
def encodeChar (c : UInt8) : Text :=
  if c = less then chars "&lt;"
  else if c = greater then chars "&gt;"
  else if c = ampersand then chars "&amp;"
  else [c]

/-- `_prop_object_externalize_append_encoded_cstring`. -/
def encodeString (cp : Text) : Text := cp.flatMap encodeChar

def propStringExternalize (depth : Nat) (contents : Text) : Text :=
  if contents = [] then externalizeEmptyTag depth (chars "string")
  else externalizeStartTag depth (chars "string") ++ encodeString contents ++
    externalizeEndTag (chars "string")

def propDataExternalize (depth : Nat) (bytes : List UInt8) : Text :=
  if bytes = [] then externalizeEmptyTag depth (chars "data")
  else externalizeStartTag depth (chars "data") ++ encodeData bytes ++ externalizeEndTag (chars "data")

def propNumberExternalize (depth : Nat) (value : Number) : Text :=
  externalizeStartTag depth (chars "integer") ++ encodeNumber value ++
    externalizeEndTag (chars "integer")

def propBoolExternalize (depth : Nat) (value : Bool) : Text :=
  externalizeEmptyTag depth (if value then chars "true" else chars "false")

/-- What `_prop_array_externalize` and `_prop_dictionary_externalize` write around the elements. -/
def externalizeContainer (depth : Nat) (tag : Text) (isEmpty : Bool) (body : Text) : Text :=
  if isEmpty then externalizeEmptyTag depth tag
  else externalizeStartTag depth tag ++ 10 :: (body ++ (tabs depth ++ externalizeEndTag tag))

mutual

def externalize (depth : Nat) : PropObject → Text
  | .array pa_array =>
    externalizeContainer depth (chars "array") pa_array.isEmpty (externalizeItems (depth + 1) pa_array)
  | .dictionary pd_array =>
    externalizeContainer depth (chars "dict") pd_array.isEmpty
      (externalizeEntries (depth + 1) pd_array)
  | .string contents => propStringExternalize depth contents.bytes
  | .data bytes => propDataExternalize depth bytes
  | .number value => propNumberExternalize depth value
  | .bool value => propBoolExternalize depth value

def externalizeItems (depth : Nat) : List PropObject → Text
  | [] => []
  | po :: pa_array => externalize depth po ++ externalizeItems depth pa_array

def externalizeEntries (depth : Nat) : List (Entry PropObject) → Text
  | [] => []
  | ⟨pdk, po⟩ :: pd_array =>
    externalizeStartTag depth (chars "key") ++ encodeString pdk.bytes ++
      externalizeEndTag (chars "key") ++ externalize depth po ++ externalizeEntries depth pd_array

end

/-- `_prop_object_externalize_header`. -/
def plistXmlHeader : Text :=
  chars "<?xml version=\"1.0\" encoding=\"UTF-8\"?>\n" ++
    chars "<!DOCTYPE plist PUBLIC \"-//Apple Computer//DTD PLIST 1.0//EN\" " ++
    chars "\"http://www.apple.com/DTDs/PropertyList-1.0.dtd\">\n"

/-- `prop_dictionary_externalize` and `prop_array_externalize`, without the NUL at the end. -/
def propExternalize (root : PropObject) : Text :=
  plistXmlHeader ++ (externalizeStartTag 0 (chars "plist version=\"1.0\"") ++
    10 :: (externalize 0 root ++ externalizeEndTag (chars "plist")))

end Writers

section Equals

def propNumberEquals : Number → Number → Bool
  | .signed num1, .signed num2 => num1 = num2
  | .unsigned num1, .unsigned num2 => num1 = num2
  | .unsigned num1, .signed num2 =>
    if num1.toNat > 9223372036854775807 ∨ num2.toInt < 0 then false else num1.toInt64 = num2
  | .signed num1, .unsigned num2 =>
    if num1.toInt < 0 ∨ num2.toNat > 9223372036854775807 then false else num1 = num2.toInt64

/-- `_prop_object_equals_rv_t`, with the next pair. -/
inductive EqualsRv where
  | equalsFalse
  | equalsTrue
  | equalsRecurse (next_obj1 next_obj2 : PropObject)

def EqualsRv.ofBool (same : Bool) : EqualsRv := if same then .equalsTrue else .equalsFalse

def potEquals (idx : Nat) : PropObject → PropObject → EqualsRv
  | .array array1, .array array2 =>
    if array1.length ≠ array2.length then .equalsFalse
    else
      match array1[idx]?, array2[idx]? with
      | some obj1, some obj2 => .equalsRecurse obj1 obj2
      | _, _ => .equalsTrue
  | .dictionary dict1, .dictionary dict2 =>
    if dict1.length ≠ dict2.length then .equalsFalse
    else
      match dict1[idx]?, dict2[idx]? with
      | some pde1, some pde2 =>
        if pde1.pde_key = pde2.pde_key then .equalsRecurse pde1.pde_objref pde2.pde_objref
        else .equalsFalse
      | _, _ => .equalsTrue
  | .string str1, .string str2 => .ofBool (str1 = str2)
  | .data pd1, .data pd2 => .ofBool (pd1 = pd2)
  | .number num1, .number num2 => .ofBool (propNumberEquals num1 num2)
  | .bool b1, .bool b2 => .ofBool (b1 = b2)
  | _, _ => .equalsFalse

/-- A pair of containers on the stack, with the index to go on with. -/
structure EqualsFrame where
  obj1 : PropObject
  obj2 : PropObject
  idx : Nat

def equalsLoop : Nat → EqualsFrame → List EqualsFrame → Option Bool
  | 0, _, _ => none
  | steps + 1, frame, stack =>
    match potEquals frame.idx frame.obj1 frame.obj2 with
    | .equalsFalse => some false
    | .equalsTrue =>
      match stack with
      | [] => some true
      | frame :: stack => equalsLoop steps frame stack
    | .equalsRecurse next_obj1 next_obj2 =>
      equalsLoop steps ⟨next_obj1, next_obj2, 0⟩ ({ frame with idx := frame.idx + 1 } :: stack)

def propObjectEquals (steps : Nat) (obj1 obj2 : PropObject) : Option Bool :=
  equalsLoop steps ⟨obj1, obj2, 0⟩ []

end Equals

end NetBSD.Libprop
