import NetBSD.Libprop.Dictionary
import Mathlib.Data.Nat.Digits.Defs

/-!
Owns the scanners of a property list in `common/lib/libprop/prop_object.c`: tags, comments,
encoded strings and the preamble. A cursor is what is left of the text in front of the
terminating NUL. No cursor is behind the NUL, and a look behind it is a stop of its own.
-/

namespace NetBSD.Libprop

/-- Why there is no result: the routine fails, a character behind the terminating NUL is read,
memory outside an array is written or read, or the bound on the steps is used up. -/
inductive Stop where
  | rejected
  | overrun
  | smashed
  | endless
deriving DecidableEq

abbrev Scan := Except Stop

abbrev Text := List UInt8

def chars (s : String) : Text := s.toList.map fun c => UInt8.ofNat c.toNat

/-- A property of each character is decided along the text, not over all characters. -/
instance decidableChars (p : UInt8 → Prop) [DecidablePred p] (s : Text) :
    Decidable (∀ c ∈ s, p c) :=
  List.decidableBAll p s

section Characters

def propIsspace (c : UInt8) : Bool := c = 32 || c = 9 || c = 10 || c = 13

/-- `'<'`, `'>'`, `'/'`, `'!'`, `'-'`, `'='`, `'"'` and `'&'`. -/
def less : UInt8 := 60
def greater : UInt8 := 62
def slash : UInt8 := 47
def bang : UInt8 := 33
def equals : UInt8 := 61
def quote : UInt8 := 34
def ampersand : UInt8 := 38

def charAt : Text → Nat → Scan UInt8
  | [], 0 => pure 0
  | [], _ + 1 => throw .overrun
  | c :: _, 0 => pure c
  | _ :: cp, i + 1 => charAt cp i

def looksAt (cp : Text) : Nat → Text → Scan Bool
  | _, [] => pure true
  | i, c :: str => do
      if (← charAt cp i) = c then looksAt cp (i + 1) str else pure false

/-- `cp++` in front of another look. -/
def advance : Text → Scan Text
  | [] => throw .overrun
  | _ :: cp => pure cp

def expect (c : UInt8) (cp : Text) : Scan Text := do
  if (← charAt cp 0) ≠ c then throw .rejected
  advance cp

def skipSpace (cp : Text) : Text := cp.dropWhile propIsspace

/-- The characters up to one that ends them, with the cursor at that one; a failure at the NUL. -/
def scanWord (ends : UInt8 → Bool) : Text → Scan (Text × Text)
  | [] => throw .rejected
  | c :: cp =>
    if ends c then pure ([], c :: cp)
    else do
      let (word, rest) ← scanWord ends cp
      pure (c :: word, rest)

end Characters

section Tags

inductive TagType where
  | tagStart
  | tagEnd
  | tagEither
deriving DecidableEq

/-- `poic_tagattr` and `poic_tagattrval` with their lengths. The value is a cursor. -/
structure TagAttr where
  poic_tagattr : Text
  poic_tagattrval : Text
  poic_tagattrval_len : Nat
deriving DecidableEq

/-- What `_prop_object_internalize_find_tag` leaves in the context. -/
structure Tag where
  poic_tagname : Text
  poic_tagattr : Option TagAttr
  poic_is_empty_element : Bool
  poic_tag_type : TagType
deriving DecidableEq

def skipComment : Text → Scan Text
  | [] => throw .rejected
  | c :: cp => do
      if ← looksAt (c :: cp) 0 (chars "-->") then pure ((c :: cp).drop 3) else skipComment cp

def endsTagname (c : UInt8) : Bool := propIsspace c || c = slash || c = greater

def endsTagattr (c : UInt8) : Bool := propIsspace c || c = equals

/-- The attribute of a tag and the end of the tag, from behind the character that ended the tag's
name. -/
def scanTagattr (cp : Text) : Scan (TagAttr × Text) := do
  if cp = [] then throw .rejected
  let cp := skipSpace cp
  let (attr, cp) ← scanWord endsTagattr cp
  let cp ← advance cp
  let val ← expect quote cp
  let (value, cp) ← scanWord (· = quote) val
  let cp ← advance cp
  let cp ← expect greater cp
  pure (⟨attr, val, value.length⟩, cp)

/-- The tag of a name at the cursor. -/
def scanTagname (cp : Text) (tag : Option Text) (tagType : TagType) : Scan (Tag × Text) := do
  let (name, cp) ← scanWord endsTagname cp
  if tag.any (fun t => t ≠ name) then throw .rejected
  let c ← charAt cp 0
  let cp ← advance cp
  if c = slash then
    if tagType ≠ .tagStart then throw .rejected
    let cp ← expect greater cp
    pure (⟨name, none, true, tagType⟩, cp)
  else if c = greater then pure (⟨name, none, false, tagType⟩, cp)
  else do
    let (attr, cp) ← scanTagattr cp
    pure (⟨name, some attr, false, tagType⟩, cp)

def findTagLoop : Nat → Text → Option Text → TagType → Scan (Tag × Text)
  | 0, _, _, _ => throw .endless
  | steps + 1, cp, tag, type => do
      let cp ← expect less (skipSpace cp)
      let c ← charAt cp 0
      if c = bang then
        if !(← looksAt cp 1 (chars "--")) then throw .rejected
        if type = .tagEnd then throw .rejected
        findTagLoop steps (← skipComment (cp.drop 3)) tag type
      else if c = slash then
        if type = .tagStart then throw .rejected
        scanTagname (← advance cp) tag .tagEnd
      else if type = .tagEnd then throw .rejected
      else scanTagname cp tag .tagStart

def findTag (cp : Text) (tag : Option Text) (type : TagType) : Scan (Tag × Text) :=
  findTagLoop (cp.length + 1) cp tag type

end Tags

section Strings

/-- The character that `&` at the cursor stands for, with the cursor behind it. -/
def decodeEntity (src : Text) : Scan (UInt8 × Text) := do
  if ← looksAt src 1 (chars "amp;") then pure (ampersand, src.drop 5)
  else if ← looksAt src 1 (chars "lt;") then pure (less, src.drop 4)
  else if ← looksAt src 1 (chars "gt;") then pure (greater, src.drop 4)
  else if ← looksAt src 1 (chars "apos;") then pure (39, src.drop 6)
  else if ← looksAt src 1 (chars "quot;") then pure (quote, src.drop 6)
  else throw .rejected

/-- The character at the cursor, decoded. -/
def decodeChar : Text → Scan (UInt8 × Text)
  | [] => throw .rejected
  | c :: cp => if c = ampersand then decodeEntity (c :: cp) else pure (c, cp)

/-- `_prop_object_internalize_decode_string` in so many characters, into a target of so many
characters if there is one. The cursor ends at `<`. -/
def decodeStringLoop (targsize : Option Nat) : Nat → Nat → Text → Scan (Text × Text)
  | 0, _, _ => throw .endless
  | _ + 1, _, [] => throw .rejected
  | steps + 1, tarindex, c :: cp =>
    if c = less then pure ([], c :: cp)
    else do
      let (c, src) ← decodeChar (c :: cp)
      if targsize.any (fun size => size ≤ tarindex) then throw .rejected
      let (out, src) ← decodeStringLoop targsize steps (tarindex + 1) src
      pure (c :: out, src)

def decodeString (targsize : Option Nat) (cp : Text) : Scan (Text × Text) :=
  decodeStringLoop targsize (cp.length + 1) 0 cp

end Strings

section Preamble

def skipToGreater : Text → Scan Text
  | [] => throw .rejected
  | c :: cp => if c = greater then pure (c :: cp) else skipToGreater cp

/-- `MATCH`, a `memcmp` of all bytes of the string, also where a short text has fewer. -/
def matchesAt (behind str : Text) : Scan Bool :=
  if behind.length + 1 < str.length then throw .overrun else pure (str.isPrefixOf behind)

/-- The loop of `_prop_object_internalize_context_alloc` in so many parts. A comment is looked for
behind the first character, as the other parts are. -/
def skipPreamble : Nat → Text → Scan Text
  | 0, _ => throw .endless
  | steps + 1, xml => do
      let xml := skipSpace xml
      let behind ← expect less xml
      if ← matchesAt behind (chars "?xml ") <||> matchesAt behind (chars "!DOCTYPE plist") then
        skipPreamble steps (← advance (← skipToGreater xml))
      else if ← matchesAt behind (chars "<!--") then
        skipPreamble steps (← skipComment (xml.drop 4))
      else pure xml

def contextAlloc (xml : Text) : Scan Text := skipPreamble (xml.length + 1) xml

end Preamble

/-!
### Leaves

The leaves of a property list: base64 in both directions from `prop_data.c`, numbers from
`prop_number.c`, and the `strtol` family with base 0 that reads them.
-/

section Base64

/-- `_prop_data_base64` and `_prop_data_pad64`. -/
def base64 : Text := chars "ABCDEFGHIJKLMNOPQRSTUVWXYZabcdefghijklmnopqrstuvwxyz0123456789+/"
def pad64 : UInt8 := 61

def base64At (output : Nat) : UInt8 := base64.getD output 0

/-- What the main loop of `_prop_data_internalize_decode` leaves: the bytes, the state, whether it
ended at the pad, and the cursor. -/
structure Decoded where
  bytes : List UInt8
  state : Nat
  padded : Bool
  src : Text

/-- A target of so many bytes has no room at an index. -/
def full (targsize : Option Nat) (index : Nat) : Bool := targsize.any fun size => size ≤ index

/-- The main loop of `_prop_data_internalize_decode`. `partial` of the source's target is the byte
at `tarindex`. -/
def decodeLoop (targsize : Option Nat) (tarindex state : Nat) (byte : Nat) : Text → Scan Decoded
  | [] => throw .rejected
  | ch :: src =>
    if propIsspace ch then decodeLoop targsize tarindex state byte src
    else if ch = less then pure ⟨[], state, false, ch :: src⟩
    else if ch = pad64 then pure ⟨[], state, true, src⟩
    else
      match base64.idxOf? ch with
      | none => throw .rejected
      | some pos =>
        if state = 0 then
          if full targsize tarindex then throw .rejected
          else decodeLoop targsize tarindex 1 ((pos <<< 2) % 256) src
        else if state = 1 then
          if full targsize (tarindex + 1) then throw .rejected
          else do
            let rest ← decodeLoop targsize (tarindex + 1) 2 ((pos &&& 15) <<< 4) src
            pure { rest with bytes := UInt8.ofNat (byte ||| pos >>> 4) :: rest.bytes }
        else if state = 2 then
          if full targsize (tarindex + 1) then throw .rejected
          else do
            let rest ← decodeLoop targsize (tarindex + 1) 3 ((pos &&& 3) <<< 6) src
            pure { rest with bytes := UInt8.ofNat (byte ||| pos >>> 2) :: rest.bytes }
        else
          if full targsize tarindex then throw .rejected
          else do
            let rest ← decodeLoop targsize (tarindex + 1) 0 0 src
            pure { rest with bytes := UInt8.ofNat (byte ||| pos) :: rest.bytes }

def skipToLess (src : Text) : Scan Text := do
  let src := skipSpace src
  if (← charAt src 0) ≠ less then throw .rejected
  pure src

def decodeData (targsize : Option Nat) (cp : Text) : Scan (List UInt8 × Text) := do
  let decoded ← decodeLoop targsize 0 0 0 cp
  if decoded.padded then
    if decoded.src = [] then throw .rejected
    if decoded.state = 0 ∨ decoded.state = 1 then throw .rejected
    else if decoded.state = 2 then
      let src ← expect pad64 (skipSpace decoded.src)
      pure (decoded.bytes, ← skipToLess src)
    else pure (decoded.bytes, ← skipToLess decoded.src)
  else if decoded.state ≠ 0 then throw .rejected
  else pure (decoded.bytes, decoded.src)

/-- The characters of `_prop_data_externalize`. -/
def encodeData : List UInt8 → Text
  | a :: b :: c :: src =>
    base64At (a.toNat >>> 2) ::
    base64At (((a.toNat &&& 3) <<< 4) + (b.toNat >>> 4)) ::
    base64At (((b.toNat &&& 15) <<< 2) + (c.toNat >>> 6)) ::
    base64At (c.toNat &&& 63) :: encodeData src
  | [a, b] =>
    [base64At (a.toNat >>> 2), base64At (((a.toNat &&& 3) <<< 4) + (b.toNat >>> 4)),
      base64At ((b.toNat &&& 15) <<< 2), pad64]
  | [a] => [base64At (a.toNat >>> 2), base64At ((a.toNat &&& 3) <<< 4), pad64, pad64]
  | [] => []

end Base64

section Numbers

def isspace (c : UInt8) : Bool := c = 32 || (9 ≤ c && c ≤ 13)

def digitValue (c : UInt8) : Nat :=
  if 48 ≤ c ∧ c ≤ 57 then c.toNat - 48
  else if 97 ≤ c ∧ c ≤ 122 then c.toNat - 87
  else if 65 ≤ c ∧ c ≤ 90 then c.toNat - 55
  else 36

def isDigit (base : Nat) (c : UInt8) : Bool := digitValue c < base

def digitsValue (base : Nat) (digits : Text) : Nat :=
  digits.foldl (fun value c => value * base + digitValue c) 0

/-- A number without a limit, and the cursor that `endptr` gets. -/
structure Strto where
  negative : Bool
  magnitude : Nat
  endptr : Text

/-- The base and the digits of a number: hexadecimal behind `0x` in front of a digit, octal behind
`0`, else decimal. -/
def baseOf (s : Text) : Nat × Text :=
  if s.head? = some 48 then
    if (s[1]? = some 120 ∨ s[1]? = some 88) ∧ s[2]?.any (isDigit 16) then (16, s.drop 2)
    else (8, s)
  else (10, s)

/-- The sign of a number, and what is behind it. -/
def signOf (s : Text) : Bool × Text :=
  if s.head? = some 45 then (true, s.tail)
  else if s.head? = some 43 then (false, s.tail)
  else (false, s)

/-- What `strtoll` and `strtoull` have in common, for base 0. -/
def strto (nptr : Text) : Strto :=
  let (negative, s) := signOf (nptr.dropWhile isspace)
  let (base, s) := baseOf s
  let digits := s.takeWhile (isDigit base)
  if digits = [] then ⟨false, 0, nptr⟩
  else ⟨negative, digitsValue base digits, s.drop digits.length⟩

/-- `strtoll` on a value, with whether `errno` gets `ERANGE`. -/
def strtoll (number : Strto) : Int × Bool :=
  if number.negative then
    if number.magnitude ≤ 9223372036854775808 then (-number.magnitude, false)
    else (-9223372036854775808, true)
  else
    if number.magnitude ≤ 9223372036854775807 then (number.magnitude, false)
    else (9223372036854775807, true)

/-- `strtoull`, and `strtoul`, on a value, with whether `errno` gets `ERANGE`. -/
def strtoull (number : Strto) : Nat × Bool :=
  if number.magnitude ≤ 18446744073709551615 then
    if number.negative then
      ((18446744073709551616 - number.magnitude) % 18446744073709551616, false)
    else (number.magnitude, false)
  else (18446744073709551615, true)

/-- `struct _prop_number_value`. -/
inductive Number where
  | signed (value : Int64)
  | unsigned (value : UInt64)
deriving DecidableEq

def internalizeSigned (errno : Bool) (cp : Text) : Scan (Number × Text) :=
  let number := strto cp
  if errno && (strtoll number).2 then throw .rejected
  else pure (.signed (Int64.ofInt (strtoll number).1), number.endptr)

def internalizeUnsigned (errno : Bool) (cp : Text) : Scan (Number × Text) :=
  let number := strto cp
  if errno && (strtoull number).2 then throw .rejected
  else pure (.unsigned (UInt64.ofNat (strtoull number).1), number.endptr)

def internalizeNumber (errno : Bool) (cp : Text) : Scan (Number × Text) := do
  if (← charAt cp 0) = 45 then internalizeSigned errno cp
  else if ← looksAt cp 0 (chars "0x") then internalizeUnsigned errno cp
  else
    match internalizeSigned errno cp with
    | .error .rejected => internalizeUnsigned errno cp
    | result => result

/-- A digit of a number in a base up to 16, in lower case. -/
def digitChar (digit : Nat) : UInt8 := UInt8.ofNat (if digit < 10 then 48 + digit else 87 + digit)

/-- The digits of a number in `snprintf`. -/
def toDigits (base : Nat) (n : Nat) : Text :=
  if n = 0 then [48] else ((Nat.digits base n).map digitChar).reverse

/-- The characters of `_prop_number_externalize`. -/
def encodeNumber : Number → Text
  | .unsigned value => chars "0x" ++ toDigits 16 value.toNat
  | .signed value =>
    if value.toInt < 0 then 45 :: toDigits 10 value.toInt.natAbs
    else toDigits 10 value.toInt.natAbs

end Numbers

end NetBSD.Libprop
