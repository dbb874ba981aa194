import Mathlib.Algebra.Order.Ring.Nat
import Mathlib.Data.List.DropRight
import Mathlib.Tactic.SplitIfs

/-!
Owns the long names of `fs/msdosfs/msdosfs_conv.c`: names cut into slots of 13 UCS-2 characters,
read back from the slots, and compared with them. A 16-bit cell of a slot is the number that the
host reads in it.
-/

namespace NetBSD.Msdosfs

open Nat UInt16 UInt8

section Characters

/-- The byte order of the machine. -/
inductive Host where
  | little
  | big
deriving DecidableEq, Repr

/-- `htole16`, and `le16toh` as well. -/
def Host.htole16 : Host → UInt16 → UInt16
  | .little, w => w
  | .big, w => (w <<< 8) ||| (w >>> 8)

/-- The machine with its tables `msdosfs_unicode_foldmap`, as pairs, and `u2l`. -/
structure Machine where
  host : Host
  foldmap : List (UInt16 × UInt16)
  u2l : UInt8 → UInt8

def winChars : Nat := 13

def winMaxlen : Nat := 255

/-- `utf8ucs2`: the bytes that are read and the character, unless the input is too short or
invalid. -/
def utf8ucs2 (host : Host) : List UInt8 → Option (Nat × UInt16)
  | [] => none
  | in0 :: rest =>
    if in0 ≤ 0x7f then some (1, host.htole16 in0.toUInt16)
    else if in0 ≤ 0xdf then
      match rest with
      | in1 :: _ =>
        some (2, host.htole16 (((in0.toUInt16 &&& 0x1f) <<< 6) ||| (in1.toUInt16 &&& 0x3f)))
      | [] => none
    else if in0 ≤ 0xef then
      match rest with
      | in1 :: in2 :: _ =>
        some (3, host.htole16 (((in0.toUInt16 &&& 0x1f) <<< 12) |||
          ((in1.toUInt16 &&& 0x3f) <<< 6) ||| (in2.toUInt16 &&& 0x3f)))
      | _ => none
    else none

/-- `ucs2utf8` into so many bytes: no bytes when there is no room. -/
def ucs2utf8 (host : Host) (w : UInt16) (n : Nat) : List UInt8 :=
  let inch := host.htole16 w
  if inch ≤ 0x7f then if n < 1 then [] else [inch.toUInt8]
  else if inch ≤ 0x7ff then
    if n < 2 then []
    else [((inch >>> 6) ||| 0xc0).toUInt8, ((inch &&& 0x3f) ||| 0x80).toUInt8]
  else if n < 3 then []
  else
    [((inch >>> 12) ||| 0xe0).toUInt8, (((inch >>> 6) &&& 0x3f) ||| 0x80).toUInt8,
      ((inch &&& 0x3f) ||| 0x80).toUInt8]

def utf8ucs2str (host : Host) : Nat → List UInt8 → List UInt16
  | 0, _ => []
  | m + 1, input =>
    if input.head? = none ∨ input.head? = some 0 then []
    else
      match utf8ucs2 host input with
      | none => []
      | some (inlen, out) => out :: utf8ucs2str host m (input.drop inlen)

def ucs2utf8str (host : Host) : List UInt16 → Nat → List UInt8
  | [], _ => []
  | w :: rest, m =>
    if w = 0 then []
    else
      let out := ucs2utf8 host w m
      if out.length = 0 then [] else out ++ ucs2utf8str host rest (m - out.length)

def char8ucs2str (host : Host) : Nat → List UInt8 → List UInt16
  | 0, _ => []
  | _ + 1, [] => []
  | m + 1, c :: rest => if c = 0 then [] else host.htole16 c.toUInt16 :: char8ucs2str host m rest

def ucs2char8str (host : Host) : List UInt16 → Nat → List UInt8
  | [], _ => []
  | _ :: _, 0 => []
  | w :: rest, m + 1 =>
    if w = 0 then []
    else
      let inch := host.htole16 w
      if inch > 255 then [] else inch.toUInt8 :: ucs2char8str host rest m

def ucs2pad (buf : List UInt16) (size : Nat) : List UInt16 :=
  let buf := if buf.length < size - 1 then buf ++ [0] else buf
  buf ++ List.replicate (size - buf.length) 0xffff

def ucs2foldLoop (foldmap : List (UInt16 × UInt16)) (w : UInt16) : Nat → Nat → Nat → UInt16
  | 0, _, _ => w
  | rounds + 1, low, high =>
    if low < high then
      let mid := (low + high) / 2
      let (check, folded) := foldmap[mid]?.getD (0, 0)
      if w = check then folded
      else if w < check then ucs2foldLoop foldmap w rounds low mid
      else ucs2foldLoop foldmap w rounds (mid + 1) high
    else w

def ucs2fold (machine : Machine) (w : UInt16) : UInt16 :=
  machine.host.htole16 (ucs2foldLoop machine.foldmap (machine.host.htole16 w)
    (machine.foldmap.length + 1) 0 machine.foldmap.length)

def ucs2match (machine : Machine) : List UInt16 → List UInt16 → Bool
  | w1 :: rest1, w2 :: rest2 =>
    if w1 = 0 ∨ w2 = 0 then decide (w1 = w2)
    else if ucs2fold machine w1 ≠ ucs2fold machine w2 then false
    else ucs2match machine rest1 rest2
  | _, _ => true

def char8match (machine : Machine) : List UInt16 → List UInt16 → Bool
  | w1 :: rest1, w2 :: rest2 =>
    let u1 := machine.host.htole16 w1
    let u2 := machine.host.htole16 w2
    if u1 = 0 ∨ u2 = 0 then decide (u1 = u2)
    else if u1 > 255 ∨ u2 > 255 then false
    else if machine.u2l u1.toUInt8 ≠ machine.u2l u2.toUInt8 then false
    else char8match machine rest1 rest2
  | _, _ => true

end Characters

section Slots

/-- `struct winentry`. -/
structure WinEntry where
  weCnt : UInt8
  wePart1 : List UInt16
  weAttributes : UInt8
  weReserved1 : UInt8
  weChksum : UInt8
  wePart2 : List UInt16
  weReserved2 : UInt16
  wePart3 : List UInt16
deriving DecidableEq, Repr

def winLast : UInt8 := 0x40

def winCnt : UInt8 := 0x3f

def howmany (x y : Nat) : Nat := (x + (y - 1)) / y

/-- The name without its trailing blanks and dots. -/
def dropTrailing (un : List UInt8) : List UInt8 := un.rdropWhile fun c => c = 0x20 ∨ c = 0x2e

def toUcs2 (host : Host) (utf8 : Bool) (un : List UInt8) : List UInt16 :=
  if utf8 then utf8ucs2str host winMaxlen un else char8ucs2str host winMaxlen un

/-- `unix2winfn`: the slot, and whether another one follows. -/
def unix2winfn (host : Host) (un : List UInt8) (cnt : Nat) (chksum : UInt8) (utf8 : Bool) :
    WinEntry × Bool :=
  let un := dropTrailing un
  let i := (cnt - 1) * winChars
  let name := toUcs2 host utf8 un
  let wn := ucs2pad name winMaxlen
  let p := wn.drop i
  let wep : WinEntry :=
    { weCnt := UInt8.ofNat cnt
      wePart1 := p.take 5
      weAttributes := 0x0f
      weReserved1 := 0
      weChksum := chksum
      wePart2 := (p.drop 5).take 6
      weReserved2 := 0
      wePart3 := ((p.drop 5).drop 6).take 2 }
  if name.length > i + winChars then (wep, true) else ({ wep with weCnt := wep.weCnt ||| winLast }, false)

def WinEntry.segment (wep : WinEntry) : List UInt16 := wep.wePart1 ++ wep.wePart2 ++ wep.wePart3

/-- The comparison of the checksums; -1 is no checksum. -/
def WinEntry.checked (wep : WinEntry) (chksum : Option UInt8) : Option UInt8 :=
  if wep.weCnt &&& winLast ≠ 0 then some wep.weChksum
  else if chksum ≠ some wep.weChksum then none
  else chksum

def winChkName (machine : Machine) (un : List UInt8) (wep : WinEntry) (chksum : Option UInt8)
    (utf8 : Bool) : Option UInt8 := do
  let chksum ← wep.checked chksum
  let i := ((wep.weCnt &&& winCnt).toNat - 1) * winChars
  let name := toUcs2 machine.host utf8 un
  let wn := ucs2pad name winMaxlen
  if i ≥ name.length + 1 then none
  else if wep.weCnt &&& winLast ≠ 0 ∧ name.length > i + winChars then none
  else
    let segment := (wn.drop i).take winChars
    let matches_ := if utf8 then ucs2match machine segment wep.segment
      else char8match machine segment wep.segment
    if matches_ then some chksum else none

def invalidname (wn : List UInt16) : Bool := wn.any fun w => w = 0x2f

/-- The bytes of a name in `struct dirent`, without the last one. -/
def nameMax : Nat := 511

def win2unixfn (host : Host) (wep : WinEntry) (name : List UInt8) (chksum : Option UInt8)
    (utf8 : Bool) :
    Option UInt8 × List UInt8 :=
  let cnt := (wep.weCnt &&& winCnt).toNat
  if cnt > howmany winMaxlen winChars ∨ cnt = 0 then (none, name)
  else
    let name := if wep.weCnt &&& winLast ≠ 0 then [] else name
    match wep.checked chksum with
    | none => (none, name)
    | some chksum =>
      let wn := wep.segment
      if invalidname wn then (none, name)
      else
        let buf := if utf8 then ucs2utf8str host wn (winChars * 3)
          else ucs2char8str host wn (winChars * 3)
        let namlen := min (name.length + buf.length) nameMax
        (some chksum, buf ++ name.take (namlen - buf.length))

def winSlotCnt (host : Host) (un : List UInt8) (utf8 : Bool) : Nat :=
  let un := dropTrailing un
  let len := if utf8 then (utf8ucs2str host winMaxlen un).length else un.length
  howmany len winChars

/-- The slots from a count on until `unix2winfn` returns 0, in so many calls. -/
def unix2winfns (host : Host) (un : List UInt8) (chksum : UInt8) (utf8 : Bool) :
    Nat → Nat → Option (List WinEntry)
  | 0, _ => none
  | calls + 1, cnt =>
    let (wep, more) := unix2winfn host un cnt chksum utf8
    if more then (unix2winfns host un chksum utf8 calls (cnt + 1)).map fun rest => wep :: rest
    else some [wep]

/-- The checksums that `win2unixfn` returns for slots one after the other, and the name. -/
def win2unixfns (host : Host) (utf8 : Bool) :
    List WinEntry → List UInt8 → Option UInt8 → List (Option UInt8) × List UInt8
  | [], name, _ => ([], name)
  | wep :: rest, name, chksum =>
    let (chksum, name) := win2unixfn host wep name chksum utf8
    let (returned, name) := win2unixfns host utf8 rest name chksum
    (chksum :: returned, name)

end Slots

/-!
### Characters

The characters of a long name: a character up to U+FFFF is read from its UTF-8 bytes and written as
the same bytes, in either byte order.
-/

section Order

variable (host : Host) (w : UInt16)

theorem or_eq_add {high low bits : Nat} (below : low < 2 ^ bits) :
    high * 2 ^ bits ||| low = high * 2 ^ bits + low := by
  rw [← shiftLeft_eq, shiftLeft_add_eq_or_of_lt below]

theorem toNat_htole16_big : (Host.big.htole16 w).toNat = w.toNat % 256 * 256 + w.toNat / 256 := by
  have below := w.toNat_lt
  show ((w <<< 8) ||| (w >>> 8)).toNat = _
  show (w.toNat <<< 8) % 2 ^ 16 ||| w.toNat >>> 8 = _
  rw [shiftLeft_eq, shiftRight_eq_div_pow,
    show w.toNat * 2 ^ 8 % 2 ^ 16 = w.toNat % 256 * 2 ^ 8 by omega, or_eq_add (by omega)]
  rfl

theorem htole16_htole16 : host.htole16 (host.htole16 w) = w := by
  cases host with
  | little => rfl
  | big =>
    apply UInt16.toNat_inj.mp
    have below := w.toNat_lt
    rw [toNat_htole16_big, toNat_htole16_big]
    omega

theorem htole16_inj {v : UInt16} : host.htole16 v = host.htole16 w ↔ v = w := by
  constructor
  · intro same
    rw [← htole16_htole16 host v, same, htole16_htole16]
  · exact congrArg host.htole16

theorem htole16_eq_zero : host.htole16 w = 0 ↔ w = 0 := by
  have zero : host.htole16 0 = 0 := by
    cases host <;> rfl
  constructor
  · intro same
    exact (htole16_inj host 0).mp (same.trans zero.symm)
  · intro same
    rw [same]
    exact zero

end Order

section Utf8

variable (host : Host) (c : Char)

/-- A character up to U+FFFF as a number of 16 bits. -/
def unit (c : Char) : UInt16 := c.val.toUInt16

theorem toNat_unit (sml : c.val.toNat ≤ 0xffff) : (unit c).toNat = c.val.toNat := by
  unfold unit
  rw [UInt32.toNat_toUInt16]
  omega

theorem toNat_byte {n : Nat} (below : n < 256) :
    (UInt8.ofNat n).toNat = n ∧ (UInt8.ofNat n).toUInt16.toNat = n := by
  have isByte : (UInt8.ofNat n).toNat = n := by
    rw [UInt8.toNat_ofNat', mod_eq_of_lt below]
  exact ⟨isByte, isByte⟩

theorem toNat_low {n bits : Nat} {mask : UInt16} (below : n < 256)
    (isMask : mask.toNat = 2 ^ bits - 1) :
    ((UInt8.ofNat n).toUInt16 &&& mask).toNat = n % 2 ^ bits := by
  rw [UInt16.toNat_and, (toNat_byte below).2, isMask, and_two_pow_sub_one_eq_mod]

theorem toNat_shift {v : UInt16} {bits : Nat} {amount : UInt16} (isAmount : amount.toNat = bits)
    (below : bits < 16) (fits : v.toNat * 2 ^ bits < 2 ^ 16) :
    (v <<< amount).toNat = v.toNat * 2 ^ bits := by
  rw [UInt16.toNat_shiftLeft, isAmount, mod_eq_of_lt below, shiftLeft_eq, mod_eq_of_lt fits]

/-- A character of the first plane decodes to its unit. -/
theorem utf8ucs2_encode (sml : c.val.toNat ≤ 0xffff) (tl : List UInt8) :
    utf8ucs2 host (String.utf8EncodeChar c ++ tl) =
      some ((String.utf8EncodeChar c).length, host.htole16 (unit c)) := by
  have isUnit := toNat_unit c sml
  unfold String.utf8EncodeChar
  dsimp only
  generalize c.val.toNat = v at sml isUnit
  by_cases one : v ≤ 0x7f
  · rw [if_pos one]
    have byte := toNat_byte (show v < 256 by omega)
    show (if UInt8.ofNat v ≤ 0x7f then some (1, host.htole16 (UInt8.ofNat v).toUInt16) else _) = some (1, _)
    rw [if_pos (UInt8.le_iff_toNat_le.mpr (by rw [byte.1]; exact one))]
    congr 3
    exact UInt16.toNat_inj.mp (byte.2.trans isUnit.symm)
  rw [if_neg one]
  by_cases two : v ≤ 0x7ff
  · rw [if_pos two]
    have byte := toNat_byte (show v / 64 % 0x20 + 0xc0 < 256 by omega)
    show (if UInt8.ofNat (v / 64 % 0x20 + 0xc0) ≤ 0x7f then _
      else if UInt8.ofNat (v / 64 % 0x20 + 0xc0) ≤ 0xdf then _ else _) = _
    rw [if_neg (by rw [UInt8.le_iff_toNat_le, byte.1]; show ¬ _ ≤ 127; omega),
      if_pos (by rw [UInt8.le_iff_toNat_le, byte.1]; show _ ≤ 223; omega)]
    have high := @toNat_low (v / 64 % 0x20 + 0xc0) 5 0x1f (by omega) rfl
    have low := @toNat_low (v % 0x40 + 0x80) 6 0x3f (by omega) rfl
    have hw : (((UInt8.ofNat (v / 64 % 0x20 + 0xc0)).toUInt16 &&& 0x1f) <<< 6 |||
        ((UInt8.ofNat (v % 0x40 + 0x80)).toUInt16 &&& 0x3f)) = unit c := by
      apply UInt16.toNat_inj.mp
      rw [UInt16.toNat_or, @toNat_shift _ 6 6 rfl (by decide) (by omega), high, low, isUnit,
        or_eq_add (by omega)]
      omega
    exact congrArg (fun w => some (2, host.htole16 w)) hw
  rw [if_neg two, if_pos sml]
  have byte := toNat_byte (show v / 4096 % 0x10 + 0xe0 < 256 by omega)
  show (if UInt8.ofNat (v / 4096 % 0x10 + 0xe0) ≤ 0x7f then _
    else if UInt8.ofNat (v / 4096 % 0x10 + 0xe0) ≤ 0xdf then _
    else if UInt8.ofNat (v / 4096 % 0x10 + 0xe0) ≤ 0xef then _ else _) = _
  rw [if_neg (by rw [UInt8.le_iff_toNat_le, byte.1]; show ¬ _ ≤ 127; omega),
    if_neg (by rw [UInt8.le_iff_toNat_le, byte.1]; show ¬ _ ≤ 223; omega),
    if_pos (by rw [UInt8.le_iff_toNat_le, byte.1]; show _ ≤ 239; omega)]
  have high := @toNat_low (v / 4096 % 0x10 + 0xe0) 5 0x1f (by omega) rfl
  have middle := @toNat_low (v / 64 % 0x40 + 0x80) 6 0x3f (by omega) rfl
  have low := @toNat_low (v % 0x40 + 0x80) 6 0x3f (by omega) rfl
  have hw : (((UInt8.ofNat (v / 4096 % 0x10 + 0xe0)).toUInt16 &&& 0x1f) <<< 12 |||
      ((UInt8.ofNat (v / 64 % 0x40 + 0x80)).toUInt16 &&& 0x3f) <<< 6 |||
      ((UInt8.ofNat (v % 0x40 + 0x80)).toUInt16 &&& 0x3f)) = unit c := by
    apply UInt16.toNat_inj.mp
    rw [UInt16.toNat_or, UInt16.toNat_or, @toNat_shift _ 12 12 rfl (by decide) (by omega),
      @toNat_shift _ 6 6 rfl (by decide) (by omega), high, middle, low, isUnit,
      or_eq_add (show (v / 64 % 0x40 + 0x80) % 2 ^ 6 * 2 ^ 6 < 2 ^ 12 by omega),
      show (v / 4096 % 0x10 + 0xe0) % 2 ^ 5 * 2 ^ 12 + (v / 64 % 0x40 + 0x80) % 2 ^ 6 * 2 ^ 6 =
        ((v / 4096 % 0x10 + 0xe0) % 2 ^ 5 * 2 ^ 6 + (v / 64 % 0x40 + 0x80) % 2 ^ 6) * 2 ^ 6 by omega,
      or_eq_add (by omega)]
    omega
  exact congrArg (fun w => some (3, host.htole16 w)) hw

theorem byte_eq {v : UInt16} {high : UInt16} {bits n : Nat} (hi : high.toNat = n * 2 ^ bits)
    (below : v.toNat < 2 ^ bits) : (v ||| high).toUInt8 = UInt8.ofNat (v.toNat + n * 2 ^ bits) := by
  apply UInt8.toNat_inj.mp
  rw [toNat_toUInt8, UInt16.toNat_or, hi, Nat.or_comm, or_eq_add below, UInt8.toNat_ofNat',
    add_comm]

theorem toNat_shiftRight {v : UInt16} {bits : Nat} {amount : UInt16}
    (isAmount : amount.toNat = bits)
    (below : bits < 16) : (v >>> amount).toNat = v.toNat / 2 ^ bits := by
  rw [UInt16.toNat_shiftRight, isAmount, mod_eq_of_lt below, shiftRight_eq_div_pow]

/-- A unit encodes to its character's bytes. -/
theorem ucs2utf8_unit (sml : c.val.toNat ≤ 0xffff) {n : Nat} (rm : 3 ≤ n) :
    ucs2utf8 host (host.htole16 (unit c)) n = String.utf8EncodeChar c := by
  have isUnit := toNat_unit c sml
  unfold ucs2utf8 String.utf8EncodeChar
  rw [htole16_htole16]
  generalize c.val.toNat = v at sml isUnit
  have masked : (unit c &&& 0x3f).toNat = v % 2 ^ 6 := by
    rw [UInt16.toNat_and, isUnit]
    exact and_two_pow_sub_one_eq_mod v 6
  have isLow : (unit c &&& 0x3f ||| 0x80).toUInt8 = UInt8.ofNat (v % 0x40 + 0x80) := by
    rw [@byte_eq _ 0x80 6 2 rfl (by omega), masked]
    rfl
  by_cases one : v ≤ 0x7f
  · rw [if_pos one, if_pos (by rw [UInt16.le_iff_toNat_le, isUnit]; exact one), if_neg (by omega)]
    congr 1
    apply UInt8.toNat_inj.mp
    rw [toNat_toUInt8, isUnit, UInt8.toNat_ofNat']
  rw [if_neg one, if_neg (by rw [UInt16.le_iff_toNat_le, isUnit]; exact one)]
  by_cases two : v ≤ 0x7ff
  · have hi : (unit c >>> 6 ||| 0xc0).toUInt8 = UInt8.ofNat (v / 64 % 0x20 + 0xc0) := by
      have shd := @toNat_shiftRight (unit c) 6 6 rfl (by decide)
      rw [@byte_eq _ 0xc0 6 3 rfl (by omega)]
      congr 1
      omega
    rw [if_pos two, if_pos (by rw [UInt16.le_iff_toNat_le, isUnit]; exact two), if_neg (by omega), isLow,
      hi]
  have shd := @toNat_shiftRight (unit c) 12 12 rfl (by decide)
  have hi : (unit c >>> 12 ||| 0xe0).toUInt8 = UInt8.ofNat (v / 4096 % 0x10 + 0xe0) := by
    rw [@byte_eq _ 0xe0 5 7 rfl (by omega), shd]
    congr 1
    omega
  have isMiddle : (unit c >>> 6 &&& 0x3f ||| 0x80).toUInt8 = UInt8.ofNat (v / 64 % 0x40 + 0x80) := by
    have middle : (unit c >>> 6 &&& 0x3f).toNat = v / 64 % 2 ^ 6 := by
      rw [UInt16.toNat_and, @toNat_shiftRight (unit c) 6 6 rfl (by decide), isUnit]
      exact and_two_pow_sub_one_eq_mod (v / 2 ^ 6) 6
    rw [@byte_eq _ 0x80 6 2 rfl (by omega), middle]
    rfl
  rw [if_neg two, if_neg (by rw [UInt16.le_iff_toNat_le, isUnit]; exact two), if_neg (by omega),
    if_pos sml, isLow, hi, isMiddle]

end Utf8

end NetBSD.Msdosfs
