import NetBSD.Msdosfs.Conv

/-!
Owns the slots of a long name: what a slot holds of the name, that reading the slots from the last
one on gives the name again, and which names a slot accepts.
-/

namespace NetBSD.Msdosfs

open List

section Names

structure LongName (utf8 : Bool) (un : List UInt8) : Prop where
  notEmpty : un ≠ []
  bytes : un.length ≤ nameMax
  noNul : (0 : UInt8) ∉ un
  noSlash : (0x2f : UInt8) ∉ un
  last : ∀ c, un.getLast? = some c → c ≠ 0x20 ∧ c ≠ 0x2e
  wide : utf8 = true → ∃ chars : List Char, un = chars.flatMap String.utf8EncodeChar ∧
    (∀ c ∈ chars, c.val.toNat ≤ 0xffff) ∧ chars.length ≤ 247
  narrow : utf8 = false → un.length ≤ 247

/-- The bytes of a UCS-2 character. -/
def unitBytes (host : Host) (utf8 : Bool) (w : UInt16) : List UInt8 :=
  if utf8 then ucs2utf8 host w 3 else [(host.htole16 w).toUInt8]

/-- A UCS-2 character that is written as its bytes wherever there is room. -/
def Fits (host : Host) (utf8 : Bool) (w : UInt16) : Prop :=
  if utf8 then ∃ c : Char, c.val.toNat ≤ 0xffff ∧ w = host.htole16 (unit c)
  else ¬ host.htole16 w > 255

/-- The UCS-2 characters of a name. -/
structure Units (host : Host) (utf8 : Bool) (un : List UInt8) (us : List UInt16) : Prop where
  isUcs2 : toUcs2 host utf8 un = us
  isName : dropTrailing un = un
  isCount : winSlotCnt host un utf8 = howmany us.length winChars
  nonzero : ∀ w ∈ us, w ≠ 0
  pos : 0 < us.length
  atMost : us.length ≤ 247
  isBytes : us.flatMap (unitBytes host utf8) = un
  fits : ∀ w ∈ us, Fits host utf8 w

variable (host : Host) {utf8 : Bool} {un : List UInt8} {chars : List Char}

theorem utf8ucs2str_encode (m : Nat) (sml : ∀ c ∈ chars, c.val.toNat ≤ 0xffff)
    (noNul : (0 : UInt8) ∉ chars.flatMap String.utf8EncodeChar) :
    utf8ucs2str host m (chars.flatMap String.utf8EncodeChar) =
      (chars.map fun c => host.htole16 (unit c)).take m := by
  induction m generalizing chars with
  | zero => rfl
  | succ m ih =>
    cases chars with
    | nil => rfl
    | cons c tl =>
      have lt := sml c mem_cons_self
      rw [flatMap_cons] at noNul ⊢
      have noStop : ¬ ((String.utf8EncodeChar c ++ tl.flatMap String.utf8EncodeChar).head? = none ∨
          (String.utf8EncodeChar c ++ tl.flatMap String.utf8EncodeChar).head? = some 0) := by
        rintro (hn | isNul)
        · exact String.utf8EncodeChar_ne_nil
            (append_eq_nil_iff.mp (head?_eq_none_iff.mp hn)).1
        · exact noNul (mem_of_mem_head? isNul)
      rw [utf8ucs2str, if_neg noStop, utf8ucs2_encode host c lt]
      dsimp only
      rw [drop_left' rfl, ih (forall_mem_cons.mp sml).2
        (fun isNul => noNul (mem_append_right _ isNul))]
      rfl

theorem char8ucs2str_eq (m : Nat) (noNul : (0 : UInt8) ∉ un) :
    char8ucs2str host m un = (un.map fun c => host.htole16 c.toUInt16).take m := by
  induction m generalizing un with
  | zero => cases un <;> rfl
  | succ m ih =>
    cases un with
    | nil => rfl
    | cons c tl =>
      have notNul : c ≠ 0 := fun isNul => noNul (isNul ▸ mem_cons_self)
      rw [char8ucs2str, if_neg notNul, ih fun isNul => noNul (mem_cons_of_mem c isNul)]
      rfl

theorem dropTrailing_eq (last : ∀ c, un.getLast? = some c → c ≠ 0x20 ∧ c ≠ 0x2e) :
    dropTrailing un = un := by
  unfold dropTrailing
  rw [rdropWhile_eq_self_iff]
  intro ne isBlank
  obtain ⟨notBlank, notDot⟩ := last _ (getLast?_eq_some_getLast ne)
  rcases of_decide_eq_true isBlank with isBlank | isDot
  · exact notBlank isBlank
  · exact notDot isDot

theorem unit_ne_zero {c : Char} (sml : c.val.toNat ≤ 0xffff)
    (noNul : (0 : UInt8) ∉ String.utf8EncodeChar c) :
    unit c ≠ 0 := by
  intro zero
  apply noNul
  have isUnit := toNat_unit c sml
  rw [zero] at isUnit
  unfold String.utf8EncodeChar
  dsimp only
  rw [← isUnit]
  exact mem_cons_self

/-- A name in UTF-8 has the units of its characters. -/
theorem wide_units (longName : LongName true un)
    (isChars : un = chars.flatMap String.utf8EncodeChar)
    (sml : ∀ c ∈ chars, c.val.toNat ≤ 0xffff) (cnt : chars.length ≤ 247) :
    Units host true un (chars.map fun c => host.htole16 (unit c)) := by
  have name := dropTrailing_eq longName.last
  have dec : utf8ucs2str host winMaxlen un = chars.map fun c => host.htole16 (unit c) := by
    have noNul := longName.noNul
    rw [isChars] at noNul ⊢
    rw [utf8ucs2str_encode host winMaxlen sml noNul]
    apply take_of_length_le
    rw [length_map]
    exact le_trans cnt (by decide)
  refine ⟨dec, name, ?_, ?_, ?_, ?_, ?_, ?_⟩
  · unfold winSlotCnt
    dsimp only
    rw [name, if_pos rfl, dec]
  · intro w isIn
    obtain ⟨c, isChar, rfl⟩ := mem_map.mp isIn
    rw [ne_eq, htole16_eq_zero]
    apply unit_ne_zero (sml c isChar)
    intro isNul
    apply longName.noNul
    rw [isChars]
    exact mem_flatMap.mpr ⟨c, isChar, isNul⟩
  · rw [length_map, length_pos_iff]
    rintro rfl
    exact longName.notEmpty isChars
  · rw [length_map]
    exact cnt
  · rw [isChars, flatMap_map]
    apply flatMap_congr
    intro c isChar
    exact ucs2utf8_unit host c (sml c isChar) (le_refl 3)
  · intro w isIn
    obtain ⟨c, isChar, rfl⟩ := mem_map.mp isIn
    exact ⟨c, sml c isChar, rfl⟩

theorem toNat_widen (c : UInt8) : c.toUInt16.toNat = c.toNat := UInt8.toNat_toUInt16 c

/-- Without UTF-8 each byte is a unit. -/
theorem narrow_units (longName : LongName false un) :
    Units host false un (un.map fun c => host.htole16 c.toUInt16) := by
  have name := dropTrailing_eq longName.last
  have cnt := longName.narrow rfl
  refine ⟨?_, name, ?_, ?_, ?_, ?_, ?_, ?_⟩
  · show char8ucs2str host winMaxlen un = _
    rw [char8ucs2str_eq host winMaxlen longName.noNul]
    apply take_of_length_le
    rw [length_map]
    exact le_trans cnt (by decide)
  · unfold winSlotCnt
    dsimp only
    rw [name, if_neg Bool.false_ne_true, length_map]
  · intro w isIn
    obtain ⟨c, isChar, rfl⟩ := mem_map.mp isIn
    rw [ne_eq, htole16_eq_zero]
    intro zero
    have isNul : c = 0 := by
      apply UInt8.toNat_inj.mp
      rw [← toNat_widen, zero]
      rfl
    exact longName.noNul (isNul ▸ isChar)
  · rw [length_map, length_pos_iff]
    exact longName.notEmpty
  · rw [length_map]
    exact cnt
  · rw [flatMap_map]
    have sgl (c : UInt8) : unitBytes host false (host.htole16 c.toUInt16) = [c] := by
      show [(host.htole16 (host.htole16 c.toUInt16)).toUInt8] = [c]
      rw [htole16_htole16]
      congr 1
      apply UInt8.toNat_inj.mp
      rw [UInt16.toNat_toUInt8, toNat_widen, Nat.mod_eq_of_lt c.toNat_lt]
    rw [flatMap_congr fun c _ => sgl c]
    exact flatMap_singleton' un
  · intro w isIn
    obtain ⟨c, isChar, rfl⟩ := mem_map.mp isIn
    show ¬ host.htole16 (host.htole16 c.toUInt16) > 255
    rw [htole16_htole16, gt_iff_lt]
    have below := c.toNat_lt
    show ¬ 255 < c.toNat
    omega

theorem LongName.units (longName : LongName utf8 un) : ∃ us, Units host utf8 un us := by
  cases utf8 with
  | true =>
    obtain ⟨chars, isChars, sml, cnt⟩ := longName.wide rfl
    exact ⟨_, wide_units host longName isChars sml cnt⟩
  | false => exact ⟨_, narrow_units host longName⟩

end Names

section Bytes

variable {host : Host} {part stop : List UInt16} {m : Nat}

/-- The end of a segment is nothing, or begins with a NUL and is padding. -/
def IsStop (stop : List UInt16) : Prop :=
  (stop = [] ∨ stop.head? = some 0) ∧ (0x2f : UInt16) ∉ stop

section

variable (stops : IsStop stop) (nonzero : ∀ w ∈ part, w ≠ 0)

include stops nonzero

theorem ucs2utf8str_part (fits : ∀ w ∈ part, Fits host true w) (rm : part.length * 3 ≤ m) :
    ucs2utf8str host (part ++ stop) m = part.flatMap (unitBytes host true) := by
  induction part generalizing m with
  | nil =>
    rcases stops.1 with rfl | isNul
    · rfl
    · obtain ⟨tl, rfl⟩ := head?_eq_some_iff.mp isNul
      exact if_pos rfl
  | cons w tl ih =>
    obtain ⟨c, sml, rfl⟩ := fits w mem_cons_self
    rw [length_cons] at rm
    have isUnit := ucs2utf8_unit host c sml (show 3 ≤ m by omega)
    have isByte : unitBytes host true (host.htole16 (unit c)) = String.utf8EncodeChar c :=
      ucs2utf8_unit host c sml (le_refl 3)
    have notNone : (String.utf8EncodeChar c).length ≠ 0 := fun hn =>
      String.utf8EncodeChar_ne_nil (length_eq_zero_iff.mp hn)
    have le : (String.utf8EncodeChar c).length ≤ 3 := by
      rw [← ucs2utf8_unit host c sml (le_refl 3)]
      unfold ucs2utf8
      dsimp only
      split_ifs <;> simp
    rw [cons_append, ucs2utf8str, if_neg (nonzero _ mem_cons_self), isUnit]
    rw [if_neg notNone, ih (forall_mem_cons.mp nonzero).2
      (forall_mem_cons.mp fits).2 (by omega), flatMap_cons, isByte]

theorem ucs2char8str_part (fits : ∀ w ∈ part, Fits host false w) (rm : part.length < m) :
    ucs2char8str host (part ++ stop) m = part.flatMap (unitBytes host false) := by
  induction part generalizing m with
  | nil =>
    rcases stops.1 with rfl | isNul
    · rfl
    · obtain ⟨tl, rfl⟩ := head?_eq_some_iff.mp isNul
      cases m with
      | zero => rfl
      | succ m => exact if_pos rfl
  | cons w tl ih =>
    rw [length_cons] at rm
    cases m with
    | zero => omega
    | succ m =>
      have narrow : ¬ host.htole16 w > 255 := fits w mem_cons_self
      rw [cons_append, ucs2char8str, if_neg (nonzero w mem_cons_self)]
      rw [if_neg narrow, ih (forall_mem_cons.mp nonzero).2
        (forall_mem_cons.mp fits).2 (by omega)]
      rfl

theorem segment_bytes {utf8 : Bool}
    (fits : ∀ w ∈ part, Fits host utf8 w) (cnt : part.length ≤ winChars) :
    (if utf8 then ucs2utf8str host (part ++ stop) (winChars * 3)
      else ucs2char8str host (part ++ stop) (winChars * 3)) = part.flatMap (unitBytes host utf8) := by
  cases utf8 with
  | true =>
    exact ucs2utf8str_part stops nonzero fits (Nat.mul_le_mul_right 3 cnt)
  | false =>
    exact ucs2char8str_part stops nonzero fits (lt_of_le_of_lt cnt (by decide))

end

end Bytes

section Slots

variable {host : Host} {utf8 : Bool} {un : List UInt8} {us : List UInt16} {chksum : UInt8} {n : Nat}

/-- The characters of the slot at a place. -/
def part (us : List UInt16)
    (place : Nat) : List UInt16 := (us.drop (place * winChars)).take winChars

structure IsSlot (us : List UInt16) (chksum : UInt8) (n place : Nat) (wep : WinEntry) : Prop where
  count : (wep.weCnt &&& winCnt).toNat = place + 1
  last : wep.weCnt &&& winLast ≠ 0 ↔ place + 1 = n
  isChksum : wep.weChksum = chksum
  segment : ∃ stop, wep.segment = part us place ++ stop ∧ IsStop stop
  isLong : wep.segment.length = winChars

theorem count_bits : ∀ plc < 19, (UInt8.ofNat (plc + 1) &&& winCnt).toNat = plc + 1 ∧
    ((UInt8.ofNat (plc + 1) ||| winLast) &&& winCnt).toNat = plc + 1 ∧
    UInt8.ofNat (plc + 1) &&& winLast = 0 ∧ (UInt8.ofNat (plc + 1) ||| winLast) &&& winLast ≠ 0 := by
  decide

theorem padded_part (le : us.length ≤ 247) {plc : Nat} (lt : plc * winChars ≤ us.length) :
    ∃ stop, ((ucs2pad us winMaxlen).drop (plc * winChars)).take winChars = part us plc ++ stop ∧
      IsStop stop := by
  have isPadded : ucs2pad us winMaxlen = us ++ 0 :: List.replicate (winMaxlen - (us.length + 1)) 0xffff := by
    unfold ucs2pad
    have short : us.length < winMaxlen - 1 := lt_of_le_of_lt le (by decide)
    dsimp only
    rw [if_pos short, length_append, append_assoc]
    rfl
  rw [isPadded, drop_append_of_le_length lt, take_append]
  generalize winChars - (us.drop (plc * winChars)).length = rm
  refine ⟨_, rfl, ?_, ?_⟩
  · cases rm with
    | zero => exact .inl rfl
    | succ rm => exact .inr rfl
  · intro isSlash
    rcases mem_cons.mp (mem_of_mem_take isSlash) with isNul | isPad
    · exact absurd isNul (by decide)
    · exact absurd (eq_of_mem_replicate isPad) (by decide)

theorem padded_length (le : us.length ≤ 247) {plc : Nat} (below : plc < 19) :
    (((ucs2pad us winMaxlen).drop (plc * winChars)).take winChars).length = winChars := by
  have hsz : (ucs2pad us winMaxlen).length = 255 := by
    have short : us.length < winMaxlen - 1 := lt_of_le_of_lt le (by decide)
    have isMax : winMaxlen = 255 := rfl
    unfold ucs2pad
    rw [if_pos short, length_append, length_append, length_replicate,
      length_singleton]
    omega
  rw [length_take, length_drop, hsz]
  show min 13 (255 - plc * 13) = 13
  omega

theorem unix2winfn_slot (units : Units host utf8 un us) (chksum : UInt8) {plc : Nat}
    (lt : plc * winChars < us.length)
    (last : us.length ≤ plc * winChars + winChars ↔ plc + 1 = n) :
    ∃ wep, unix2winfn host un (plc + 1) chksum utf8 = (wep, decide (plc + 1 ≠ n)) ∧
      IsSlot us chksum n plc wep := by
  have below : plc < 19 := by
    have le := units.atMost
    have lt : plc * 13 < us.length := lt
    omega
  obtain ⟨isCnt, isCntLast, notLast, isLastBit⟩ := count_bits plc below
  obtain ⟨stop, isSegment, isStop⟩ := padded_part units.atMost (le_of_lt lt)
  have isLong := padded_length units.atMost below
  unfold unix2winfn
  dsimp only
  rw [units.isName, units.isUcs2, Nat.add_sub_cancel]
  generalize (ucs2pad us winMaxlen).drop (plc * winChars) = p at isSegment isLong
  have isTake : p.take 5 ++ (p.drop 5).take 6 ++ ((p.drop 5).drop 6).take 2 = p.take winChars := by
    rw [append_assoc, ← take_add, ← take_add]
    rfl
  by_cases more : us.length > plc * winChars + winChars
  · have notEnd : plc + 1 ≠ n := fun isEnd => not_lt.mpr (last.mpr isEnd) more
    rw [if_pos more, decide_eq_true notEnd]
    refine ⟨_, rfl, isCnt, ?_, rfl, ⟨stop, isTake.trans isSegment, isStop⟩,
      (congrArg List.length isTake).trans isLong⟩
    exact ⟨fun isSet => absurd notLast isSet, fun isEnd => absurd isEnd notEnd⟩
  · have isEnd : plc + 1 = n := last.mp (not_lt.mp more)
    rw [if_neg more, decide_eq_false (not_not.mpr isEnd)]
    exact ⟨_, rfl, isCntLast, ⟨fun _ => isEnd, fun _ => isLastBit⟩, rfl, ⟨stop, isTake.trans isSegment, isStop⟩,
      (congrArg List.length isTake).trans isLong⟩

/-- The parts of a name fill its slots. -/
theorem unix2winfns_slots (units : Units host utf8 un us) (chksum : UInt8) {plc calls : Nat}
    (isCount : plc + calls = n) (pos : 0 < calls) (prev : (n - 1) * winChars < us.length)
    (tail : us.length ≤ n * winChars) : ∃ slots,
    unix2winfns host un chksum utf8 calls (plc + 1) = some slots ∧ slots.length = calls ∧
      ∀ i wep, slots[i]? = some wep → IsSlot us chksum n (plc + i) wep := by
  have before13 : (n - 1) * 13 < us.length := prev
  have behind13 : us.length ≤ n * 13 := tail
  induction calls generalizing plc with
  | zero => exact absurd pos (lt_irrefl 0)
  | succ calls ih =>
    obtain ⟨wep, cl, slot⟩ := @unix2winfn_slot host utf8 un us n units chksum plc
      (show plc * 13 < us.length by omega)
      (show us.length ≤ plc * 13 + 13 ↔ plc + 1 = n by omega)
    unfold unix2winfns
    rw [cl]
    by_cases isEnd : plc + 1 = n
    · rw [decide_eq_false (not_not.mpr isEnd)]
      refine ⟨[wep], rfl, by rw [length_singleton]; omega, ?_⟩
      intro i oth isAt
      cases i with
      | zero =>
        obtain rfl := Option.some.inj isAt
        exact slot
      | succ i => cases isAt
    obtain ⟨slots, areSlots, len, each⟩ := ih (show plc + 1 + calls = n by omega) (by omega)
    rw [decide_eq_true isEnd, areSlots]
    refine ⟨wep :: slots, rfl, by rw [length_cons, len], ?_⟩
    intro i oth isAt
    cases i with
    | zero =>
      obtain rfl := Option.some.inj isAt
      exact slot
    | succ i =>
      have next' := each i oth isAt
      rwa [add_assoc, add_comm 1 i] at next'

/-- Reading a slot puts its part before those read already. -/
theorem win2unixfn_slot (units : Units host utf8 un us) (longName : LongName utf8 un) {plc : Nat}
    {wep : WinEntry} {name : List UInt8} {prev : Option UInt8} (slot : IsSlot us chksum n plc wep)
    (below : plc < 20) (valid : (0x2f : UInt16) ∉ us) (tail : us.length ≤ n * winChars)
    (beg : plc + 1 = n ∨ (prev = some chksum ∧
      name = (us.drop ((plc + 1) * winChars)).flatMap (unitBytes host utf8))) :
    win2unixfn host wep name prev utf8 =
      (some chksum, (us.drop (plc * winChars)).flatMap (unitBytes host utf8)) := by
  obtain ⟨stop, isSegment, isStop⟩ := slot.segment
  have isChecked : wep.checked prev = some chksum := by
    unfold WinEntry.checked
    rcases beg with isEnd | ⟨rfl, _⟩
    · rw [if_pos (slot.last.mpr isEnd), slot.isChksum]
    · rw [slot.isChksum]
      split_ifs with isEnd differs
      · rfl
      · exact absurd rfl differs
      · rfl
  have hname : (if wep.weCnt &&& winLast ≠ 0 then [] else name) =
      (us.drop ((plc + 1) * winChars)).flatMap (unitBytes host utf8) := by
    by_cases isEnd : plc + 1 = n
    · rw [if_pos (slot.last.mpr isEnd)]
      rw [drop_eq_nil_of_le (isEnd ▸ tail)]
      rfl
    · rw [if_neg fun isSet => isEnd (slot.last.mp isSet)]
      exact (beg.resolve_left isEnd).2
  have isDrop : us.drop (plc * winChars) = part us plc ++ us.drop ((plc + 1) * winChars) := by
    unfold part
    rw [add_mul, one_mul, ← drop_drop, take_append_drop]
  have isPart : ∀ w ∈ part us plc, w ∈ us := fun w isIn => mem_of_mem_drop (mem_of_mem_take isIn)
  have isValid : invalidname wep.segment = false := by
    unfold invalidname
    rw [isSegment, any_eq_false]
    intro w isIn isSlash
    obtain rfl := of_decide_eq_true isSlash
    rcases mem_append.mp isIn with inPart | inStop
    · exact valid (isPart _ inPart)
    · exact isStop.2 inStop
  have isBytes := segment_bytes isStop (fun w isIn => units.nonzero w (isPart w isIn))
    (fun w isIn => units.fits w (isPart w isIn))
    (length_take_le winChars (us.drop (plc * winChars)))
  have rm : ((us.drop (plc * winChars)).flatMap (unitBytes host utf8)).length ≤ nameMax := by
    have hw := congrArg List.length units.isBytes
    rw [← take_append_drop (plc * winChars) us, flatMap_append, length_append] at hw
    have bytes := longName.bytes
    omega
  unfold win2unixfn
  dsimp only
  rw [slot.count, if_neg (by show ¬ (plc + 1 > 20 ∨ plc + 1 = 0); omega), hname, isChecked]
  dsimp only
  rw [isValid, if_neg Bool.false_ne_true, isSegment, isBytes]
  rw [isDrop, flatMap_append] at rm ⊢
  rw [length_append] at rm
  congr 2
  apply take_of_length_le
  omega

end Slots

end NetBSD.Msdosfs
