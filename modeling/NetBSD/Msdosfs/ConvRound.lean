import NetBSD.Msdosfs.ConvSlots

/-!
Owns the round trip of long names through their slots. A big-endian machine takes U+2F00 for a slash
when it reads a slot, for `invalidname` compares a character that is not converted; every other name
comes back as it was, and the slots accept the names that fold to it.
-/

namespace NetBSD.Msdosfs

open List Option

section Read

variable {host : Host} {utf8 : Bool} {un : List UInt8} {us : List UInt16} {chksum : UInt8}
  {slots : List WinEntry}

/-- The slots in front of a place, read from the last one on, when those behind it were read. -/
theorem win2unixfns_slots (units : Units host utf8 un us) (longName : LongName utf8 un)
    (each : ∀ i wep, slots[i]? = some wep → IsSlot us chksum slots.length i wep)
    (tail : us.length ≤ slots.length * winChars) (cnt : slots.length ≤ 20)
    (valid : (0x2f : UInt16) ∉ us) {m : Nat} (le : m ≤ slots.length) (name : List UInt8)
    (prev : Option UInt8) (beg : (m = slots.length ∧ 0 < m) ∨
      (prev = some chksum ∧ name = (us.drop (m * winChars)).flatMap (unitBytes host utf8))) :
    win2unixfns host utf8 (slots.take m).reverse name prev = (List.replicate m (some chksum), un) := by
  induction m generalizing name prev with
  | zero =>
    obtain ⟨_, rfl⟩ := beg.resolve_left fun both => absurd both.2 (lt_irrefl 0)
    rw [zero_mul, drop_zero, units.isBytes]
    rfl
  | succ m ih =>
    have isAt := getElem?_eq_getElem (show m < slots.length from le)
    have isFront : (slots.take (m + 1)).reverse = slots[m] :: (slots.take m).reverse := by
      rw [take_succ_eq_append_getElem le, reverse_append]
      rfl
    have cl : win2unixfn host slots[m] name prev utf8 =
        (some chksum, (us.drop (m * winChars)).flatMap (unitBytes host utf8)) :=
      win2unixfn_slot units longName (each m _ isAt) (lt_of_lt_of_le le cnt) valid tail
        (beg.imp_left And.left)
    rw [isFront, win2unixfns, cl]
    dsimp only
    rw [ih (le_of_lt le) _ _ (.inr ⟨rfl, rfl⟩)]
    rfl

theorem win2unixfns_invalid {wep : WinEntry} (isIn : wep ∈ slots)
    (invalid : invalidname wep.segment = true)
    (name : List UInt8)
    (prev : Option UInt8) : none ∈ (win2unixfns host utf8 slots name prev).1 := by
  induction slots generalizing name prev with
  | nil => cases isIn
  | cons head tl ih =>
    rcases mem_cons.mp isIn with rfl | late
    · have refused : (win2unixfn host wep name prev utf8).1 = none := by
        unfold win2unixfn
        dsimp only
        split
        · rfl
        · split
          · rfl
          · rfl
      exact mem_cons.mpr (.inl refused.symm)
    · exact mem_cons.mpr (.inr (ih late _ _))

end Read

section Match

variable {machine : Machine} {utf8 : Bool}

/-- What two characters that match have in common. -/
def foldUnit (machine : Machine) (utf8 : Bool) (w : UInt16) : UInt16 :=
  if utf8 then ucs2fold machine w else (machine.u2l (machine.host.htole16 w).toUInt8).toUInt16

/-- The case-insensitive string of a name. -/
def folded (machine : Machine) (utf8 : Bool) (un : List UInt8) : List UInt16 :=
  (toUcs2 machine.host utf8 un).map (foldUnit machine utf8)

theorem toUInt16_inj {a b : UInt8} : a.toUInt16 = b.toUInt16 ↔ a = b := by
  constructor
  · intro same
    apply UInt8.toNat_inj.mp
    rw [← toNat_widen, same, toNat_widen]
  · exact congrArg UInt8.toUInt16

/-- The comparison of one segment with another. -/
def segmentMatch (machine : Machine) (utf8 : Bool) (left right : List UInt16) : Bool :=
  if utf8 then ucs2match machine left right else char8match machine left right

theorem segmentMatch_cons {v w : UInt16} {left right : List UInt16} (vNonzero : v ≠ 0)
    (wNonzero : w ≠ 0)
    (vFits : Fits machine.host utf8 v) (wFits : Fits machine.host utf8 w) :
    segmentMatch machine utf8 (v :: left) (w :: right) =
      (decide (foldUnit machine utf8 v = foldUnit machine utf8 w) &&
        segmentMatch machine utf8 left right) := by
  have vSwapped : machine.host.htole16 v ≠ 0 := fun zero => vNonzero ((htole16_eq_zero _ _).mp zero)
  have wSwapped : machine.host.htole16 w ≠ 0 := fun zero => wNonzero ((htole16_eq_zero _ _).mp zero)
  cases utf8 with
  | true =>
    show ucs2match machine (v :: left) (w :: right) =
      (decide (ucs2fold machine v = ucs2fold machine w) && ucs2match machine left right)
    rw [ucs2match, if_neg (not_or.mpr ⟨vNonzero, wNonzero⟩)]
    by_cases same : ucs2fold machine v = ucs2fold machine w
    · rw [if_neg (not_not.mpr same), decide_eq_true same, Bool.true_and]
    · rw [if_pos same, decide_eq_false same, Bool.false_and]
  | false =>
    show char8match machine (v :: left) (w :: right) =
      (decide ((machine.u2l (machine.host.htole16 v).toUInt8).toUInt16 =
        (machine.u2l (machine.host.htole16 w).toUInt8).toUInt16) && char8match machine left right)
    rw [char8match, if_neg (not_or.mpr ⟨vSwapped, wSwapped⟩), if_neg (not_or.mpr ⟨vFits, wFits⟩)]
    by_cases same : machine.u2l (machine.host.htole16 v).toUInt8 = machine.u2l (machine.host.htole16 w).toUInt8
    · rw [if_neg (not_not.mpr same), decide_eq_true (toUInt16_inj.mpr same), Bool.true_and]
    · rw [if_pos same, decide_eq_false fun both => same (toUInt16_inj.mp both), Bool.false_and]

theorem segmentMatch_stop {v w : UInt16} {left right : List UInt16} (oneStops : v = 0 ∨ w = 0) :
    segmentMatch machine utf8 (v :: left) (w :: right) = decide (v = w) := by
  cases utf8 with
  | true => exact if_pos oneStops
  | false =>
    show char8match machine (v :: left) (w :: right) = _
    rw [char8match, if_pos (oneStops.imp (htole16_eq_zero _ _).mpr (htole16_eq_zero _ _).mpr)]
    exact decide_eq_decide.mpr (htole16_inj _ _)

/-- Segments match when their units fold alike. -/
theorem segmentMatch_iff {left right leftStop rightStop : List UInt16}
    (leftStops : IsStop leftStop) (rightStops : IsStop rightStop)
    (leftNonzero : ∀ w ∈ left, w ≠ 0) (rightNonzero : ∀ w ∈ right, w ≠ 0)
    (leftFits : ∀ w ∈ left, Fits machine.host utf8 w)
    (rightFits : ∀ w ∈ right, Fits machine.host utf8 w)
    (eqLen : (left ++ leftStop).length = (right ++ rightStop).length) :
    segmentMatch machine utf8 (left ++ leftStop) (right ++ rightStop) = true ↔
      left.map (foldUnit machine utf8) = right.map (foldUnit machine utf8) := by
  induction left generalizing right with
  | nil =>
    cases right with
    | nil =>
      refine ⟨fun _ => rfl, fun _ => ?_⟩
      rw [nil_append, nil_append] at eqLen ⊢
      rcases leftStops.1 with rfl | leftNul
      · rw [eq_nil_of_length_eq_zero eqLen.symm]
        cases utf8 <;> rfl
      obtain ⟨leftRest, rfl⟩ := head?_eq_some_iff.mp leftNul
      rcases rightStops.1 with rfl | rightNul
      · cases eqLen
      · obtain ⟨rightRest, rfl⟩ := head?_eq_some_iff.mp rightNul
        rw [segmentMatch_stop (.inl rfl)]
        rfl
    | cons w right =>
      rcases leftStops.1 with rfl | leftNul
      · cases eqLen
      obtain ⟨leftRest, rfl⟩ := head?_eq_some_iff.mp leftNul
      rw [nil_append, cons_append, segmentMatch_stop (.inl rfl)]
      constructor
      · intro isNul
        exact absurd (of_decide_eq_true isNul).symm (rightNonzero w mem_cons_self)
      · intro same
        cases same
  | cons v left ih =>
    cases right with
    | nil =>
      rcases rightStops.1 with rfl | rightNul
      · cases eqLen
      obtain ⟨rightRest, rfl⟩ := head?_eq_some_iff.mp rightNul
      rw [nil_append, cons_append, segmentMatch_stop (.inr rfl)]
      constructor
      · intro isNul
        exact absurd (of_decide_eq_true isNul) (leftNonzero v mem_cons_self)
      · intro same
        cases same
    | cons w right =>
      have tl := @ih right (forall_mem_cons.mp leftNonzero).2
        (forall_mem_cons.mp rightNonzero).2
        (forall_mem_cons.mp leftFits).2
        (forall_mem_cons.mp rightFits).2 (Nat.succ.inj eqLen)
      rw [cons_append, cons_append,
        segmentMatch_cons (leftNonzero v mem_cons_self) (rightNonzero w mem_cons_self)
          (leftFits v mem_cons_self) (rightFits w mem_cons_self),
        Bool.and_eq_true, decide_eq_true_iff, tl, map_cons, map_cons]
      exact ⟨fun both => cons_eq_cons.mpr both, fun same => cons_eq_cons.mp same⟩

/-- A slot accepts a name whose part folds like its own. -/
theorem winChkName_slot {oth : List UInt8} {us vs : List UInt16} {chksum : UInt8} {n plc : Nat}
    {wep : WinEntry} (slot : IsSlot us chksum n plc wep)
    (usNonzero : ∀ w ∈ us, w ≠ 0) (usFits : ∀ w ∈ us, Fits machine.host utf8 w)
    (units : Units machine.host utf8 oth vs) (below : plc < 19) :
    winChkName machine oth wep (some chksum) utf8 = some chksum ↔
      plc * winChars ≤ vs.length ∧ (plc + 1 = n → vs.length ≤ plc * winChars + winChars) ∧
        (part vs plc).map (foldUnit machine utf8) = (part us plc).map (foldUnit machine utf8) := by
  have isChecked : wep.checked (some chksum) = some chksum := by
    unfold WinEntry.checked
    rw [slot.isChksum, if_neg (not_not.mpr rfl)]
    exact ite_self _
  unfold winChkName
  rw [isChecked, bind_eq_bind, bind_some, slot.count, units.isUcs2]
  rw [Nat.add_sub_cancel]
  by_cases aft : plc * winChars ≥ vs.length + 1
  · rw [if_pos aft]
    constructor
    · intro hn
      cases hn
    · intro both
      omega
  rw [if_neg aft]
  by_cases isLonger : wep.weCnt &&& winLast ≠ 0 ∧ vs.length > plc * winChars + winChars
  · rw [if_pos isLonger]
    constructor
    · intro hn
      cases hn
    · intro both
      have lt := both.2.1 (slot.last.mp isLonger.1)
      omega
  rw [if_neg isLonger]
  obtain ⟨stop, isSegment, isStop⟩ := slot.segment
  have bnd : plc * winChars ≤ vs.length := by omega
  obtain ⟨padStop, isPadded, isPadStop⟩ := padded_part units.atMost bnd
  have eqLen : (part vs plc ++ padStop).length = (part us plc ++ stop).length := by
    rw [← isPadded, ← isSegment, slot.isLong]
    exact padded_length units.atMost below
  have isMatch := @segmentMatch_iff machine utf8 (part vs plc) (part us plc) padStop stop isPadStop isStop
    (fun w isIn => units.nonzero w (mem_of_mem_drop (mem_of_mem_take isIn)))
    (fun w isIn => usNonzero w (mem_of_mem_drop (mem_of_mem_take isIn)))
    (fun w isIn => units.fits w (mem_of_mem_drop (mem_of_mem_take isIn)))
    (fun w isIn => usFits w (mem_of_mem_drop (mem_of_mem_take isIn))) eqLen
  have lt : plc + 1 = n → vs.length ≤ plc * winChars + winChars := by
    intro isEnd
    have notLonger := not_and.mp isLonger (slot.last.mpr isEnd)
    omega
  rw [isPadded, isSegment]
  show (if segmentMatch machine utf8 (part vs plc ++ padStop) (part us plc ++ stop) = true then
    some chksum else none) = some chksum ↔ _
  rw [← isMatch]
  constructor
  · intro acc
    refine ⟨bnd, lt, ?_⟩
    by_contra ne
    rw [if_neg ne] at acc
    cases acc
  · intro both
    rw [if_pos both.2.2]

theorem eq_of_parts {α : Type} {left right : List α} {n : Nat}
    (leftShort : left.length ≤ n * winChars)
    (rightShort : right.length ≤ n * winChars)
    (same : ∀ plc < n, (left.drop (plc * winChars)).take winChars =
      (right.drop (plc * winChars)).take winChars) : left = right := by
  apply ext_getElem?
  intro i
  have leftShort : left.length ≤ n * 13 := leftShort
  have rightShort : right.length ≤ n * 13 := rightShort
  by_cases lt : i < n * 13
  · have piece := congrArg (fun l => l[i % 13]?) (same (i / 13) (by omega))
    have rst : i % 13 < winChars := Nat.mod_lt i (by decide)
    have at' : i / 13 * winChars + i % 13 = i := by
      show i / 13 * 13 + i % 13 = i
      omega
    rwa [getElem?_take_of_lt rst, getElem?_take_of_lt rst, getElem?_drop,
      getElem?_drop, at'] at piece
  · rw [getElem?_eq_none (by omega), getElem?_eq_none (by omega)]

end Match

section Round

variable {machine : Machine} {utf8 : Bool} {un : List UInt8} {chksum : UInt8}

/-- The slots of a name: as many as `winSlotCnt` says, the name when they are read from the last
one on, with the checksum each time, and accepted by the names that fold to the same string. -/
structure RoundTrip (machine : Machine) (utf8 : Bool) (un : List UInt8) (chksum : UInt8)
    (slots : List WinEntry) : Prop where
  written : unix2winfns machine.host un chksum utf8 (winSlotCnt machine.host un utf8) 1 = some slots
  count : slots.length = winSlotCnt machine.host un utf8
  last : ∀ i wep, slots[i]? = some wep → (wep.weCnt &&& winLast ≠ 0 ↔ i + 1 = slots.length)
  read : ∀ name before, win2unixfns machine.host utf8 slots.reverse name before =
    (List.replicate slots.length (some chksum), un)
  accepts : ∀ other, LongName utf8 other →
    ((∀ wep ∈ slots, winChkName machine other wep (some chksum) utf8 = some chksum) ↔
      folded machine utf8 other = folded machine utf8 un)

def TakenForSlash (machine : Machine) (utf8 : Bool) (un : List UInt8) : Prop :=
  machine.host = .big ∧ utf8 = true ∧ ∃ chars : List Char, un = chars.flatMap String.utf8EncodeChar ∧
    (∀ c ∈ chars, c.val.toNat ≤ 0xffff) ∧ Char.ofNat 0x2f00 ∈ chars

/-- A slash appears only where a big-endian host swaps the unit `0x2f00`. -/
theorem slash_iff {us : List UInt16} (units : Units machine.host utf8 un us)
    (longName : LongName utf8 un) : (0x2f : UInt16) ∈ us ↔ TakenForSlash machine utf8 un := by
  constructor
  · intro isIn
    cases utf8 with
    | true =>
      obtain ⟨chars, isChars, sml, cnt⟩ := longName.wide rfl
      rw [← units.isUcs2, (wide_units machine.host longName isChars sml cnt).isUcs2] at isIn
      obtain ⟨c, isChar, isSlash⟩ := mem_map.mp isIn
      have isUnit := toNat_unit c (sml c isChar)
      rw [← htole16_inj machine.host, htole16_htole16] at isSlash
      cases isHost : machine.host with
      | little =>
        have isNumber : c.val.toNat = 0x2f := by
          rw [← isUnit, isSlash, isHost]
          rfl
        refine absurd ?_ longName.noSlash
        rw [isChars]
        refine mem_flatMap.mpr ⟨c, isChar, ?_⟩
        unfold String.utf8EncodeChar
        rw [isNumber]
        decide
      | big =>
        have isNumber : c.val.toNat = 0x2f00 := by
          rw [← isUnit, isSlash, isHost]
          rfl
        have isSame : c = Char.ofNat 0x2f00 :=
          Char.ext (UInt32.toNat_inj.mp (isNumber.trans (by decide)))
        exact ⟨isHost, rfl, chars, isChars, sml, isSame ▸ isChar⟩
    | false =>
      rw [← units.isUcs2, (narrow_units machine.host longName).isUcs2] at isIn
      obtain ⟨c, isChar, isSlash⟩ := mem_map.mp isIn
      cases isHost : machine.host with
      | little =>
        rw [isHost] at isSlash
        have isSame : c = 0x2f := toUInt16_inj.mp isSlash
        exact absurd (isSame ▸ isChar) longName.noSlash
      | big =>
        rw [isHost] at isSlash
        have isNumber := congrArg UInt16.toNat isSlash
        rw [toNat_htole16_big] at isNumber
        have below := c.toNat_lt
        have isNumber : c.toNat % 256 * 256 + c.toNat / 256 = 47 := isNumber
        omega
  · rintro ⟨isHost, rfl, chars, isChars, sml, isIn⟩
    have noNul := longName.noNul
    rw [isChars] at noNul
    have dec : (chars.map fun c => machine.host.htole16 (unit c)).take winMaxlen = us := by
      rw [← utf8ucs2str_encode machine.host winMaxlen sml noNul, ← isChars]
      exact units.isUcs2
    have le := units.atMost
    have hsh : chars.length < winMaxlen := by
      rw [← dec, length_take, length_map] at le
      show chars.length < 255
      have le : min 255 chars.length ≤ 247 := le
      omega
    rw [take_of_length_le (by rw [length_map]; exact le_of_lt hsh)] at dec
    rw [← dec, isHost]
    exact mem_map.mpr ⟨_, isIn, by decide⟩

theorem mem_part {us : List UInt16} {n : Nat} {w : UInt16} (isIn : w ∈ us)
    (tail : us.length ≤ n * winChars) : ∃ plc < n, w ∈ part us plc := by
  obtain ⟨i, isAt⟩ := List.getElem?_of_mem isIn
  have lt := (List.getElem?_eq_some_iff.mp isAt).1
  have tail : us.length ≤ n * 13 := tail
  refine ⟨i / 13, by omega, mem_of_getElem? (i := i % 13) ?_⟩
  have rst : i % 13 < winChars := Nat.mod_lt i (by decide)
  have at' : i / 13 * winChars + i % 13 = i := by
    show i / 13 * 13 + i % 13 = i
    omega
  unfold part
  rw [getElem?_take_of_lt rst, getElem?_drop, at']
  exact isAt

/-- All slots together accept exactly the names that fold alike. -/
theorem accepts_iff {us vs : List UInt16} {oth : List UInt8} {slots : List WinEntry}
    (units : Units machine.host utf8 un us) (otherUnits : Units machine.host utf8 oth vs)
    (each : ∀ i wep, slots[i]? = some wep → IsSlot us chksum slots.length i wep)
    (prev : (slots.length - 1) * winChars < us.length) (tail : us.length ≤ slots.length * winChars)
    (pos : 0 < slots.length) (cnt : slots.length ≤ 19) :
    (∀ wep ∈ slots, winChkName machine oth wep (some chksum) utf8 = some chksum) ↔
      folded machine utf8 oth = folded machine utf8 un := by
  have slotIff (plc : Nat) (wep : WinEntry) (isAt : slots[plc]? = some wep) :=
    winChkName_slot (each plc wep isAt) units.nonzero units.fits otherUnits
      (Nat.lt_of_lt_of_le (List.getElem?_eq_some_iff.mp isAt).1 cnt)
  have partMap (ws : List UInt16) (plc : Nat) : (part ws plc).map (foldUnit machine utf8) =
      ((ws.map (foldUnit machine utf8)).drop (plc * winChars)).take winChars := by
    unfold part
    rw [map_take, map_drop]
  unfold folded
  rw [units.isUcs2, otherUnits.isUcs2]
  have prev : (slots.length - 1) * 13 < us.length := prev
  have tail : us.length ≤ slots.length * 13 := tail
  constructor
  · intro acc
    have parts (plc : Nat) (below : plc < slots.length) :=
      (slotIff plc _ (getElem?_eq_getElem below)).mp (acc _ (getElem_mem below))
    have shorter : vs.length ≤ slots.length * 13 := by
      have atEnd : vs.length ≤ (slots.length - 1) * 13 + 13 :=
        (parts (slots.length - 1) (by omega)).2.1 (by omega)
      omega
    refine @eq_of_parts _ _ _ slots.length ?_ ?_ ?_
    · rw [length_map]
      exact shorter
    · rw [length_map]
      exact tail
    · intro plc below
      rw [← partMap, ← partMap]
      exact (parts plc below).2.2
  · intro same wep isIn
    obtain ⟨plc, isAt⟩ := getElem?_of_mem isIn
    have lt := (List.getElem?_eq_some_iff.mp isAt).1
    have eqLen := congrArg List.length same
    rw [length_map, length_map] at eqLen
    refine (slotIff plc wep isAt).mpr ⟨?_, ?_, ?_⟩
    · show plc * 13 ≤ vs.length
      omega
    · intro isEnd
      show vs.length ≤ plc * 13 + 13
      omega
    · rw [partMap, partMap, same]

/-- A long name makes the round trip through its slots, unless a character of it is taken for a
slash. -/
theorem longName_roundTrip (machine : Machine) (chksum : UInt8) (longName : LongName utf8 un) :
    (∃ slots, RoundTrip machine utf8 un chksum slots) ↔ ¬ TakenForSlash machine utf8 un := by
  obtain ⟨us, units⟩ := longName.units machine.host
  rw [← slash_iff units longName]
  have le := units.atMost
  have pos := units.pos
  have isCount : winSlotCnt machine.host un utf8 = (us.length + 12) / 13 := units.isCount
  obtain ⟨slots, wrote, len, each⟩ := @unix2winfns_slots machine.host utf8 un us
    (winSlotCnt machine.host un utf8) units chksum 0 (winSlotCnt machine.host un utf8) (by omega)
    (by omega)
    (show (winSlotCnt machine.host un utf8 - 1) * 13 < us.length by omega)
    (show us.length ≤ winSlotCnt machine.host un utf8 * 13 by omega)
  rw [← len] at each isCount
  have tail : us.length ≤ slots.length * winChars := by
    show us.length ≤ slots.length * 13
    omega
  have each (i : Nat) (wep : WinEntry) (isAt : slots[i]? = some wep) :
      IsSlot us chksum slots.length i wep := by
    have slot := each i wep isAt
    rwa [zero_add] at slot
  constructor
  · rintro ⟨tl, trip⟩ isSlash
    obtain rfl := some.inj (wrote.symm.trans trip.written)
    obtain ⟨plc, below, inPart⟩ := mem_part isSlash tail
    obtain ⟨stop, isSegment, _⟩ := (each plc _ (getElem?_eq_getElem below)).segment
    have invalid : invalidname slots[plc].segment = true := by
      rw [isSegment]
      exact any_eq_true.mpr ⟨_, mem_append_left _ inPart, by decide⟩
    have refused := @win2unixfns_invalid machine.host utf8 slots.reverse slots[plc]
      (mem_reverse.mpr (getElem_mem below)) invalid [] none
    rw [trip.read] at refused
    cases eq_of_mem_replicate refused
  · intro valid
    refine ⟨slots, wrote, len, fun i wep isAt => (each i wep isAt).last, ?_, ?_⟩
    · intro name prev
      have read := @win2unixfns_slots machine.host utf8 un us chksum slots units longName each tail
        (by omega) valid slots.length (le_refl _) name prev (.inl ⟨rfl, by omega⟩)
      rwa [take_length] at read
    · intro oth isLong
      obtain ⟨vs, otherUnits⟩ := isLong.units machine.host
      exact accepts_iff units otherUnits each (show (slots.length - 1) * 13 < us.length by omega) tail
        (by omega) (by omega)

def plainMachine (host : Host) : Machine := ⟨host, [], id⟩

theorem long_radical : LongName true [0xe2, 0xbc, 0x80] where
  notEmpty := by decide
  bytes := by decide
  noNul := by decide
  noSlash := by decide
  last c isLast := by
    obtain rfl := some.inj isLast
    decide
  wide _ := by
    refine ⟨[Char.ofNat 0x2f00], by decide, fun c isChar => ?_, by decide⟩
    rw [eq_of_mem_singleton isChar]
    decide
  narrow := by decide

/-- U+2F00 and fourteen letters, which take two slots. -/
def radicals : List UInt8 := [0xe2, 0xbc, 0x80] ++ replicate 14 0x61

theorem long_radicals : LongName true radicals where
  notEmpty := by decide
  bytes := by decide
  noNul := by decide
  noSlash := by decide
  last c isLast := by
    obtain rfl := some.inj isLast
    decide
  wide _ := by
    refine ⟨Char.ofNat 0x2f00 :: replicate 14 'a', by decide +kernel,
      forall_mem_cons.mpr ⟨by decide, fun c isChar => ?_⟩, by decide⟩
    rw [eq_of_mem_replicate isChar]
    decide
  narrow := by decide

theorem longName_roundTrip_radical : ∃ slots, slots.length = 2 ∧
    RoundTrip (plainMachine .little) true radicals 7 slots := by
  obtain ⟨slots, trip⟩ := (longName_roundTrip (plainMachine .little) 7 long_radicals).mpr
    fun taken => nomatch taken.1
  exact ⟨slots, trip.count.trans (by decide +kernel), trip⟩

/-- U+2F00 on a big-endian machine is a name that does not come back. -/
theorem radical_lost : LongName true [0xe2, 0xbc, 0x80] ∧
    ¬ ∃ slots, RoundTrip (plainMachine .big) true [0xe2, 0xbc, 0x80] 7 slots := by
  refine ⟨long_radical, ?_⟩
  rintro ⟨slots, trip⟩
  have isWritten := trip.written
  have hread := congrArg Prod.fst (trip.read [] none)
  have wrote : unix2winfns .big [0xe2, 0xbc, 0x80] 7 true 1 1 =
      some [(unix2winfn .big [0xe2, 0xbc, 0x80] 1 7 true).1] := by decide +kernel
  obtain rfl := some.inj (wrote.symm.trans isWritten)
  revert hread
  decide +kernel

end Round

end NetBSD.Msdosfs
