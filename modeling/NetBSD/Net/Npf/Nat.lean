import NetBSD.Arith.ByteOrder
import NetBSD.Arith.WordBits
import NetBSD.Machine.Trace

/-!
Owns the port map of `sys/net/npf/npf_nat.c` and the life of the translation
entries of the policies that share one: `npf_nat_create`, `npf_nat_import` and
`npf_nat_destroy`. Ports in entries are in network byte order, so every path
converts them; the byte order of the machine is a parameter. An access outside
the bitmap is `none`.
-/

namespace NetBSD.Net.Npf

open NetBSD.Arith NetBSD.Machine Function List Option

def portmapFirst : Nat := 1024
def portmapSize : Nat := 2016
def portmapFilled : UInt32 := 0xffffffff

/-- `p_bitmap`. Only the words below `PORTMAP_SIZE` are memory of the map. -/
abbrev Bitmap := Nat → UInt32

/-- The flags of a policy with a port map that entries depend on: `NPF_NAT_PORTS`. -/
structure NatPolicy where
  nat_ports : Bool
  deriving DecidableEq, Repr

structure NatEntry where
  nt_natpolicy : NatPolicy
  nt_tport : UInt16
  deriving DecidableEq, Repr

/-- A port map and the live entries of its policies. -/
structure NatState where
  p_bitmap : Bitmap
  nat_list : List NatEntry

/-! ### The port map -/

/-- The loop of `npf_nat_getport`: word and bit of a free port. -/
def getportLoop (bitmap : Bitmap) : Nat → Nat → Option (Nat × Nat)
  | n, idx =>
    if bitmap idx = portmapFilled then
      match n with
      | 0 => none
      | n + 1 => getportLoop bitmap n ((if idx ≠ 0 then idx else portmapSize) - 1)
    else some (idx, ffs32 (~~~bitmap idx) - 1)

def npfNatGetport (order : ByteOrder) (bitmap : Bitmap) (random : UInt32) : Bitmap × UInt16 :=
  match getportLoop bitmap portmapSize (random.toNat % portmapSize) with
  | none => (bitmap, 0)
  | some (idx, bit) =>
    (update bitmap idx (bitmap idx ||| bitMask bit),
      htons order (UInt16.ofNat (portmapFirst + idx <<< 5 + bit)))

def portOffset (order : ByteOrder) (port : UInt16) : UInt16 := htons order port - 1024

def npfNatTakeport (order : ByteOrder) (bitmap : Bitmap) (port : UInt16) : Option (Bitmap × Bool) :=
  let offset := portOffset order port
  let idx := (offset >>> 5).toNat
  let bit := (offset &&& 31).toNat
  if idx < portmapSize then
    let map := bitmap idx
    let nmap := map ||| bitMask bit
    if map = nmap then some (bitmap, false) else some (update bitmap idx nmap, true)
  else none

def npfNatPutport (order : ByteOrder) (bitmap : Bitmap) (port : UInt16) : Option Bitmap :=
  let offset := portOffset order port
  let idx := (offset >>> 5).toNat
  let bit := (offset &&& 31).toNat
  if idx < portmapSize then
    some (update bitmap idx (bitmap idx &&& ~~~bitMask bit))
  else none

/-! ### Entries -/

/-- `npf_nat_create`: `tcpudp` tells whether the packet is TCP or UDP, `pool` whether the
pool has memory. -/
def npfNatCreate (order : ByteOrder) (s : NatState) (np : NatPolicy) (tcpudp pool : Bool)
    (random : UInt32) : NatState :=
  if !pool then s
  else if !np.nat_ports || !tcpudp then { s with nat_list := ⟨np, 0⟩ :: s.nat_list }
  else
    let (bitmap, tport) := npfNatGetport order s.p_bitmap random
    ⟨bitmap, ⟨np, tport⟩ :: s.nat_list⟩

/-- `npf_nat_import` of a recorded port, once the policy is found and the recorded address
is well formed. The failure of `npf_nat_takeport` is and-ed bit by bit with the port. -/
def npfNatImport (order : ByteOrder) (s : NatState) (np : NatPolicy) (tport : UInt16) :
    Option NatState := do
  let (bitmap, taken) ← npfNatTakeport order s.p_bitmap tport
  if tport &&& (if taken then 0 else 1) ≠ 0 then some { s with p_bitmap := bitmap }
  else some ⟨bitmap, ⟨np, tport⟩ :: s.nat_list⟩

def npfNatDestroy (order : ByteOrder) (s : NatState) (position : Nat) : Option NatState :=
  match s.nat_list[position]? with
  | none => some s
  | some nt => do
      let bitmap ← (if nt.nt_tport ≠ 0 then npfNatPutport order s.p_bitmap nt.nt_tport
        else some s.p_bitmap)
      some ⟨bitmap, s.nat_list.eraseIdx position⟩

inductive NatOp where
  | create (np : NatPolicy) (tcpudp pool : Bool) (random : UInt32)
  | importEntry (np : NatPolicy) (tport : UInt16)
  | destroy (position : Nat)

def natStep (order : ByteOrder) (s : NatState) : NatOp → Option NatState
  | .create np tcpudp pool random => some (npfNatCreate order s np tcpudp pool random)
  | .importEntry np tport => npfNatImport order s np tport
  | .destroy position => npfNatDestroy order s position

/-- A fresh port map: `kmem_zalloc`. -/
def natInit : NatState := ⟨fun _ => 0, []⟩

/-! ### The invariant -/

/-- The bit of a port, given in host byte order. Ports below the range have none. -/
def portBit (bitmap : Bitmap) (port : UInt16) : Bool :=
  decide (portmapFirst ≤ port.toNat) &&
    bitAt (bitmap ((port.toNat - portmapFirst) / 32)) ((port.toNat - portmapFirst) % 32)

def GetportSound (order : ByteOrder) (bitmap : Bitmap) : Prop :=
  ∀ random, let port := htons order (npfNatGetport order bitmap random).2
    (port = 0 ↔ ∀ p : UInt16, portmapFirst ≤ p.toNat → portBit bitmap p = true) ∧
    (port ≠ 0 → portmapFirst ≤ port.toNat ∧ portBit bitmap port = false)

/-- No port is held twice, the bitmap has the ports that are held, and the next allocation
is sound. -/
structure NatState.Sound (order : ByteOrder) (s : NatState) : Prop where
  unique : s.nat_list.Pairwise fun a b => a.nt_tport = b.nt_tport → a.nt_tport = 0
  held : ∀ port : UInt16, port ≠ 0 →
    (portBit s.p_bitmap port = true ↔ ∃ nt ∈ s.nat_list, nt.nt_tport = htons order port)
  getport : GetportSound order s.p_bitmap

/-! ### Words and bits -/

section Bits

variable {order : ByteOrder} {bitmap : Bitmap} {port : UInt16}

theorem portOffset_spec (order : ByteOrder) (port : UInt16) :
    (portOffset order (htons order port) >>> 5).toNat =
        (if portmapFirst ≤ port.toNat then port.toNat - portmapFirst
          else port.toNat + 64512) / 32 ∧
      (portOffset order (htons order port) &&& 31).toNat =
        (if portmapFirst ≤ port.toNat then port.toNat - portmapFirst
          else port.toNat + 64512) % 32 := by
  have bound := port.toNat_lt
  have off' : (portOffset order (htons order port)).toNat =
      if portmapFirst ≤ port.toNat then port.toNat - portmapFirst else port.toNat + 64512 := by
    have fst : (1024 : UInt16).toNat = 1024 := rfl
    rw [portOffset, htons_htons, UInt16.toNat_sub, portmapFirst]
    split <;> omega
  constructor
  · rw [UInt16.toNat_shiftRight]
    have shift : (5 : UInt16).toNat % 16 = 5 := rfl
    rw [shift, Nat.shiftRight_eq_div_pow, off']
  · rw [UInt16.toNat_and]
    have mask : (31 : UInt16).toNat = 2 ^ 5 - 1 := rfl
    rw [mask, Nat.and_two_pow_sub_one_eq_mod, off']

def wordOf (port : UInt16) : Nat := (port.toNat - portmapFirst) / 32

def bitOf (port : UInt16) : Nat := (port.toNat - portmapFirst) % 32

theorem bitOf_lt (port : UInt16) : bitOf port < 32 := Nat.mod_lt _ (by decide)

theorem wordOf_lt (port : UInt16) : wordOf port < portmapSize := by
  have bound := port.toNat_lt
  unfold wordOf portmapFirst portmapSize
  omega

theorem portBit_eq (rng : portmapFirst ≤ port.toNat) :
    portBit bitmap port = bitAt (bitmap (wordOf port)) (bitOf port) := by
  simp [portBit, rng, wordOf, bitOf]

theorem eq_of_word_bit {left right : UInt16} (leftIn : portmapFirst ≤ left.toNat)
    (rightIn : portmapFirst ≤ right.toNat) (eqWord : wordOf left = wordOf right)
    (sameBit : bitOf left = bitOf right) : left = right := by
  apply UInt16.toNat_inj.mp
  unfold wordOf bitOf at *
  omega

theorem npfNatTakeport_eq (rng : portmapFirst ≤ port.toNat) :
    npfNatTakeport order bitmap (htons order port) =
      if portBit bitmap port = true then some (bitmap, false)
      else some (update bitmap (wordOf port)
        (bitmap (wordOf port) ||| bitMask (bitOf port)), true) := by
  obtain ⟨word, bit⟩ := portOffset_spec order port
  rw [if_pos rng] at word bit
  have isWord : (portOffset order (htons order port) >>> 5).toNat = wordOf port := word
  have isBit : (portOffset order (htons order port) &&& 31).toNat = bitOf port := bit
  simp only [npfNatTakeport, isWord, isBit, if_pos (wordOf_lt port),
    set_eq_self_iff _ (bitOf_lt port), portBit_eq rng]

theorem npfNatTakeport_below (below : port.toNat < portmapFirst) :
    npfNatTakeport order bitmap (htons order port) = none := by
  obtain ⟨word, -⟩ := portOffset_spec order port
  rw [if_neg (by omega)] at word
  have out : ¬ (port.toNat + 64512) / 32 < portmapSize := by
    unfold portmapSize
    omega
  simp only [npfNatTakeport, word, if_neg out]

theorem npfNatPutport_eq (rng : portmapFirst ≤ port.toNat) :
    npfNatPutport order bitmap (htons order port) = some (update bitmap (wordOf port)
        (bitmap (wordOf port) &&& ~~~bitMask (bitOf port))) := by
  obtain ⟨word, bit⟩ := portOffset_spec order port
  rw [if_pos rng] at word bit
  have isWord : (portOffset order (htons order port) >>> 5).toNat = wordOf port := word
  have isBit : (portOffset order (htons order port) &&& 31).toNat = bitOf port := bit
  simp only [npfNatPutport, isWord, isBit, if_pos (wordOf_lt port)]

theorem portBit_set (rng : portmapFirst ≤ port.toNat) (oth : UInt16) :
    portBit (update bitmap (wordOf port)
      (bitmap (wordOf port) ||| bitMask (bitOf port))) oth = true ↔
    portBit bitmap oth = true ∨ oth = port := by
  by_cases otherIn : portmapFirst ≤ oth.toNat
  · rw [portBit_eq otherIn, portBit_eq otherIn]
    by_cases eqWord : wordOf oth = wordOf port
    · rw [eqWord, update_self, bitAt_set _ (bitOf_lt port), Bool.or_eq_true,
        decide_eq_true_eq]
      refine or_congr_right ⟨eq_of_word_bit otherIn rng eqWord, ?_⟩
      intro same
      rw [same]
    · rw [update_of_ne eqWord]
      have ne : oth ≠ port := fun same => eqWord (by rw [same])
      simp [ne]
  · have ne : oth ≠ port := fun same => otherIn (by rw [same]; exact rng)
    simp [portBit, otherIn, ne]

theorem portBit_clear (rng : portmapFirst ≤ port.toNat) (oth : UInt16) :
    portBit (update bitmap (wordOf port)
      (bitmap (wordOf port) &&& ~~~bitMask (bitOf port))) oth = true ↔
    portBit bitmap oth = true ∧ oth ≠ port := by
  by_cases otherIn : portmapFirst ≤ oth.toNat
  · rw [portBit_eq otherIn, portBit_eq otherIn]
    by_cases eqWord : wordOf oth = wordOf port
    · rw [eqWord, update_self, bitAt_clear _ (bitOf_lt port) (bitOf_lt oth),
        Bool.and_eq_true, Bool.not_eq_true', decide_eq_false_iff_not]
      refine and_congr_right fun _ => not_congr ⟨eq_of_word_bit otherIn rng eqWord, ?_⟩
      intro same
      rw [same]
    · rw [update_of_ne eqWord]
      have ne : oth ≠ port := fun same => eqWord (by rw [same])
      simp [ne]
  · simp [portBit, otherIn]

end Bits

/-! ### Allocation -/

section Getport

variable {order : ByteOrder} {bitmap : Bitmap}

/-- The next word that the loop looks at. -/
def prevWord (idx : Nat) : Nat := (if idx ≠ 0 then idx else portmapSize) - 1

variable {idx : Nat}

theorem prevWord_lt (lt : idx < portmapSize) : prevWord idx < portmapSize := by
  unfold prevWord portmapSize at *
  split <;> omega

theorem iterate_prevWord (lt : idx < portmapSize) {steps : Nat}
    (once : steps ≤ idx + portmapSize) :
    prevWord^[steps] idx = if steps ≤ idx then idx - steps else idx + portmapSize - steps := by
  induction steps with
  | zero => simp
  | succ steps ih =>
    rw [iterate_succ_apply', ih (by omega)]
    unfold prevWord
    split <;> split <;> split <;> omega

theorem getportLoop_filled {n : Nat} (full : bitmap idx = portmapFilled) :
    getportLoop bitmap (n + 1) idx = getportLoop bitmap n (prevWord idx) := by
  rw [getportLoop, if_pos full]
  rfl

theorem getportLoop_free {n idx : Nat} (free : bitmap idx ≠ portmapFilled) :
    getportLoop bitmap n idx = some (idx, ffs32 (~~~bitmap idx) - 1) := by
  cases n <;> rw [getportLoop, if_neg free]

theorem getportLoop_none {n : Nat} (gaveUp : getportLoop bitmap n idx = none) :
    ∀ steps ≤ n, bitmap (prevWord^[steps] idx) = portmapFilled := by
  induction n generalizing idx with
  | zero =>
    intro steps le
    obtain rfl : steps = 0 := by omega
    by_contra free
    have fnd := @getportLoop_free bitmap 0 idx free
    rw [fnd] at gaveUp
    cases gaveUp
  | succ n ih =>
    by_cases full : bitmap idx = portmapFilled
    · rw [getportLoop_filled full] at gaveUp
      intro steps le
      cases steps with
      | zero => exact full
      | succ steps =>
        exact ih gaveUp steps (by omega)
    · rw [getportLoop_free full] at gaveUp
      cases gaveUp

variable {word : Nat}

theorem getportLoop_some {n bit : Nat} (lt : idx < portmapSize)
    (fnd : getportLoop bitmap n idx = some (word, bit)) :
    word < portmapSize ∧ bit < 32 ∧ bitAt (bitmap word) bit = false := by
  induction n generalizing idx with
  | zero =>
    by_cases full : bitmap idx = portmapFilled
    · rw [getportLoop, if_pos full] at fnd
      cases fnd
    · rw [getportLoop_free full] at fnd
      cases fnd
      exact ⟨lt, ffs32_not_spec full⟩
  | succ n ih =>
    by_cases full : bitmap idx = portmapFilled
    · rw [getportLoop_filled full] at fnd
      exact ih (prevWord_lt lt) fnd
    · rw [getportLoop_free full] at fnd
      cases fnd
      exact ⟨lt, ffs32_not_spec full⟩

theorem filled_of_getportLoop_none (lt : idx < portmapSize)
    (gaveUp : getportLoop bitmap portmapSize idx = none) (wordInside : word < portmapSize) :
    bitmap word = portmapFilled := by
  by_cases ahead : word ≤ idx
  · have visited := getportLoop_none gaveUp (idx - word) (by omega)
    rw [iterate_prevWord lt (by omega), if_pos (by omega)] at visited
    rwa [Nat.sub_sub_self ahead] at visited
  · have visited := getportLoop_none gaveUp (idx + portmapSize - word) (by omega)
    rw [iterate_prevWord lt (by omega), if_neg (by omega),
      Nat.sub_sub_self (by omega)] at visited
    exact visited

def portAt (word bit : Nat) : UInt16 := UInt16.ofNat (portmapFirst + word <<< 5 + bit)

theorem toNat_portAt {bit : Nat} (wordInside : word < portmapSize) (bitInside : bit < 32) :
    (portAt word bit).toNat = portmapFirst + word * 32 + bit := by
  unfold portAt portmapFirst portmapSize at *
  rw [UInt16.toNat_ofNat']
  omega

theorem wordOf_portAt {bit : Nat} (wordInside : word < portmapSize) (bitInside : bit < 32) :
    wordOf (portAt word bit) = word ∧ bitOf (portAt word bit) = bit := by
  have v := toNat_portAt wordInside bitInside
  unfold wordOf bitOf
  omega

/-- `npf_nat_getport` in terms of ports: it takes a free port of the range, or leaves a full
map alone. -/
theorem npfNatGetport_spec (order : ByteOrder) (bitmap : Bitmap) (random : UInt32) :
    ((∀ port : UInt16, portmapFirst ≤ port.toNat → portBit bitmap port = true) ∧
      npfNatGetport order bitmap random = (bitmap, 0)) ∨
    ∃ port : UInt16, portmapFirst ≤ port.toNat ∧ portBit bitmap port = false ∧
      npfNatGetport order bitmap random =
        (update bitmap (wordOf port) (bitmap (wordOf port) ||| bitMask (bitOf port)),
          htons order port) := by
  have lt : random.toNat % portmapSize < portmapSize := Nat.mod_lt _ (by decide)
  unfold npfNatGetport
  cases found : getportLoop bitmap portmapSize (random.toNat % portmapSize) with
  | none =>
    refine Or.inl ⟨fun port rng => ?_, rfl⟩
    have full : bitmap (wordOf port) = 0xffffffff :=
      filled_of_getportLoop_none lt found (wordOf_lt port)
    rw [portBit_eq rng, full, bitAt_allOnes (bitOf_lt port)]
  | some plc =>
    obtain ⟨word, bit⟩ := plc
    obtain ⟨wordInside, bitInside, free⟩ := getportLoop_some lt found
    obtain ⟨isWord, isBit⟩ := wordOf_portAt wordInside bitInside
    have rng : portmapFirst ≤ (portAt word bit).toNat := by
      rw [toNat_portAt wordInside bitInside]
      omega
    refine Or.inr ⟨portAt word bit, rng, ?_, ?_⟩
    · rw [portBit_eq rng, isWord, isBit, free]
    · simp only [isWord, isBit]
      rfl

theorem getport_sound (order : ByteOrder) (bitmap : Bitmap) : GetportSound order bitmap := by
  intro random
  rcases npfNatGetport_spec order bitmap random with ⟨full, ret⟩ |
    ⟨port, rng, free, ret⟩
  · simp only [ret, htons_zero]
    exact ⟨iff_of_true trivial full, fun ne0 => absurd rfl ne0⟩
  have ne0 : port ≠ 0 := by
    intro zero
    rw [zero] at rng
    exact absurd rng (by decide)
  simp only [ret, htons_htons]
  refine ⟨iff_of_false ne0 fun full => ?_, fun _ => ⟨rng, free⟩⟩
  have isSet := full port rng
  rw [free] at isSet
  cases isSet

end Getport

/-! ### Steps -/

/-- The recorded port of an import lies in the range, and where it is taken already the
lowest bit of its network form is set, so that the failure is noticed. -/
def NatOp.Fine (order : ByteOrder) (s : NatState) : NatOp → Prop
  | .importEntry _ tport =>
    portmapFirst ≤ (htons order tport).toNat ∧
      (portBit s.p_bitmap (htons order tport) = true → tport &&& 1 ≠ 0)
  | _ => True

section Steps

variable {order : ByteOrder} {s : NatState} {np : NatPolicy}

theorem natInit_sound (order : ByteOrder) : natInit.Sound order where
  unique := List.Pairwise.nil
  held port nonzero := by
    have clear : ∀ i, bitAt 0 i = false := by
      intro i
      simp [bitAt]
    simp [natInit, portBit, clear]
  getport := getport_sound order _

theorem NatState.Sound.cons_zero (sound : s.Sound order) :
    NatState.Sound order { s with nat_list := ⟨np, 0⟩ :: s.nat_list } where
  unique := pairwise_cons.mpr ⟨fun _ _ _ => rfl, sound.unique⟩
  held port nonzero := by
    have ne : ¬ 0 = htons order port := fun same => nonzero (htons_eq_zero_iff.mp same.symm)
    simpa [ne] using sound.held port nonzero
  getport := sound.getport

theorem NatState.Sound.cons_free (sound : s.Sound order) {port : UInt16}
    (rng : portmapFirst ≤ port.toNat) (free : portBit s.p_bitmap port = false) :
    NatState.Sound order ⟨update s.p_bitmap (wordOf port)
        (s.p_bitmap (wordOf port) ||| bitMask (bitOf port)),
        ⟨np, htons order port⟩ :: s.nat_list⟩ where
  unique := by
    have ne0 : port ≠ 0 := by
      intro zero
      rw [zero] at rng
      exact absurd rng (by decide)
    refine pairwise_cons.mpr ⟨fun nt mem same => ?_, sound.unique⟩
    have isSet := (sound.held port ne0).mpr ⟨nt, mem, same.symm⟩
    rw [free] at isSet
    cases isSet
  held other ne0 := by
    simp only [portBit_set rng, sound.held other ne0, exists_mem_cons_iff]
    have same : htons order port = htons order other ↔ other = port := by
      constructor
      · intro equal
        rw [← htons_htons order other, ← equal, htons_htons]
      · intro equal
        rw [equal]
    rw [same, or_comm]
  getport := getport_sound order _

theorem natStep_create (sound : s.Sound order) (tcpudp pool : Bool) (random : UInt32) :
    (npfNatCreate order s np tcpudp pool random).Sound order := by
  unfold npfNatCreate
  split
  · exact sound
  split
  · exact sound.cons_zero
  rcases npfNatGetport_spec order s.p_bitmap random with ⟨-, ret⟩ |
    ⟨port, rng, free, ret⟩
  · rw [ret]
    exact sound.cons_zero
  · rw [ret]
    exact sound.cons_free rng free

/-- An import is right exactly off the two cases that `Fine` excludes. -/
theorem natStep_import_iff (sound : s.Sound order) (tport : UInt16) :
    (∃ s', npfNatImport order s np tport = some s' ∧ s'.Sound order) ↔
      (NatOp.importEntry np tport).Fine order s := by
  obtain ⟨port, rfl⟩ : ∃ port, tport = htons order port :=
    ⟨htons order tport, (htons_htons order tport).symm⟩
  simp only [NatOp.Fine, htons_htons, npfNatImport]
  by_cases rng : portmapFirst ≤ port.toNat
  · rw [npfNatTakeport_eq rng]
    by_cases isSet : portBit s.p_bitmap port = true
    · have ne0 : port ≠ 0 := by
        intro zero
        rw [zero] at rng
        exact absurd rng (by decide)
      rw [if_pos isSet]
      simp only [bind_eq_bind, bind_some, Bool.false_eq_true, if_false,
        rng, isSet, true_implies, true_and]
      by_cases odd : htons order port &&& 1 ≠ 0
      · rw [if_pos odd]
        exact iff_of_true ⟨s, rfl, sound⟩ odd
      rw [if_neg odd]
      refine iff_of_false ?_ odd
      rintro ⟨s', aft, afterSound⟩
      obtain rfl := some.inj aft
      obtain ⟨nt, mem, same⟩ := (sound.held port ne0).mp isSet
      have zero := (pairwise_cons.mp afterSound.unique).1 nt mem same.symm
      exact ne0 (htons_eq_zero_iff.mp zero)
    · have free : portBit s.p_bitmap port = false := by simpa using isSet
      rw [if_neg isSet]
      simp only [bind_eq_bind, bind_some, if_true, UInt16.and_zero,
        ne_eq, not_true_eq_false, if_false]
      exact iff_of_true ⟨_, rfl, sound.cons_free rng free⟩
        ⟨rng, fun absurdity => absurd absurdity isSet⟩
  · rw [npfNatTakeport_below (by omega)]
    refine iff_of_false ?_ (fun fine => rng fine.1)
    rintro ⟨s', aft, -⟩
    cases aft

theorem exists_split_of_getElem? {list : List NatEntry} {pos : Nat} {nt : NatEntry}
    (here : list[pos]? = some nt) :
    ∃ pre back, list = pre ++ nt :: back ∧ list.eraseIdx pos = pre ++ back := by
  obtain ⟨lt, ent⟩ := List.getElem?_eq_some_iff.mp here
  refine ⟨list.take pos, list.drop (pos + 1), ?_, eraseIdx_eq_take_drop_succ ..⟩
  rw [← ent, getElem_cons_drop, take_append_drop]

theorem exists_holder_erase {pre back : List NatEntry} {nt : NatEntry} {tport : UInt16}
    (ne : nt.nt_tport ≠ tport) : (∃ holder ∈ pre ++ nt :: back, holder.nt_tport = tport) ↔
      ∃ holder ∈ pre ++ back, holder.nt_tport = tport := by
  constructor
  · rintro ⟨holder, mem, holds⟩
    refine ⟨holder, ?_, holds⟩
    rcases mem_append.mp mem with inF | inBack
    · exact mem_append_left _ inF
    · rcases mem_cons.mp inBack with rfl | inBack
      · exact absurd holds ne
      · exact mem_append_right _ inBack
  · rintro ⟨holder, mem, holds⟩
    exact ⟨holder, List.Sublist.subset
      (Sublist.append_left (sublist_cons_self nt back) pre) mem, holds⟩

/-- Destroying an entry gives its port back. -/
theorem natStep_destroy (sound : s.Sound order) (pos : Nat) :
    ∃ s', npfNatDestroy order s pos = some s' ∧ s'.Sound order := by
  unfold npfNatDestroy
  cases present : s.nat_list[pos]? with
  | none => exact ⟨s, rfl, sound⟩
  | some nt =>
    obtain ⟨pre, back, lst, erased⟩ := exists_split_of_getElem? present
    have unique := sound.unique
    rw [lst] at unique
    have kept : (pre ++ back).Pairwise fun a b => a.nt_tport = b.nt_tport → a.nt_tport = 0 :=
      unique.sublist (Sublist.append_left (sublist_cons_self nt back) pre)
    have apart : ∀ oth ∈ pre ++ back, oth.nt_tport = nt.nt_tport → nt.nt_tport = 0 := by
      intro oth mem same
      rcases mem_append.mp mem with inF | inBack
      · rw [← same]
        exact (pairwise_append.mp unique).2.2 oth inF nt (by simp) same
      · exact (pairwise_cons.mp (pairwise_append.mp unique).2.1).1 oth inBack same.symm
    by_cases eq0 : nt.nt_tport = 0
    · refine ⟨⟨s.p_bitmap, pre ++ back⟩, by simp [eq0, erased], kept, ?_, sound.getport⟩
      intro port ne0
      have ne : ¬ nt.nt_tport = htons order port := by
        rw [eq0]
        exact fun same => ne0 (htons_eq_zero_iff.mp same.symm)
      rw [sound.held port ne0, lst]
      exact exists_holder_erase ne
    obtain ⟨port, isPort⟩ : ∃ port, nt.nt_tport = htons order port :=
      ⟨htons order nt.nt_tport, (htons_htons order _).symm⟩
    have ne0 : port ≠ 0 := fun zero => eq0 (by rw [isPort, zero, htons_zero])
    have isSet := (sound.held port ne0).mpr ⟨nt, by rw [lst]; simp, isPort⟩
    have rng : portmapFirst ≤ port.toNat := by
      by_contra below
      simp [portBit, below] at isSet
    refine ⟨⟨update s.p_bitmap (wordOf port)
      (s.p_bitmap (wordOf port) &&& ~~~bitMask (bitOf port)), pre ++ back⟩, ?_, kept, ?_,
      getport_sound order _⟩
    · simp only [ne_eq, eq0]
      rw [isPort, npfNatPutport_eq rng, erased]
      rfl
    intro oth otherNonzero
    simp only [portBit_clear rng, sound.held oth otherNonzero]
    rw [lst]
    by_cases same : oth = port
    · refine iff_of_false (fun both => both.2 same) ?_
      rintro ⟨holder, mem, holds⟩
      exact eq0 (apart holder mem (by rw [holds, same, isPort]))
    · rw [and_iff_left same]
      apply exists_holder_erase
      intro holds
      apply same
      rw [← htons_htons order oth, ← holds, isPort, htons_htons]

theorem natStep_sound_iff (sound : s.Sound order) (op : NatOp) :
    (∃ s', natStep order s op = some s' ∧ s'.Sound order) ↔ op.Fine order s := by
  cases op with
  | create np tcpudp pool random =>
    exact iff_of_true ⟨_, rfl, natStep_create sound tcpudp pool random⟩ trivial
  | importEntry np tport => exact natStep_import_iff sound tport
  | destroy pos => exact iff_of_true (natStep_destroy sound pos) trivial

end Steps

/-- Along a run from a fresh port map every state is sound exactly when every import
records a fine port. -/
theorem natRun_sound_iff (order : ByteOrder) (ops : List NatOp) : (∀ front, front <+: ops →
      ∃ reached, consume (natStep order) front natInit = some reached ∧ reached.Sound order) ↔
    ∀ front op, front ++ [op] <+: ops →
      ∀ reached, consume (natStep order) front natInit = some reached → op.Fine order reached :=
  consume_invariant_iff (natStep order) (NatState.Sound order) (fun s op => op.Fine order s)
    (fun _ op sound => natStep_sound_iff sound op) ops (natInit_sound order)

def importTwice : List NatOp :=
  [.importEntry ⟨true⟩ (htons .little 1024), .importEntry ⟨true⟩ (htons .little 1024)]

/-- Two entries imported with one port share it. -/
theorem natRun_importTwice : ¬ ∀ (order : ByteOrder) (ops front : List NatOp), front <+: ops →
      ∃ reached, consume (natStep order) front natInit = some reached ∧ reached.Sound order := by
  intro claim
  obtain ⟨reached, eaten, sound⟩ := claim .little importTwice importTwice (prefix_refl _)
  have reach : (consume (natStep .little) importTwice natInit).map NatState.nat_list =
      some [⟨⟨true⟩, 4⟩, ⟨⟨true⟩, 4⟩] := by decide
  rw [eaten, map_some, some.injEq] at reach
  have unique := sound.unique
  rw [reach] at unique
  exact absurd ((pairwise_cons.mp unique).1 _ (by simp) rfl) (by decide)

end NetBSD.Net.Npf
