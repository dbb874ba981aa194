import NetBSD.Arith.Bisect
import NetBSD.Machine.Trace
import Mathlib.Tactic.ByContra

/-!
Owns the dictionaries of `common/lib/libprop/prop_dictionary.c` and the references that
they hold. An object is the number of its handle. A key symbol is the string that it was
made for, as there is only one for each string. `none` stands for an access outside an
array or a failed assertion.
-/

namespace NetBSD.Libprop

open NetBSD.Arith List Option

/-- A string in front of its terminating NUL. -/
structure CString where
  bytes : List UInt8
  noNul : ∀ c ∈ bytes, c ≠ 0
deriving DecidableEq

/-- `strcmp`, which compares characters as `unsigned char`. -/
def strcmp : List UInt8 → List UInt8 → Int
  | [], [] => 0
  | [], c2 :: _ => -(c2.toNat : Int)
  | c1 :: _, [] => c1.toNat
  | c1 :: s1, c2 :: s2 => if c1 = c2 then strcmp s1 s2 else (c1.toNat : Int) - c2.toNat

def pdkMaxkey : Nat := 128
def expandStep : Nat := 16

def uint (x : Nat) : Nat := x % 4294967296

/-- `struct _prop_dict_entry`, with objects of any kind. -/
structure Entry (α : Type) where
  pde_key : CString
  pde_objref : α
deriving DecidableEq

/-- `struct _prop_dictionary` with the entries below `pd_count`. -/
structure Dictionary (α : Type) where
  pd_array : List (Entry α)
  pd_capacity : Nat
  pd_version : Nat

/-- A dictionary, with the counts of references to the objects and to the key symbols. A symbol
without a reference is not in the tree. -/
structure State where
  pd : Dictionary Nat
  po_refcnt : Nat → Nat
  pdk_refcnt : CString → Nat

section References

/-- `prop_object_retain` of an object. The count is a `uint32_t` that is not to wrap. -/
def State.retain (state : State) (po : Nat) : Option State :=
  if state.po_refcnt po + 1 ≥ 4294967296 then none
  else
    some { state with po_refcnt := fun o =>
        if o = po then state.po_refcnt o + 1 else state.po_refcnt o }

/-- `prop_object_release` of an object. -/
def State.release (state : State) (po : Nat) : Option State :=
  if state.po_refcnt po = 0 then none
  else
    some { state with po_refcnt := fun o =>
        if o = po then state.po_refcnt o - 1 else state.po_refcnt o }

/-- `_prop_dict_keysym_alloc`: a new symbol has one reference, and one that exists is retained. No
symbol when the key is too long. -/
def State.keysymAlloc (state : State) (key : CString) : Option (Option State) :=
  if state.pdk_refcnt key = 0 ∧ key.bytes.length > pdkMaxkey then some none
  else if state.pdk_refcnt key + 1 ≥ 4294967296 then none
  else
    some (some { state with pdk_refcnt := fun k =>
        if k = key then state.pdk_refcnt k + 1 else state.pdk_refcnt k })

def State.keysymRelease (state : State) (key : CString) : Option State :=
  if state.pdk_refcnt key = 0 then none
  else
    some { state with pdk_refcnt := fun k =>
        if k = key then state.pdk_refcnt k - 1 else state.pdk_refcnt k }

end References

section Entries

variable {α : Type}

def propDictLookup (pd : Dictionary α) (key : CString) : Option Bisected :=
  bisect (fun idx => pd.pd_array[idx]?.map fun pde => strcmp key.bytes pde.pde_key.bytes)
    (pd.pd_array.length + 1) 0 pd.pd_array.length 0

def propDictionaryGet (pd : Dictionary α) (key : CString) : Option (Option α) :=
  match propDictLookup pd key with
  | none => none
  | some (.near _) => some none
  | some (.found idx) => (pd.pd_array[idx]?).map fun pde => some pde.pde_objref

/-- `_prop_dictionary_expand` when memory is available: the new array has room for the copy of the
old one. -/
def propDictionaryExpand (pd : Dictionary α) (capacity : Nat) : Option (Dictionary α) :=
  if pd.pd_capacity > capacity then none else some { pd with pd_capacity := capacity }

/-- An entry behind an index; the others move up. -/
def insertBehind (array : List (Entry α)) (idx : Nat) (entry : Entry α) : List (Entry α) :=
  array.take (idx + 1) ++ entry :: array.drop (idx + 1)

/-- The array with a new entry, from the index that the lookup ended at. -/
def insertEntry (array : List (Entry α)) (idx : Nat) (entry : Entry α) : Option (List (Entry α)) :=
  if array.length = 0 then some [entry]
  else
    match array[idx]? with
    | none => none
    | some pde =>
      if strcmp entry.pde_key.bytes pde.pde_key.bytes < 0 then
        if idx = 0 then some (entry :: array) else some (insertBehind array (idx - 1) entry)
      else some (insertBehind array idx entry)

def propDictionaryRoom (pd : Dictionary α) : Option (Dictionary α) :=
  if pd.pd_array.length = pd.pd_capacity then
    propDictionaryExpand pd (uint (pd.pd_capacity + expandStep))
  else some pd

/-- The part of `prop_dictionary_set` that puts a new entry in, from the index that the lookup ended
at. -/
def propDictionaryAdd (pd : Dictionary α) (idx : Nat) (entry : Entry α) :
    Option (Dictionary α) := do
  let pd ← propDictionaryRoom pd
  let array ← insertEntry pd.pd_array idx entry
  if array.length > pd.pd_capacity then none
  else some ⟨array, pd.pd_capacity, uint (pd.pd_version + 1)⟩

def propDictionaryCreate (capacity : Nat) : Dictionary α := ⟨[], capacity, 0⟩

end Entries

def propDictionarySet (state : State) (key : CString) (po : Nat) : Option (State × Bool) :=
  match propDictLookup state.pd key with
  | none => none
  | some (.found idx) =>
    match state.pd.pd_array[idx]? with
    | none => none
    | some pde => do
        let state ← state.retain po
        let state := { state with pd := { state.pd with
            pd_array := state.pd.pd_array.set idx { pde with pde_objref := po } } }
        let state ← state.release pde.pde_objref
        pure (state, true)
  | some (.near idx) =>
    match state.keysymAlloc key with
    | none => none
    | some none => some (state, false)
    | some (some state) => do
        let state ← state.retain po
        let pd ← propDictionaryAdd state.pd idx ⟨key, po⟩
        pure ({ state with pd := pd }, true)

def propDictionaryRemove (state : State) (key : CString) : Option State :=
  match propDictLookup state.pd key with
  | none => none
  | some (.near _) => some state
  | some (.found idx) =>
    match state.pd.pd_array[idx]? with
    | none => none
    | some pde => do
        let state := { state with
          pd := ⟨state.pd.pd_array.eraseIdx idx, state.pd.pd_capacity,
            uint (state.pd.pd_version + 1)⟩ }
        let state ← state.keysymRelease pde.pde_key
        state.release pde.pde_objref

/-- `struct _prop_dictionary_iterator`. -/
structure Iterator where
  pdi_index : Nat
  pi_version : Nat

def iteratorReset (pd : Dictionary Nat) : Iterator := ⟨0, pd.pd_version⟩

/-- `_prop_dictionary_iterator_next_object_locked`, with the key that it returns. -/
def iteratorNext (pd : Dictionary Nat) (pdi : Iterator) : Option CString × Iterator :=
  if pd.pd_version ≠ pdi.pi_version then (none, pdi)
  else if pdi.pdi_index = pd.pd_array.length then (none, pdi)
  else (pd.pd_array[pdi.pdi_index]?.map Entry.pde_key, { pdi with pdi_index := pdi.pdi_index + 1 })

def iterate (pd : Dictionary Nat) : Nat → Iterator → List CString
  | 0, _ => []
  | calls + 1, pdi =>
    match iteratorNext pd pdi with
    | (none, _) => []
    | (some key, pdi) => key :: iterate pd calls pdi

/-!
### The sorted array

The dictionary as a sorted array. The lookup ends next to the point where a key
belongs, so that the array stays sorted when an entry is put in.
-/

section Strcmp

variable {s t u : List UInt8}

theorem toNat_pos {c : UInt8} (noNul : c ≠ 0) : 0 < c.toNat :=
  Nat.pos_of_ne_zero fun zero => noNul (UInt8.toNat_inj.mp zero)

theorem strcmp_self (s : List UInt8) : strcmp s s = 0 := by
  induction s with
  | nil => rfl
  | cons c s ih => rw [strcmp, if_pos rfl, ih]

theorem strcmp_neg (s t : List UInt8) : strcmp t s = -strcmp s t := by
  induction s generalizing t with
  | nil =>
    cases t with
    | nil => rfl
    | cons c t => exact (Int.neg_neg _).symm
  | cons c s ih =>
    cases t with
    | nil => rfl
    | cons d t =>
      rw [strcmp, strcmp]
      by_cases same : c = d
      · rw [if_pos same, if_pos same.symm, ih]
      · rw [if_neg same, if_neg fun eq => same eq.symm]
        omega

theorem eq_of_strcmp (noNulS : ∀ c ∈ s, c ≠ 0) (noNulT : ∀ c ∈ t, c ≠ 0)
    (zero : strcmp s t = 0) : s = t := by
  induction s generalizing t with
  | nil =>
    cases t with
    | nil => rfl
    | cons c t =>
      have pos := toNat_pos (noNulT c mem_cons_self)
      rw [strcmp] at zero
      omega
  | cons c s ih =>
    obtain ⟨notC, noNulRest⟩ := forall_mem_cons.mp noNulS
    cases t with
    | nil =>
      have pos := toNat_pos notC
      rw [strcmp] at zero
      omega
    | cons d t =>
      rw [strcmp] at zero
      by_cases same : c = d
      · rw [if_pos same] at zero
        rw [same, ih noNulRest (forall_mem_cons.mp noNulT).2 zero]
      · rw [if_neg same] at zero
        exact absurd (UInt8.toNat_inj.mp (by omega)) same

/-- Comparing keys is transitive on texts without a NUL. -/
theorem strcmp_trans (noNulT : ∀ c ∈ t, c ≠ 0) (noNulU : ∀ c ∈ u, c ≠ 0)
    (fst : strcmp s t < 0) (snd : strcmp t u < 0) : strcmp s u < 0 := by
  induction s generalizing t u with
  | nil =>
    cases u with
    | nil =>
      cases t with
      | nil => exact absurd snd (by decide)
      | cons d t =>
        rw [strcmp] at snd
        omega
    | cons e u =>
      have pos := toNat_pos (noNulU e mem_cons_self)
      rw [strcmp]
      omega
  | cons c s ih =>
    cases t with
    | nil =>
      rw [strcmp] at fst
      omega
    | cons d t =>
      obtain ⟨_, noNulRestT⟩ := forall_mem_cons.mp noNulT
      cases u with
      | nil =>
        rw [strcmp] at snd
        omega
      | cons e u =>
        obtain ⟨_, noNulRestU⟩ := forall_mem_cons.mp noNulU
        rw [strcmp] at fst snd ⊢
        by_cases sameFirst : c = d
        · subst sameFirst
          rw [if_pos rfl] at fst
          by_cases sameSecond : c = e
          · rw [if_pos sameSecond] at snd ⊢
            exact ih noNulRestT noNulRestU fst snd
          · rw [if_neg sameSecond] at snd ⊢
            exact snd
        rw [if_neg sameFirst] at fst
        by_cases sameSecond : d = e
        · subst sameSecond
          rw [if_neg sameFirst]
          exact fst
        rw [if_neg sameSecond] at snd
        have oth : c ≠ e := by
          rintro rfl
          omega
        rw [if_neg oth]
        omega

end Strcmp

variable {α : Type}

def Before (a b : Entry α) : Prop := strcmp a.pde_key.bytes b.pde_key.bytes < 0

theorem Before.irrefl (a : Entry α) : ¬ Before a a := by
  unfold Before
  rw [strcmp_self]
  decide

theorem key_eq {a b : CString} (zero : strcmp a.bytes b.bytes = 0) : a = b := by
  have same := eq_of_strcmp a.noNul b.noNul zero
  cases a
  cases same
  rfl

structure Belongs (key : CString) (array : List (Entry α)) (point : Nat) : Prop where
  inside : point ≤ array.length
  front : ∀ entry ∈ array.take point, strcmp key.bytes entry.pde_key.bytes > 0
  back : ∀ entry ∈ array.drop point, strcmp key.bytes entry.pde_key.bytes < 0

section Lookup

variable {pd : Dictionary α} {key : CString}

theorem Belongs.absent {array : List (Entry α)} {point : Nat} (owns : Belongs key array point) :
    ∀ entry ∈ array, entry.pde_key ≠ key := by
  rintro entry isIn rfl
  rw [← take_append_drop point array] at isIn
  have zero := strcmp_self entry.pde_key.bytes
  rcases mem_append.mp isIn with pre | inBack
  · have := owns.front entry pre
    omega
  · have := owns.back entry inBack
    omega

/-- What a lookup comes to. -/
inductive Looked (pd : Dictionary α) (key : CString) : Bisected → Prop where
  | found {idx : Nat} {pde : Entry α} (isThere : pd.pd_array[idx]? = some pde)
      (isKey : pde.pde_key = key) : Looked pd key (.found idx)
  | near {idx point : Nat} (belongs : Belongs key pd.pd_array point)
      (beside : 0 < pd.pd_array.length → Beside pd.pd_array.length point idx) :
      Looked pd key (.near idx)

/-- The search ends at the key or beside its place. -/
theorem lookup_spec (sort : pd.pd_array.Pairwise Before) :
    ∃ res, propDictLookup pd key = some res ∧ Looked pd key res := by
  obtain ⟨res, isRes, right⟩ := @bisect_all
    (fun idx => pd.pd_array[idx]?.map fun pde => strcmp key.bytes pde.pde_key.bytes)
    (fun idx => (pd.pd_array[idx]?.map fun pde => strcmp key.bytes pde.pde_key.bytes).getD 0)
    pd.pd_array.length (fun i less => by simp [getElem?_eq_getElem less])
    (fun i j less lt ge => by
      have insideI : i < pd.pd_array.length := by omega
      have prev := pairwise_iff_getElem.mp sort i j insideI lt less
      simp only [getElem?_eq_getElem lt, getElem?_eq_getElem insideI, map_some,
        getD_some] at ge ⊢
      unfold Before at prev
      rw [strcmp_neg]
      rw [strcmp_neg] at ge
      -- the element is below one that is not above the key
      by_cases same : strcmp pd.pd_array[j].pde_key.bytes key.bytes = 0
      · have isKey := key_eq same
        rw [isKey] at prev
        omega
      · have := strcmp_trans pd.pd_array[j].pde_key.noNul key.noNul prev (by omega)
        omega)
  refine ⟨res, isRes, ?_⟩
  cases res with
  | found idx =>
    obtain ⟨lt, zero⟩ := right
    simp only [getElem?_eq_getElem lt] at zero
    exact .found (getElem?_eq_getElem lt) (key_eq zero).symm
  | near idx =>
    obtain ⟨point, split, beside⟩ := right
    refine .near ⟨split.inside, fun entry isIn => ?_, fun entry isIn => ?_⟩ beside
    · obtain ⟨i, less, rfl⟩ := mem_iff_getElem.mp isIn
      rw [length_take] at less
      have below := split.below i (by omega)
      have lt : i < pd.pd_array.length := by omega
      simp only [getElem?_eq_getElem lt] at below
      rw [getElem_take]
      exact below
    obtain ⟨i, less, rfl⟩ := mem_iff_getElem.mp isIn
    rw [length_drop] at less
    have lt : point + i < pd.pd_array.length := by omega
    have above := split.above (point + i) (by omega) lt
    simp only [getElem?_eq_getElem lt] at above
    rw [getElem_drop]
    exact above

end Lookup

section Array

variable {array : List (Entry α)} {entry : Entry α}

theorem insertEntry_eq {idx point : Nat} (owns : Belongs entry.pde_key array point)
    (beside : 0 < array.length → Beside array.length point idx) :
    insertEntry array idx entry = some (array.take point ++ entry :: array.drop point) := by
  unfold insertEntry
  by_cases empty : array.length = 0
  · rw [if_pos empty]
    obtain rfl := length_eq_zero_iff.mp empty
    rw [take_nil, drop_nil]
    rfl
  rw [if_neg empty]
  have lt := owns.inside
  rcases beside (by omega) with last | ⟨next', less⟩
  · have isIn : idx < array.length := by omega
    have above := owns.front array[idx] (mem_take_iff_getElem.mpr ⟨idx, by omega, rfl⟩)
    simp only [getElem?_eq_getElem isIn]
    rw [if_neg (by omega)]
    unfold insertBehind
    rw [last]
  have isIn : idx < array.length := by omega
  have below := owns.back array[idx]
    (mem_drop_iff_getElem.mpr ⟨0, by omega, by simp [next']⟩)
  simp only [getElem?_eq_getElem isIn]
  rw [if_pos below]
  by_cases fst : idx = 0
  · rw [← next', fst]
    rfl
  · rw [if_neg fst]
    unfold insertBehind
    rw [Nat.sub_add_cancel (by omega), next']

theorem sorted_insert {point : Nat} (sort : array.Pairwise Before)
    (owns : Belongs entry.pde_key array point) :
    (array.take point ++ entry :: array.drop point).Pairwise Before := by
  rw [← take_append_drop point array] at sort
  obtain ⟨pre, back, across⟩ := pairwise_append.mp sort
  refine pairwise_append.mpr ⟨pre, pairwise_cons.mpr ⟨owns.back, back⟩, ?_⟩
  intro a inF b isIn
  rcases mem_cons.mp isIn with rfl | inBack
  · have above := owns.front a inF
    unfold Before
    rw [strcmp_neg]
    omega
  · exact across a inF b inBack

theorem keys_apart {pre back : List (Entry α)} {pde : Entry α}
    (sort : (pre ++ pde :: back).Pairwise Before) :
    ∀ entry ∈ pre ++ back, entry.pde_key ≠ pde.pde_key := by
  obtain ⟨_, tail, across⟩ := pairwise_append.mp sort
  intro entry isIn same
  have irrefl : ¬ strcmp pde.pde_key.bytes pde.pde_key.bytes < 0 := Before.irrefl pde
  rcases mem_append.mp isIn with inF | inBack
  · have prev := across entry inF pde mem_cons_self
    unfold Before at prev
    rw [same] at prev
    exact irrefl prev
  · have prev := (pairwise_cons.mp tail).1 entry inBack
    unfold Before at prev
    rw [same] at prev
    exact irrefl prev

theorem split_at {idx : Nat} {pde : Entry α} (isAt : array[idx]? = some pde) :
    ∃ pre back, array = pre ++ pde :: back ∧
      (∀ x, array.set idx x = pre ++ x :: back) ∧ array.eraseIdx idx = pre ++ back := by
  obtain ⟨lt, rfl⟩ := List.getElem?_eq_some_iff.mp isAt
  refine ⟨array.take idx, array.drop (idx + 1), ?_, fun x => ?_, ?_⟩
  · rw [getElem_cons_drop, take_append_drop]
  · rw [set_eq_take_append_cons_drop, if_pos lt]
  · exact eraseIdx_eq_take_drop_succ array idx

end Array

section Add

variable {pd : Dictionary α} {entry : Entry α} {idx point : Nat}

/-- The room that a new key leaves. -/
def grown (pd : Dictionary α) : Nat :=
  if pd.pd_array.length = pd.pd_capacity then pd.pd_capacity + expandStep else pd.pd_capacity

theorem room_grown (fits : pd.pd_array.length ≤ pd.pd_capacity) :
    pd.pd_array.length < grown pd := by
  unfold grown expandStep
  split <;> omega

theorem grown_small (sml : pd.pd_capacity < 4294967296)
    (roomy : pd.pd_array.length = pd.pd_capacity → pd.pd_capacity + expandStep < 4294967296) :
    grown pd < 4294967296 := by
  unfold grown
  split
  · exact roomy (by assumption)
  · exact sml

theorem insert_length {array : List (Entry α)} (lt : point ≤ array.length) (entry : Entry α) :
    (array.take point ++ entry :: array.drop point).length = array.length + 1 := by
  simp only [length_append, length_cons, length_take, length_drop]
  omega

theorem add_eq (owns : Belongs entry.pde_key pd.pd_array point)
    (beside : 0 < pd.pd_array.length → Beside pd.pd_array.length point idx)
    (fits : pd.pd_array.length ≤ pd.pd_capacity)
    (roomy : pd.pd_array.length = pd.pd_capacity → pd.pd_capacity + expandStep < 4294967296) :
    propDictionaryAdd pd idx entry = some ⟨pd.pd_array.take point ++ entry ::
      pd.pd_array.drop point, grown pd, uint (pd.pd_version + 1)⟩ := by
  have isInsert := insertEntry_eq owns beside
  have longer := insert_length owns.inside entry
  have rm := room_grown fits
  unfold propDictionaryAdd propDictionaryRoom
  unfold grown at rm ⊢
  by_cases isFull : pd.pd_array.length = pd.pd_capacity
  · have grows := roomy isFull
    have isCapacity : uint (pd.pd_capacity + expandStep) = pd.pd_capacity + expandStep :=
      Nat.mod_eq_of_lt grows
    rw [if_pos isFull] at rm ⊢
    unfold propDictionaryExpand
    rw [isCapacity, if_neg (by omega)]
    simp only [bind_eq_bind, bind_some, isInsert]
    rw [if_neg (by omega), if_pos isFull]
  · rw [if_neg isFull] at rm ⊢
    simp only [bind_eq_bind, bind_some, isInsert]
    rw [if_neg (by omega), if_neg isFull]

theorem add_full (idx : Nat) (entry : Entry α) (sml : pd.pd_capacity < 4294967296)
    (isFull : pd.pd_array.length = pd.pd_capacity)
    (high : 4294967296 ≤ pd.pd_capacity + expandStep) : propDictionaryAdd pd idx entry = none := by
  have lt : pd.pd_capacity > uint (pd.pd_capacity + expandStep) := by
    unfold uint expandStep at *
    omega
  unfold propDictionaryAdd propDictionaryRoom propDictionaryExpand
  rw [if_pos isFull, if_pos lt]
  rfl

end Add

end NetBSD.Libprop
