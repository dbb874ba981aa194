import NetBSD.Libprop.Dictionary
import Mathlib.Logic.Function.Basic

/-!
Owns the dictionary as an ordered map over whole runs of sets and removals. The map that
it should be is kept beside it. The only ways to fail are to expand an array of `2 ^ 32`
entries less `EXPAND_STEP`, as the capacity is an `unsigned int`, and to count `2 ^ 32` references.
-/

namespace NetBSD.Libprop

open NetBSD.Arith NetBSD.Machine Function List Option

inductive Op where
  | set (key : CString) (po : Nat)
  | remove (key : CString)

def Op.key : Op → CString
  | set key _ => key
  | remove key => key

/-- A dictionary with the map that it should be. -/
structure Mapped where
  state : State
  map : CString → Option Nat

def track (mapped : Mapped) : Op → Option Mapped
  | .set key po =>
    (propDictionarySet mapped.state key po).map fun result =>
      ⟨result.1, update mapped.map key (some po)⟩
  | .remove key =>
    (propDictionaryRemove mapped.state key).map fun state =>
      ⟨state, update mapped.map key none⟩

/-- The number of entries with an object. -/
def stored (array : List (Entry Nat)) (po : Nat) : Nat :=
  array.countP fun entry => decide (entry.pde_objref = po)

def named (array : List (Entry Nat)) (key : CString) : Nat :=
  array.countP fun entry => decide (entry.pde_key = key)

/-- The dictionary is the map: its array is sorted, a lookup has the object of the map, an iteration
has each key once and in order, and each entry holds one reference to its object and one to its key
symbol. -/
structure OrderedMap (start : State) (mapped : Mapped) : Prop where
  increasing : ∀ (i j : Nat) (a b : Entry Nat), i < j → mapped.state.pd.pd_array[i]? = some a →
    mapped.state.pd.pd_array[j]? = some b → strcmp a.pde_key.bytes b.pde_key.bytes < 0
  get : ∀ key, propDictionaryGet mapped.state.pd key = some (mapped.map key)
  iterates : ∀ calls, mapped.state.pd.pd_array.length < calls →
    iterate mapped.state.pd calls (iteratorReset mapped.state.pd) =
      mapped.state.pd.pd_array.map Entry.pde_key
  keys : ∀ key, key ∈ mapped.state.pd.pd_array.map Entry.pde_key ↔ mapped.map key ≠ none
  objects : ∀ po, mapped.state.po_refcnt po =
    start.po_refcnt po + stored mapped.state.pd.pd_array po
  keysyms : ∀ key, mapped.state.pdk_refcnt key =
    start.pdk_refcnt key + if mapped.map key ≠ none then 1 else 0

/-- There is room for one more reference to the object, and for a new key for one to its symbol and
for its entry: the array is not full, or its capacity can grow. -/
def Roomy (mapped : Mapped) : Op → Prop
  | .set key po => mapped.state.po_refcnt po + 1 < 4294967296 ∧ (mapped.map key = none →
      mapped.state.pdk_refcnt key + 1 < 4294967296 ∧
      (mapped.state.pd.pd_array.length = mapped.state.pd.pd_capacity →
        mapped.state.pd.pd_capacity + expandStep < 4294967296))
  | .remove _ => True

/-- The invariant. -/
structure Sorted (start : State) (mapped : Mapped) : Prop where
  sorted : mapped.state.pd.pd_array.Pairwise Before
  fits : mapped.state.pd.pd_array.length ≤ mapped.state.pd.pd_capacity
  small : mapped.state.pd.pd_capacity < 4294967296
  entries : ∀ key po, mapped.map key = some po ↔ ⟨key, po⟩ ∈ mapped.state.pd.pd_array
  objects : ∀ po, mapped.state.po_refcnt po =
    start.po_refcnt po + stored mapped.state.pd.pd_array po
  keysyms : ∀ key, mapped.state.pdk_refcnt key =
    start.pdk_refcnt key + named mapped.state.pd.pd_array key

variable {key : CString}

section Counts

variable {array : List (Entry Nat)}

theorem stored_append (pre back : List (Entry Nat)) (po : Nat) :
    stored (pre ++ back) po = stored pre po + stored back po :=
  countP_append

theorem stored_cons (e : Entry Nat) (po : Nat) :
    stored (e :: array) po = stored array po + if e.pde_objref = po then 1 else 0 := by
  unfold stored
  rw [countP_cons]
  simp only [decide_eq_true_eq]

theorem named_append (pre back : List (Entry Nat)) (key : CString) :
    named (pre ++ back) key = named pre key + named back key :=
  countP_append

theorem named_cons (e : Entry Nat) (key : CString) :
    named (e :: array) key = named array key + if e.pde_key = key then 1 else 0 := by
  unfold named
  rw [countP_cons]
  simp only [decide_eq_true_eq]

theorem named_eq_zero (miss : ∀ e ∈ array, e.pde_key ≠ key) : named array key = 0 :=
  countP_eq_zero.mpr fun e isIn isKey => miss e isIn (of_decide_eq_true isKey)

end Counts

section Keep

variable {beg : State} {mapped : Mapped}

theorem Sorted.map_none (sorted : Sorted beg mapped) :
    mapped.map key = none ↔ ∀ e ∈ mapped.state.pd.pd_array, e.pde_key ≠ key := by
  constructor
  · rintro hn e isIn rfl
    have hsome := (sorted.entries e.pde_key e.pde_objref).mpr isIn
    rw [hn] at hsome
    cases hsome
  · intro miss
    cases isMap : mapped.map key with
    | none => rfl
    | some po => exact absurd rfl (miss _ ((sorted.entries key po).mp isMap))

theorem iterate_eq (pd : Dictionary Nat) {calls i : Nat} (few : i ≤ pd.pd_array.length)
    (suff : pd.pd_array.length < i + calls) :
    iterate pd calls ⟨i, pd.pd_version⟩ = (pd.pd_array.drop i).map Entry.pde_key := by
  induction calls generalizing i with
  | zero => omega
  | succ calls ih =>
    rw [iterate]
    unfold iteratorNext
    rw [if_neg fun ne => ne rfl]
    by_cases isEnd : i = pd.pd_array.length
    · rw [if_pos isEnd, isEnd, drop_length]
      rfl
    · have lt : i < pd.pd_array.length := by omega
      rw [if_neg isEnd]
      simp only [getElem?_eq_getElem lt, map_some]
      rw [ih lt (by omega), ← getElem_cons_drop lt, map_cons]

section

variable (sorted : Sorted beg mapped)

include sorted

/-- The sorted array is the map the claim speaks of. -/
theorem Sorted.orderedMap : OrderedMap beg mapped where
  increasing := by
    intro i j a b less isA isB
    obtain ⟨insideA, rfl⟩ := List.getElem?_eq_some_iff.mp isA
    obtain ⟨insideB, rfl⟩ := List.getElem?_eq_some_iff.mp isB
    exact pairwise_iff_getElem.mp sorted.sorted i j insideA insideB less
  get := by
    intro key
    obtain ⟨res, isRes, looked⟩ := @lookup_spec _ mapped.state.pd key sorted.sorted
    unfold propDictionaryGet
    rw [isRes]
    cases looked with
    | @found idx pde isAt isKey =>
      have isIn : pde ∈ mapped.state.pd.pd_array := mem_of_getElem? isAt
      have isMap := (sorted.entries pde.pde_key pde.pde_objref).mpr isIn
      rw [isKey] at isMap
      simp only [isAt, map_some, isMap]
    | near owns beside => rw [sorted.map_none.mpr owns.absent]
  iterates := by
    intro calls suff
    exact iterate_eq mapped.state.pd (Nat.zero_le _) (by omega)
  keys := by
    intro key
    constructor
    · intro isIn hn
      obtain ⟨e, ent, same⟩ := mem_map.mp isIn
      exact sorted.map_none.mp hn e ent same
    · intro notNone
      obtain ⟨po, isMap⟩ := ne_none_iff_exists'.mp notNone
      exact mem_map.mpr ⟨⟨key, po⟩, (sorted.entries key po).mp isMap, rfl⟩
  objects := sorted.objects
  keysyms := by
    intro key
    rw [sorted.keysyms]
    congr 1
    by_cases hn : mapped.map key = none
    · rw [if_neg fun notNone => notNone hn]
      exact named_eq_zero (sorted.map_none.mp hn)
    rw [if_pos hn]
    obtain ⟨po, isMap⟩ := ne_none_iff_exists'.mp hn
    obtain ⟨pre, back, isArray⟩ := append_of_mem ((sorted.entries key po).mp isMap)
    have isSorted := sorted.sorted
    rw [isArray] at isSorted ⊢
    have apart := keys_apart isSorted
    rw [named_append, named_cons, if_pos rfl,
      named_eq_zero (forall_mem_append.mp apart).1,
      named_eq_zero (forall_mem_append.mp apart).2]

/-- A key set again releases the old object. -/
theorem Sorted.replace {idx : Nat} {pde : Entry Nat}
    (isAt : mapped.state.pd.pd_array[idx]? = some pde) (isKey : pde.pde_key = key) (po : Nat) :
    ∃ s', (State.release { mapped.state with
        po_refcnt := fun o =>
          if o = po then mapped.state.po_refcnt o + 1 else mapped.state.po_refcnt o,
        pd := { mapped.state.pd with
          pd_array := mapped.state.pd.pd_array.set idx { pde with pde_objref := po } } }
        pde.pde_objref) = some s' ∧
      Sorted beg ⟨s', update mapped.map key (some po)⟩ := by
  obtain ⟨pre, back, isArray, isSet, _⟩ := split_at isAt
  have cnt := sorted.objects pde.pde_objref
  have apart := keys_apart (isArray ▸ sorted.sorted)
  have named_same : ∀ k, named (pre ++ { pde with pde_objref := po } :: back) k =
      named (pre ++ pde :: back) k := by
    intro k
    rw [named_append, named_append, named_cons, named_cons]
  rw [isArray, stored_append, stored_cons, if_pos rfl] at cnt
  unfold State.release
  dsimp only
  rw [if_neg (by split <;> omega)]
  refine ⟨_, rfl, ?_, ?_, sorted.small, fun k o => ?_, fun o => ?_, fun k => ?_⟩
  · rw [isSet]
    have isSorted := sorted.sorted
    rw [isArray] at isSorted
    obtain ⟨sortedFront, tail, across⟩ := pairwise_append.mp isSorted
    obtain ⟨above, sortedBack⟩ := pairwise_cons.mp tail
    refine pairwise_append.mpr ⟨sortedFront, pairwise_cons.mpr ⟨above, sortedBack⟩, ?_⟩
    intro a inF b isIn
    rcases mem_cons.mp isIn with rfl | inBack
    · exact across a inF pde mem_cons_self
    · exact across a inF b (mem_cons_of_mem pde inBack)
  · rw [length_set]
    exact sorted.fits
  · rw [isSet]
    dsimp only
    have ents := sorted.entries k o
    rw [isArray] at ents
    by_cases same : k = key
    · subst same
      rw [update_self, some.injEq]
      constructor
      · rintro rfl
        refine mem_append_right _ (mem_cons.mpr (.inl ?_))
        rw [← isKey]
      intro isIn
      rcases mem_append.mp isIn with inF | mem
      · exact absurd isKey.symm (apart _ (mem_append_left back inF))
      · rcases mem_cons.mp mem with isNew | inBack
        · exact (Entry.mk.inj isNew).2.symm
        · exact absurd isKey.symm (apart _ (mem_append_right pre inBack))
    · rw [update_of_ne same, ents, mem_append, mem_append, mem_cons,
        mem_cons]
      have notOld : (⟨k, o⟩ : Entry Nat) ≠ pde := fun eq => same (by rw [← isKey, ← eq])
      have notNew : (⟨k, o⟩ : Entry Nat) ≠ { pde with pde_objref := po } := fun eq =>
        same ((Entry.mk.inj eq).1.trans isKey)
      simp only [notOld, notNew]
  · have objects := sorted.objects o
    rw [isArray, stored_append, stored_cons] at objects
    rw [isSet, stored_append, stored_cons]
    dsimp only
    by_cases isOld : o = pde.pde_objref
    · subst isOld
      rw [if_pos rfl] at objects ⊢
      by_cases isNew : pde.pde_objref = po
      · rw [if_pos isNew, if_pos isNew.symm]
        omega
      · rw [if_neg isNew, if_neg fun eq => isNew eq.symm]
        omega
    · rw [if_neg fun eq => isOld eq.symm] at objects
      rw [if_neg isOld]
      by_cases isNew : o = po
      · rw [if_pos isNew, if_pos isNew.symm]
        omega
      · rw [if_neg isNew, if_neg fun eq => isNew eq.symm, objects]
  · rw [isSet, named_same, ← isArray]
    exact sorted.keysyms k

/-- A new key goes in at its place. -/
theorem Sorted.insert {point : Nat}
    (owns : Belongs key mapped.state.pd.pd_array point) (po : Nat) {capacity ver : Nat}
    (rm : mapped.state.pd.pd_array.length < capacity) (small : capacity < 4294967296)
    {pdk_refcnt : CString → Nat}
    (isAlloc : pdk_refcnt = fun k => if k = key then mapped.state.pdk_refcnt k + 1
      else mapped.state.pdk_refcnt k) :
    Sorted beg ⟨⟨⟨mapped.state.pd.pd_array.take point ++ ⟨key, po⟩ ::
        mapped.state.pd.pd_array.drop point, capacity, ver⟩,
      fun o => if o = po then mapped.state.po_refcnt o + 1 else mapped.state.po_refcnt o,
      pdk_refcnt⟩, update mapped.map key (some po)⟩ where
  sorted := @sorted_insert _ _ ⟨key, po⟩ _ sorted.sorted owns
  fits := by
    have lt := owns.inside
    simp only [length_append, length_cons, length_take, length_drop]
    omega
  small := small
  entries := by
    intro k o
    have split := take_append_drop point mapped.state.pd.pd_array
    rw [mem_append, mem_cons]
    dsimp only
    by_cases same : k = key
    · subst same
      rw [update_self, some.injEq]
      constructor
      · rintro rfl
        exact .inr (.inl rfl)
      · rintro (pre | isNew | inBack)
        · exact absurd rfl (owns.absent _ (mem_of_mem_take pre))
        · exact (Entry.mk.inj isNew).2.symm
        · exact absurd rfl (owns.absent _ (mem_of_mem_drop inBack))
    · have notNew : (⟨k, o⟩ : Entry Nat) ≠ ⟨key, po⟩ := fun eq => same (Entry.mk.inj eq).1
      have entries := sorted.entries k o
      rw [← split, mem_append] at entries
      rw [update_of_ne same, entries]
      simp only [notNew, false_or]
  objects := by
    intro o
    have objects := sorted.objects o
    rw [← take_append_drop point mapped.state.pd.pd_array, stored_append] at objects
    rw [stored_append, stored_cons]
    dsimp only
    by_cases isNew : o = po
    · rw [if_pos isNew, if_pos isNew.symm]
      omega
    · rw [if_neg isNew, if_neg fun eq => isNew eq.symm]
      omega
  keysyms := by
    intro k
    have keysyms := sorted.keysyms k
    rw [← take_append_drop point mapped.state.pd.pd_array, named_append] at keysyms
    rw [named_append, named_cons, isAlloc]
    dsimp only
    by_cases isNew : k = key
    · rw [if_pos isNew, if_pos isNew.symm]
      omega
    · rw [if_neg isNew, if_neg fun eq => isNew eq.symm]
      omega

/-- A removed entry releases key and object. -/
theorem Sorted.erase {idx : Nat} {pde : Entry Nat}
    (isAt : mapped.state.pd.pd_array[idx]? = some pde) (isKey : pde.pde_key = key)
    (ver : Nat) : ∃ middle s', (State.keysymRelease { mapped.state with
        pd := ⟨mapped.state.pd.pd_array.eraseIdx idx, mapped.state.pd.pd_capacity, ver⟩ }
        pde.pde_key) = some middle ∧ middle.release pde.pde_objref = some s' ∧
      Sorted beg ⟨s', update mapped.map key none⟩ := by
  obtain ⟨pre, back, isArray, _, isErased⟩ := split_at isAt
  have countedObject := sorted.objects pde.pde_objref
  have countedKey := sorted.keysyms pde.pde_key
  have apart := keys_apart (isArray ▸ sorted.sorted)
  rw [isArray, stored_append, stored_cons, if_pos rfl] at countedObject
  rw [isArray, named_append, named_cons, if_pos rfl] at countedKey
  unfold State.keysymRelease State.release
  rw [if_neg (by dsimp only; omega)]
  refine ⟨_, _, rfl, if_neg (by dsimp only; omega), ?_, ?_, sorted.small, fun k o => ?_,
    fun o => ?_, fun k => ?_⟩
  · rw [isErased]
    have isSorted := sorted.sorted
    rw [isArray] at isSorted
    exact isSorted.sublist (List.Sublist.append (List.Sublist.refl pre)
      (sublist_cons_self pde back))
  · exact le_trans (eraseIdx_sublist _ _).length_le sorted.fits
  · rw [isErased]
    dsimp only
    have ents := sorted.entries k o
    rw [isArray] at ents
    by_cases same : k = key
    · subst same
      rw [update_self]
      refine iff_of_false (fun hsome => by cases hsome) fun isIn => ?_
      exact apart _ isIn isKey.symm
    · have notOld : (⟨k, o⟩ : Entry Nat) ≠ pde := fun eq => same (by rw [← isKey, ← eq])
      rw [update_of_ne same, ents, mem_append, mem_append, mem_cons]
      simp only [notOld, false_or]
  · have objects := sorted.objects o
    rw [isArray, stored_append, stored_cons] at objects
    rw [isErased, stored_append]
    dsimp only
    by_cases isOld : o = pde.pde_objref
    · rw [if_pos isOld]
      rw [if_pos isOld.symm] at objects
      omega
    · rw [if_neg isOld]
      rw [if_neg fun eq => isOld eq.symm] at objects
      omega
  · have keysyms := sorted.keysyms k
    rw [isArray, named_append, named_cons] at keysyms
    rw [isErased, named_append]
    dsimp only
    by_cases isOld : k = pde.pde_key
    · rw [if_pos isOld]
      rw [if_pos isOld.symm] at keysyms
      omega
    · rw [if_neg isOld]
      rw [if_neg fun eq => isOld eq.symm] at keysyms
      omega

theorem Sorted.remove (key : CString) :
    ∃ s', track mapped (.remove key) = some s' ∧ Sorted beg s' := by
  obtain ⟨res, isRes, looked⟩ := @lookup_spec _ mapped.state.pd key sorted.sorted
  unfold track propDictionaryRemove
  simp only [isRes]
  cases looked with
  | found isAt isKey =>
    obtain ⟨middle, s', isMiddle, aft, kept⟩ :=
      sorted.erase isAt isKey (uint (mapped.state.pd.pd_version + 1))
    simp only [isAt, isMiddle, bind_eq_bind, bind_some, aft]
    exact ⟨_, rfl, kept⟩
  | near owns beside =>
    refine ⟨_, rfl, ?_⟩
    have hn := sorted.map_none.mpr owns.absent
    rw [← hn, update_eq_self]
    exact sorted

omit sorted in
theorem retain_few {st : State} {po : Nat} (few : st.po_refcnt po + 1 < 4294967296) :
    st.retain po = some { st with
        po_refcnt := fun o => if o = po then st.po_refcnt o + 1 else st.po_refcnt o } :=
  if_neg (Nat.not_le.mpr few)

omit sorted in
theorem keysymAlloc_few {st : State} (short : key.bytes.length ≤ pdkMaxkey)
    (few : st.pdk_refcnt key + 1 < 4294967296) :
    st.keysymAlloc key = some (some { st with
        pdk_refcnt := fun k =>
          if k = key then st.pdk_refcnt k + 1 else st.pdk_refcnt k }) := by
  unfold State.keysymAlloc
  rw [if_neg fun both => absurd both.2 (Nat.not_lt.mpr short), if_neg (Nat.not_le.mpr few)]

theorem Sorted.set_old {old : Nat} (hsome : mapped.map key = some old) {po : Nat}
    (few : mapped.state.po_refcnt po + 1 < 4294967296) :
    ∃ s', track mapped (.set key po) = some s' ∧ Sorted beg s' := by
  obtain ⟨res, isRes, looked⟩ := @lookup_spec _ mapped.state.pd key sorted.sorted
  unfold track propDictionarySet
  simp only [isRes]
  cases looked with
  | found isAt isKey =>
    obtain ⟨s', aft, kept⟩ := sorted.replace isAt isKey po
    simp only [isAt, retain_few few, bind_eq_bind, bind_some, aft]
    exact ⟨_, rfl, kept⟩
  | near owns beside =>
    rw [sorted.map_none.mpr owns.absent] at hsome
    cases hsome

end

section

variable (sorted : Sorted beg mapped)

include sorted

theorem Sorted.set_new (short : key.bytes.length ≤ pdkMaxkey) (hn : mapped.map key = none)
    {po : Nat} (roomy : Roomy mapped (.set key po)) :
    ∃ s', track mapped (.set key po) = some s' ∧ Sorted beg s' ∧
      s'.state.pd.pd_array.length = mapped.state.pd.pd_array.length + 1 ∧
      s'.state.pd.pd_capacity = grown mapped.state.pd := by
  obtain ⟨few, isRoom⟩ := roomy
  obtain ⟨fewKeys, rm⟩ := isRoom hn
  obtain ⟨res, isRes, looked⟩ := @lookup_spec _ mapped.state.pd key sorted.sorted
  unfold track propDictionarySet
  simp only [isRes]
  cases looked with
  | found isAt isKey =>
    exact absurd isKey (sorted.map_none.mp hn _ (mem_of_getElem? isAt))
  | @near idx point owns beside =>
    have isAdd := @add_eq _ mapped.state.pd ⟨key, po⟩ idx point owns beside sorted.fits rm
    have longer := insert_length owns.inside (⟨key, po⟩ : Entry Nat)
    have isRetain := fun keys => @retain_few ⟨mapped.state.pd, mapped.state.po_refcnt, keys⟩ po few
    simp only [keysymAlloc_few short fewKeys, isRetain, bind_eq_bind, bind_some, isAdd]
    exact ⟨_, rfl, sorted.insert owns po (room_grown sorted.fits)
      (grown_small sorted.small rm) rfl, longer, rfl⟩

/-- A set without room comes to nothing, whichever of the three it has no room for. -/
theorem Sorted.set_full {key : CString} (short : key.bytes.length ≤ pdkMaxkey) {po : Nat}
    (full : ¬ Roomy mapped (.set key po)) : track mapped (.set key po) = none := by
  obtain ⟨res, isRes, looked⟩ := @lookup_spec _ mapped.state.pd key sorted.sorted
  unfold track propDictionarySet
  simp only [isRes]
  by_cases few : mapped.state.po_refcnt po + 1 < 4294967296
  · have notRoom : ¬ (mapped.map key = none → _) := fun isRoom => full ⟨few, isRoom⟩
    push Not at notRoom
    obtain ⟨hn, notBoth⟩ := notRoom
    cases looked with
    | found isAt isKey =>
      exact absurd isKey (sorted.map_none.mp hn _ (mem_of_getElem? isAt))
    | near owns beside =>
      by_cases fewKeys : mapped.state.pdk_refcnt key + 1 < 4294967296
      · obtain ⟨isFull, high⟩ := notBoth fewKeys
        have isRetain := fun keys =>
          @retain_few ⟨mapped.state.pd, mapped.state.po_refcnt, keys⟩ po few
        simp only [keysymAlloc_few short fewKeys, isRetain, bind_eq_bind, bind_some]
        rw [add_full _ _ sorted.small isFull high]
        rfl
      · have isNull : mapped.state.keysymAlloc key = none := by
          unfold State.keysymAlloc
          rw [if_neg fun both => absurd both.2 (Nat.not_lt.mpr short), if_pos (not_lt.mp fewKeys)]
        simp only [isNull]
        rfl
  · have isNull : ∀ keys, State.retain ⟨mapped.state.pd, mapped.state.po_refcnt, keys⟩ po = none :=
      fun _ => if_pos (not_lt.mp few)
    cases looked with
    | found isAt isKey =>
      have isHere : mapped.state.retain po = none := isNull mapped.state.pdk_refcnt
      simp only [isAt, isHere]
      rfl
    | near owns beside =>
      cases isAlloc : mapped.state.keysymAlloc key with
      | none => rfl
      | some alloc =>
        unfold State.keysymAlloc at isAlloc
        rw [if_neg fun both => absurd both.2 (Nat.not_lt.mpr short)] at isAlloc
        split at isAlloc
        · cases isAlloc
        cases isAlloc
        simp only [isNull]
        rfl

theorem Sorted.step {op : Op} (short : op.key.bytes.length ≤ pdkMaxkey) (roomy : Roomy mapped op) :
    ∃ s', track mapped op = some s' ∧ Sorted beg s' := by
  cases op with
  | set key po =>
    cases isMap : mapped.map key with
    | none =>
      obtain ⟨s', aft, kept, _⟩ := sorted.set_new short isMap roomy
      exact ⟨s', aft, kept⟩
    | some old => exact sorted.set_old isMap roomy.1
  | remove key => exact sorted.remove key

theorem Sorted.roomy {op : Op} (short : op.key.bytes.length ≤ pdkMaxkey) {s' : Mapped}
    (aft : track mapped op = some s') : Roomy mapped op := by
  cases op with
  | set key po =>
    by_contra full
    have hn := @Sorted.set_full _ _ sorted key short po full
    rw [hn] at aft
    cases aft
  | remove key => trivial

theorem Sorted.tracked {op : Op} (short : op.key.bytes.length ≤ pdkMaxkey) {s' : Mapped}
    (aft : track mapped op = some s') : Sorted beg s' := by
  obtain ⟨got, reach, kept⟩ := sorted.step short (sorted.roomy short aft)
  obtain rfl := some.inj (reach.symm.trans aft)
  exact kept

end

end Keep

/-!
### Runs

The run theorem of the dictionary, and the run that fills one with all the keys there
is room for.
-/

/-- A new dictionary among objects and key symbols with references of their own. -/
def fresh (capacity : Nat) (po_refcnt : Nat → Nat) (pdk_refcnt : CString → Nat) : Mapped :=
  ⟨⟨propDictionaryCreate capacity, po_refcnt, pdk_refcnt⟩, fun _ => none⟩

theorem fresh_sorted {capacity : Nat} (isUint : capacity < 4294967296) (po_refcnt : Nat → Nat)
    (pdk_refcnt : CString → Nat) :
    Sorted (fresh capacity po_refcnt pdk_refcnt).state (fresh capacity po_refcnt pdk_refcnt) where
  sorted := List.Pairwise.nil
  fits := Nat.zero_le capacity
  small := isUint
  entries := fun key po =>
    iff_of_false (fun hsome => by cases hsome) (fun isIn => not_mem_nil isIn)
  objects := fun _ => rfl
  keysyms := fun _ => rfl

section Runs

variable {beg : State} {mapped : Mapped}

theorem Sorted.along (sorted : Sorted beg mapped) {ops : List Op}
    (short : ∀ op ∈ ops, op.key.bytes.length ≤ pdkMaxkey) {front : List Op}
    (pre : front <+: ops) {got : Mapped}
    (reach : consume track front mapped = some got) : Sorted beg got := by
  apply consume_safe track (Sorted beg) (fun _ op => op.key.bytes.length ≤ pdkMaxkey) ?_
    front sorted ?_ reach
  · intro st op s' kept hsh aft
    exact kept.tracked hsh aft
  · intro first op fst _ _
    exact short op ((fst.trans pre).subset (mem_append_right _ mem_cons_self))

theorem consume_snoc {pre : List Op} {op : Op} {got : Mapped}
    (reach : consume track pre mapped = some got) :
    consume track (pre ++ [op]) mapped = track got op := by
  rw [consume_append, reach, bind_some, consume]
  cases track got op with
  | none => rfl
  | some s' => rfl

end Runs

section Fill

/-- The digits of a number in base two. -/
def digits (n : Nat) : List UInt8 := (List.range 32).map fun i => if n.testBit i then 49 else 48

theorem digits_noNul (n : Nat) : ∀ c ∈ digits n, c ≠ 0 := by
  intro c isIn
  obtain ⟨i, _, rfl⟩ := mem_map.mp isIn
  split
  · decide
  · decide

def digitsKey (n : Nat) : CString := ⟨digits n, digits_noNul n⟩

theorem digitsKey_short (n : Nat) : (digitsKey n).bytes.length ≤ pdkMaxkey := by
  unfold digitsKey digits
  rw [length_map]
  decide

theorem digit_injective : ∀ a b : Bool,
    (if a then (49 : UInt8) else 48) = (if b then 49 else 48) → a = b := by
  decide

theorem digitsKey_injective {m n : Nat} (smallM : m < 4294967296) (smallN : n < 4294967296)
    (same : digitsKey m = digitsKey n) : m = n := by
  have sameDigits : digits m = digits n := congrArg CString.bytes same
  apply Nat.eq_of_testBit_eq
  intro i
  by_cases low : i < 32
  · have sameDigit := map_inj_left.mp sameDigits i (List.mem_range.mpr low)
    exact digit_injective (m.testBit i) (n.testBit i) sameDigit
  · have high : 4294967296 ≤ 2 ^ i := Nat.pow_le_pow_right (show 0 < 2 by omega) (not_lt.mp low)
    rw [Nat.testBit_lt_two_pow (lt_of_lt_of_le smallM high),
      Nat.testBit_lt_two_pow (lt_of_lt_of_le smallN high)]

/-- The sets of so many keys, all for one object. -/
def fill (count : Nat) : List Op := (List.range count).map fun n => .set (digitsKey n) 0

theorem fill_short (cnt : Nat) : ∀ op ∈ fill cnt, op.key.bytes.length ≤ pdkMaxkey := by
  intro op isIn
  obtain ⟨n, _, rfl⟩ := mem_map.mp isIn
  exact digitsKey_short n

theorem fill_succ (cnt : Nat) : fill (cnt + 1) = fill cnt ++ [.set (digitsKey cnt) 0] := by
  unfold fill
  rw [range_succ, map_append]
  rfl

/-- A dictionary with the first keys, which was new and without room. -/
structure Filled (start : State) (count : Nat) (mapped : Mapped) : Prop where
  sorted : Sorted start mapped
  length : mapped.state.pd.pd_array.length = count
  rounded : mapped.state.pd.pd_capacity = (count + 15) / 16 * 16
  absent : ∀ n, count ≤ n → n < 4294967296 → mapped.map (digitsKey n) = none

variable {po_refcnt : Nat → Nat} {pdk_refcnt : CString → Nat}

theorem fill_filled {cnt : Nat} (below : cnt ≤ 4294967280) (fewObjects : po_refcnt 0 ≤ 1)
    (noKeys : ∀ key, pdk_refcnt key = 0) :
    ∃ got, consume track (fill cnt) (fresh 0 po_refcnt pdk_refcnt) = some got ∧
      Filled (fresh 0 po_refcnt pdk_refcnt).state cnt got := by
  induction cnt with
  | zero =>
    refine ⟨fresh 0 po_refcnt pdk_refcnt, rfl, ?_⟩
    exact ⟨fresh_sorted (Nat.succ_pos _) po_refcnt pdk_refcnt, rfl, rfl, fun _ _ _ => rfl⟩
  | succ cnt ih =>
    obtain ⟨got, reach, full⟩ := ih (by omega)
    have hn := full.absent cnt (le_refl cnt) (by omega)
    have len := full.length
    have rounded := full.rounded
    have roomy : Roomy got (.set (digitsKey cnt) 0) := by
      have objects := full.sorted.objects 0
      have keysyms := full.sorted.keysyms (digitsKey cnt)
      rw [named_eq_zero (full.sorted.map_none.mp hn)] at keysyms
      have fewStored : stored got.state.pd.pd_array 0 ≤ got.state.pd.pd_array.length :=
        countP_le_length
      have : (fresh 0 po_refcnt pdk_refcnt).state.po_refcnt 0 ≤ 1 := fewObjects
      have : (fresh 0 po_refcnt pdk_refcnt).state.pdk_refcnt (digitsKey cnt) = 0 := noKeys _
      refine ⟨by omega, fun _ => ⟨by omega, fun isFull => ?_⟩⟩
      unfold expandStep
      omega
    obtain ⟨s', aft, kept, longer, isCapacity⟩ :=
      full.sorted.set_new (digitsKey_short cnt) hn roomy
    rw [fill_succ, consume_snoc reach]
    refine ⟨s', aft, kept, by omega, ?_, ?_⟩
    · rw [isCapacity]
      unfold grown expandStep
      split <;> omega
    intro n above sml
    obtain ⟨res, _, rfl⟩ := map_eq_some_iff.mp aft
    have apart : digitsKey n ≠ digitsKey cnt := fun same => by
      have := digitsKey_injective sml (by omega) same
      omega
    dsimp only
    rw [update_of_ne apart]
    exact full.absent n (by omega) sml

end Fill

/-- In every run of sets and removals the dictionary is an ordered map as far as there is room for
the new keys, and only as far. -/
theorem dictionary_map {capacity : Nat} (isUint : capacity < 4294967296) (po_refcnt : Nat → Nat)
    (pdk_refcnt : CString → Nat) (ops : List Op)
    (short : ∀ op ∈ ops, op.key.bytes.length ≤ pdkMaxkey) : (∀ front, front <+: ops → ∃ reached,
      consume track front (fresh capacity po_refcnt pdk_refcnt) = some reached ∧
        OrderedMap (fresh capacity po_refcnt pdk_refcnt).state reached) ↔
    ∀ front op, front ++ [op] <+: ops → ∀ reached,
      consume track front (fresh capacity po_refcnt pdk_refcnt) = some reached →
        Roomy reached op := by
  have sorted := fresh_sorted isUint po_refcnt pdk_refcnt
  constructor
  · intro ord front op pre reached reach
    have lt : front <+: ops := (prefix_append front [op]).trans pre
    have kept := sorted.along short lt reach
    have hsh : op.key.bytes.length ≤ pdkMaxkey :=
      short op (pre.subset (mem_append_right _ mem_cons_self))
    obtain ⟨s', aft, _⟩ := ord (front ++ [op]) pre
    rw [consume_snoc reach] at aft
    exact kept.roomy hsh aft
  intro roomy front pre
  obtain ⟨reached, reach, kept⟩ := consume_invariant track
    (Sorted (fresh capacity po_refcnt pdk_refcnt).state)
    (fun st op => op.key.bytes.length ≤ pdkMaxkey ∧ Roomy st op)
    (fun st op kept fine => kept.step fine.1 fine.2) front sorted (by
      intro first op fst st isState
      have bnd := fst.trans pre
      have isIn : op ∈ first ++ [op] := mem_append_right _ mem_cons_self
      exact ⟨short op (bnd.subset isIn), roomy first op bnd st isState⟩)
  exact ⟨reached, reach, kept.orderedMap⟩

/-- A key is set and removed again. -/
theorem dictionary_map_two : ∃ reached, consume track [.set (digitsKey 1) 7, .remove (digitsKey 1)]
      (fresh 0 (fun _ => 1) fun _ => 0) = some reached ∧
    OrderedMap (fresh 0 (fun _ => 1) fun _ => 0).state reached := by
  apply (dictionary_map (by decide) (fun _ => 1) (fun _ => 0)
    [.set (digitsKey 1) 7, .remove (digitsKey 1)] ?_).mpr ?_ _ (prefix_refl _)
  · intro op isIn
    rcases mem_pair.mp isIn with rfl | rfl
    · exact digitsKey_short 1
    · exact digitsKey_short 1
  intro front op pre reached reach
  cases front with
  | nil =>
    obtain rfl : op = .set (digitsKey 1) 7 := by simpa using pre
    obtain rfl := some.inj reach
    exact ⟨by decide, fun _ => ⟨by decide, fun _ => by decide⟩⟩
  | cons fst front =>
    cases front with
    | nil =>
      obtain ⟨rfl, rfl⟩ : fst = .set (digitsKey 1) 7 ∧ op = .remove (digitsKey 1) := by
        simpa using pre
      trivial
    | cons snd front =>
      have hsh := pre.length_le
      simp only [length_append, length_cons] at hsh
      omega

/-- The set of one key more than `2 ^ 32 - 16` copies all entries into an array without room. -/
theorem dictionary_map_full : (∀ op ∈ fill 4294967281, op.key.bytes.length ≤ pdkMaxkey) ∧
    consume track (fill 4294967281) (fresh 0 (fun _ => 1) fun _ => 0) = none := by
  refine ⟨fill_short _, ?_⟩
  obtain ⟨got, reach, full⟩ :=
    @fill_filled (fun _ => 1) (fun _ => 0) 4294967280 (le_refl _) (le_refl 1) fun _ => rfl
  rw [fill_succ, consume_snoc reach]
  apply full.sorted.set_full (digitsKey_short _)
  intro roomy
  have rm := (roomy.2 (full.absent _ (le_refl _) (by omega))).2
    (by rw [full.length, full.rounded])
  rw [full.rounded] at rm
  unfold expandStep at rm
  omega

end NetBSD.Libprop
