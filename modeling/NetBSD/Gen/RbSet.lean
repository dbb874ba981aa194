import Mathlib.Data.Finset.Basic
import Mathlib.Data.Finset.Card
import Mathlib.Data.List.Pairwise
import NetBSD.Gen.RbSwap
import NetBSD.Machine.Trace

/-!
Owns the red-black tree as an ordered set. The abstract state is the set of objects
in the tree; every sequence of insertions and of removals of present objects keeps
the tree in memory a well-formed tree of exactly that set.
-/

namespace NetBSD.Gen

open NetBSD.Zipper NetBSD.Machine Option Nat ColorTree

universe u

inductive RbCall (α : Type u) where
  | insert (object : α)
  | remove (object : α)
  deriving DecidableEq, Repr

section Set

variable {α : Type u} [DecidableEq α] (compareNodes : α → α → Int)

def setStep (objects : Finset α) : RbCall α → Finset α
  | .insert x => if ∃ y ∈ objects, compareNodes y x = 0 then objects else insert x objects
  | .remove x => objects.erase x

def Admissible : Finset α → List (RbCall α) → Prop
  | _, [] => True
  | objects, call :: rest =>
    (∀ x, call = .remove x → x ∈ objects) ∧ Admissible (setStep compareNodes objects call) rest

def callStep (fuel : Nat) (t : RbTree α) : RbCall α → Option (RbTree α)
  | .insert x => (rbTreeInsertNode compareNodes fuel t x).map Prod.fst
  | .remove x => rbTreeRemoveNode fuel t x

def Holds (t : RbTree α) (objects : Finset α) : Prop :=
  ∃ tree, WellFormed compareNodes t tree ∧ (tree.walk .left).toFinset = objects

end Set

section Steps

variable {α : Type u} [DecidableEq α] {compareNodes : α → α → Int} {t : RbTree α}
  {objects : Finset α} {fuel : Nat}

theorem holds_init (mem : α → RbNode α) : Holds compareNodes (rbTreeInit mem) ∅ :=
  ⟨.leaf, ⟨⟨rfl, trivial, List.nodup_nil⟩, List.Pairwise.nil, ⟨rfl, 0, rfl⟩, nofun⟩, rfl⟩

theorem WellFormed.length_eq {tree : ColorTree α} (wf : WellFormed compareNodes t tree)
    (same : (tree.walk .left).toFinset = objects) : (tree.walk .left).length = objects.card := by
  rw [← same, List.toFinset_card_of_nodup wf.represents.distinct]

theorem WellFormed.unique (laws : CompareLaws compareNodes) {tree : ColorTree α}
    (wf : WellFormed compareNodes t tree) {x y z : α} (yIn : y ∈ tree.walk .left)
    (zIn : z ∈ tree.walk .left) (yEqual : compareNodes y x = 0) (zEqual : compareNodes z x = 0) :
    y = z := by
  have symmetric : Std.Symm fun a b => ¬ (compareNodes a x = 0 ∧ compareNodes b x = 0) :=
    ⟨fun a b never equal => never equal.symm⟩
  have apart : (tree.walk .left).Pairwise
      fun a b => ¬ (compareNodes a x = 0 ∧ compareNodes b x = 0) := by
    refine wf.ordered.imp fun {a b} lt equal => ?_
    have below := (laws.congr a x b equal.1).mp lt
    have above := (laws.swap x b).mp below
    omega
  by_contra diff
  exact apart.forall yIn zIn diff ⟨yEqual, zEqual⟩

section

variable (laws : CompareLaws compareNodes) (holds : Holds compareNodes t objects)
  (enough : objects.card < fuel)

include laws holds enough

theorem insert_existing {x y : α} (yIn : y ∈ objects) (equal : compareNodes y x = 0) :
    rbTreeInsertNode compareNodes fuel t x = some (t, y) := by
  obtain ⟨tree, wf, rfl⟩ := holds
  rw [← wf.length_eq rfl] at enough
  rw [List.mem_toFinset] at yIn
  rcases rbTreeInsertNode_spec laws x wf enough with
    ⟨z, zIn, zEqual, inserted⟩ | ⟨no, -⟩
  · rw [inserted, wf.unique laws yIn zIn equal zEqual]
  · exact absurd equal (no y yIn)

theorem insert_new {x : α} (new : ∀ y ∈ objects, compareNodes y x ≠ 0) :
    ∃ t', rbTreeInsertNode compareNodes fuel t x = some (t', x) ∧
      Holds compareNodes t' (insert x objects) := by
  obtain ⟨tree, wf, rfl⟩ := holds
  rw [← wf.length_eq rfl] at enough
  rcases rbTreeInsertNode_spec laws x wf enough with
    ⟨y, yIn, equal, -⟩ | ⟨-, t', tree', inserted, wellFormed', members⟩
  · exact absurd equal (new y (List.mem_toFinset.mpr yIn))
  · refine ⟨t', inserted, tree', wellFormed', ?_⟩
    ext b
    rw [List.mem_toFinset, members, Finset.mem_insert, List.mem_toFinset]

end

theorem remove_present (holds : Holds compareNodes t objects) (enough : objects.card < fuel)
    {x : α} (mem : x ∈ objects) :
    ∃ t', rbTreeRemoveNode fuel t x = some t' ∧ Holds compareNodes t' (objects.erase x) := by
  obtain ⟨tree, wf, rfl⟩ := holds
  rw [← wf.length_eq rfl] at enough
  rw [List.mem_toFinset] at mem
  obtain ⟨t', tree', gone, wellFormed', members⟩ :=
    rbTreeRemoveNode_spec wf mem enough
  refine ⟨t', gone, tree', wellFormed', ?_⟩
  ext b
  rw [List.mem_toFinset, members, Finset.mem_erase, List.mem_toFinset]

theorem callStep_holds (laws : CompareLaws compareNodes) (holds : Holds compareNodes t objects)
    (enough : objects.card < fuel) {call : RbCall α} (here : ∀ x, call = .remove x → x ∈ objects) :
    ∃ t', callStep compareNodes fuel t call = some t' ∧
      Holds compareNodes t' (setStep compareNodes objects call) := by
  cases call with
  | insert x =>
    by_cases exists_ : ∃ y ∈ objects, compareNodes y x = 0
    · obtain ⟨y, yIn, equal⟩ := exists_
      refine ⟨t, ?_, ?_⟩
      · rw [callStep, insert_existing laws holds enough yIn equal]
        rfl
      · rw [setStep, if_pos ⟨y, yIn, equal⟩]
        exact holds
    obtain ⟨t', inserted, holds'⟩ := insert_new laws holds enough
      fun y yIn equal => exists_ ⟨y, yIn, equal⟩
    refine ⟨t', ?_, ?_⟩
    · rw [callStep, inserted]
      rfl
    · rw [setStep, if_neg exists_]
      exact holds'
  | remove x => exact remove_present holds enough (here x rfl)

theorem card_setStep (compareNodes : α → α → Int) (objects : Finset α) (call : RbCall α) :
    (setStep compareNodes objects call).card ≤ objects.card + 1 := by
  cases call with
  | insert x =>
    rw [setStep]
    split
    · omega
    · exact Finset.card_insert_le x objects
  | remove x =>
    have := Finset.card_erase_le (s := objects) (a := x)
    rw [setStep]
    omega

theorem calls_hold (laws : CompareLaws compareNodes) (calls : List (RbCall α))
    (holds : Holds compareNodes t objects) (admissible : Admissible compareNodes objects calls)
    (enough : objects.card + calls.length < fuel) :
    ∃ t', consume (callStep compareNodes fuel) calls t = some t' ∧
      Holds compareNodes t' (calls.foldl (setStep compareNodes) objects) ∧
      (calls.foldl (setStep compareNodes) objects).card < fuel := by
  induction calls generalizing t objects with
  | nil => exact ⟨t, rfl, holds, by simpa using enough⟩
  | cons call rest ih =>
    rw [List.length_cons] at enough
    obtain ⟨t₁, moved, holds₁⟩ := callStep_holds laws holds
      (show objects.card < fuel by omega) admissible.1
    have grown := card_setStep compareNodes objects call
    obtain ⟨t', eaten, rest'⟩ := ih holds₁ admissible.2 (by omega)
    refine ⟨t', ?_, rest'⟩
    rw [consume, moved]
    exact eaten

/-- A red-black tree behaves as an ordered set. -/
theorem rbTree_orderedSet (laws : CompareLaws compareNodes) (mem : α → RbNode α)
    (calls : List (RbCall α)) (admissible : Admissible compareNodes ∅ calls)
    (enough : calls.length < fuel) :
    ∃ t, consume (callStep compareNodes fuel) calls (rbTreeInit mem) = some t ∧
      Holds compareNodes t (calls.foldl (setStep compareNodes) ∅) ∧
      (∀ x y, y ∈ calls.foldl (setStep compareNodes) ∅ → compareNodes y x = 0 →
        rbTreeInsertNode compareNodes fuel t x = some (t, y)) ∧
      (∀ x, (∀ y ∈ calls.foldl (setStep compareNodes) ∅, compareNodes y x ≠ 0) →
        ∃ t', rbTreeInsertNode compareNodes fuel t x = some (t', x) ∧
          Holds compareNodes t' (insert x (calls.foldl (setStep compareNodes) ∅))) ∧
      (∀ x ∈ calls.foldl (setStep compareNodes) ∅, ∃ t', rbTreeRemoveNode fuel t x = some t' ∧
          Holds compareNodes t' ((calls.foldl (setStep compareNodes) ∅).erase x)) := by
  obtain ⟨t, eaten, holds, room⟩ :=
    calls_hold laws calls (holds_init mem) admissible (by simpa using enough)
  exact ⟨t, eaten, holds, fun x y yIn equal => insert_existing laws holds room yIn equal,
    fun x new => insert_new laws holds room new, fun x member => remove_present holds room member⟩

/-- Integers under subtraction, with one removal of an object with two sons. -/
theorem rbTree_orderedSet_integers : ∃ t, consume (callStep (fun a b : Int => a - b) 5)
        [.insert 2, .insert 1, .insert 3, .remove 2] (rbTreeInit fun _ => ⟨fun _ => none, .null,
          false, .left⟩) = some t ∧ Holds (fun a b : Int => a - b) t {1, 3} := by
  have laws : CompareLaws fun a b : Int => a - b :=
    ⟨fun a b => by omega, fun a b c => by omega, fun a b c => by omega⟩
  obtain ⟨t, eaten, holds, -⟩ := rbTree_orderedSet laws
    (fun _ => ⟨fun _ => none, .null, false, .left⟩)
    [.insert 2, .insert 1, .insert 3, .remove 2] (by simp [Admissible, setStep])
    (show 4 < 5 by decide)
  have objects : [RbCall.insert 2, .insert 1, .insert 3, .remove 2].foldl
      (setStep fun a b : Int => a - b) ∅ = {1, 3} := by decide
  exact ⟨t, eaten, objects ▸ holds⟩

end Steps

/-!
### Searches and iteration

The searches and the iteration of `common/lib/libc/gen/rb.c` on a
well-formed tree. A search for a neighbour of a key gives the first object of a
walk that is not before the key; one step of the iteration gives the object that
follows in the walk.
-/

universe v

variable {α : Type u} {κ : Type v}

/-! ### The code -/

/-- The loop of `rb_tree_find_node_geq` and `rb_tree_find_node_leq`, which differ
in the test that keeps an object as `last`. -/
def findNodeLoop (compareKey : α → κ → Int) (keeps : Int → Bool) (t : RbTree α) (key : κ) :
    Nat → (parent last : Option α) → Option (Option α)
  | 0, _, _ => none
  | _ + 1, none, last => some last
  | fuel + 1, some parent, last =>
    let diff := compareKey parent key
    if diff = 0 then some (some parent)
    else
      let last := if keeps diff then some parent else last
      let next := (t.mem parent).nodes (if diff < 0 then .right else .left)
      findNodeLoop compareKey keeps t key fuel next last

def rbTreeFindNodeGeq (compareKey : α → κ → Int) (fuel : Nat) (t : RbTree α) (key : κ) :
    Option (Option α) :=
  findNodeLoop compareKey (fun diff => decide (0 < diff)) t key fuel t.root none

def rbTreeFindNodeLeq (compareKey : α → κ → Int) (fuel : Nat) (t : RbTree α) (key : κ) :
    Option (Option α) :=
  findNodeLoop compareKey (fun diff => decide (diff < 0)) t key fuel t.root none

/-- The objects that calls of `rb_tree_iterate` in one direction give, from the first one on, until
one gives `NULL`. -/
def iterateAll [DecidableEq α] (fuel : Nat) (t : RbTree α) (direction : Dir) :
    Nat → Option α → Option (List α)
  | 0, _ => none
  | _ + 1, none => some []
  | count + 1, some object => do
      let next ← rbTreeIterate fuel t (some object) direction
      let rest ← iterateAll fuel t direction count next
      some (object :: rest)

/-! ### Searching -/

/-- The callback for keys agrees with the one for nodes: what is before an object
that is not above the key is below the key. -/
def KeyLaw (compareNodes : α → α → Int) (compareKey : α → κ → Int) : Prop :=
  ∀ a b key, compareNodes a b < 0 → compareKey b key ≤ 0 → compareKey a key < 0

/-- An object with this difference to the key comes before the key in the walk from an end. -/
def passed : Dir → Int → Bool
  | .left, diff => decide (diff < 0)
  | .right, diff => decide (0 < diff)

def precedes (compareNodes : α → α → Int) : Dir → α → α → Prop
  | .left, a, b => compareNodes a b < 0
  | .right, a, b => compareNodes b a < 0

section Search

variable {compareNodes : α → α → Int} {compareKey : α → κ → Int} {t : RbTree α} {key : κ} {d : Dir}

theorem passed_other {diff : Int} (different : diff ≠ 0) :
    passed d.other diff = !passed d diff := by
  cases d <;> simp only [passed, Dir.other] <;> rw [Bool.eq_iff_iff] <;> simp <;> omega

theorem KeyLaw.passed_of_precedes (law : KeyLaw compareNodes compareKey) {a b : α}
    (prev : precedes compareNodes d a b)
    (notAfter : compareKey b key = 0 ∨ passed d (compareKey b key) = true) :
    passed d (compareKey a key) = true := by
  cases d with
  | left =>
    simp only [passed, decide_eq_true_eq] at notAfter ⊢
    exact law a b key prev (by omega)
  | right =>
    simp only [passed, decide_eq_true_eq] at notAfter ⊢
    by_contra notPassed
    have below := law b a key prev (by omega)
    omega

theorem Ordered.walk {tree : ColorTree α}
    (ord : (tree.walk .left).Pairwise fun a b => compareNodes a b < 0) (d : Dir) :
    (tree.walk d).Pairwise (precedes compareNodes d) := by
  cases d with
  | left => exact ord
  | right =>
    rw [walk_right, List.pairwise_reverse]
    exact ord

/-- The search goes on towards the far side from an object before the key, and else towards the
near side. -/
theorem next_side {diff : Int} (different : diff ≠ 0) (d : Dir) :
    (if diff < 0 then Dir.right else Dir.left) = if passed d diff then d.other else d := by
  cases d with
  | left => simp only [passed, decide_eq_true_eq, Dir.other]
  | right =>
    simp only [passed, decide_eq_true_eq, Dir.other]
    by_cases below : diff < 0
    · rw [if_pos below, if_neg (by omega)]
    · rw [if_neg below, if_pos (by omega)]

/-- The descent by key ends at the nearest node on the side asked for. -/
theorem findNodeLoop_spec (law : KeyLaw compareNodes compareKey) (key : κ) (d : Dir)
    {keeps : Int → Bool} (keepsOther : ∀ diff, keeps diff = passed d.other diff) (fuel : Nat)
    {s : ColorTree α} {father : Ref α} {pos : Dir} (link : Linked t.mem father pos s)
    (ord : (s.walk d).Pairwise (precedes compareNodes d))
    (enough : (s.walk .left).length < fuel) (last : Option α) :
    findNodeLoop compareKey keeps t key fuel s.label? last =
      some (((s.walk d).find? fun a => !passed d (compareKey a key)).or last) := by
  induction fuel generalizing s father pos last with
  | zero => omega
  | succ fuel ih =>
    cases s with
    | leaf => rfl
    | node red a left right =>
      obtain ⟨near, far, same⟩ := node_eq_mk d red a left right
      rw [same] at link ord enough ⊢
      obtain ⟨rcd, nearLinked, farLinked⟩ := linked_mk.mp link
      have total := (walk_mk_perm d red a near far).length_eq
      simp only [List.length_cons, List.length_append] at total
      rw [walk_mk] at ord ⊢
      obtain ⟨nearOrdered, rightOrdered, across⟩ := List.pairwise_append.mp ord
      obtain ⟨-, farOrdered⟩ := List.pairwise_cons.mp rightOrdered
      have nearPassed : compareKey a key = 0 ∨ passed d (compareKey a key) = true →
          (near.walk d).find? (fun a => !passed d (compareKey a key)) = none := by
        intro notAfter
        refine List.find?_eq_none.mpr fun b isIn => ?_
        rw [law.passed_of_precedes (across b isIn a List.mem_cons_self) notAfter]
        decide
      rw [label?_mk, findNodeLoop, List.find?_append]
      by_cases equal : compareKey a key = 0
      · have found : passed d (compareKey a key) = false := by
          rw [equal]
          cases d <;> rfl
        rw [if_pos equal, nearPassed (.inl equal), List.find?_cons, found]
        rfl
      have side := next_side equal d
      simp only [if_neg equal, side, rcd, keepsOther, passed_other equal]
      cases isPassed : passed d (compareKey a key) with
      | true =>
        rw [nearPassed (.inr isPassed), List.find?_cons, isPassed]
        simp only [if_true, cell_far]
        exact ih farLinked farOrdered (by omega) last
      | false =>
        rw [List.find?_cons, isPassed]
        simp only [Bool.false_eq_true, if_false, cell_near, Bool.not_false, if_true]
        rw [ih nearLinked nearOrdered (by omega) (some a)]
        cases (near.walk d).find? fun a => !passed d (compareKey a key) <;> rfl

theorem find?_spec (compareKey : α → κ → Int) (key : κ) {objects : List α}
    (ord : objects.Pairwise (precedes compareNodes d)) :
    match objects.find? fun a => !passed d (compareKey a key) with
    | none => ∀ b ∈ objects, passed d (compareKey b key) = true
    | some a => a ∈ objects ∧ passed d (compareKey a key) = false ∧
        ∀ b ∈ objects, passed d (compareKey b key) = false → b = a ∨ precedes compareNodes d a b := by
  induction objects with
  | nil => exact nofun
  | cons head rest ih =>
    obtain ⟨fst, restOrdered⟩ := List.pairwise_cons.mp ord
    have tail := ih restOrdered
    rw [List.find?_cons]
    cases isPassed : passed d (compareKey head key) with
    | false =>
      refine ⟨List.mem_cons_self, isPassed, fun b isIn _ => ?_⟩
      rcases List.mem_cons.mp isIn with same | later
      · exact .inl same
      · exact .inr (fst b later)
    | true =>
      revert tail
      cases rest.find? fun a => !passed d (compareKey a key) with
      | none =>
        intro tail b isIn
        rcases List.mem_cons.mp isIn with rfl | later
        · exact isPassed
        · exact tail b later
      | some a =>
        rintro ⟨isIn, notPassed, least⟩
        refine ⟨List.mem_cons_of_mem _ isIn, notPassed, fun b mem ge => ?_⟩
        rcases List.mem_cons.mp mem with rfl | later
        · rw [isPassed] at ge
          cases ge
        · exact least b later ge

/-- The object a search gives: the first one of the walk from end `d` that the key does not
come after. -/
def IsNearest (compareNodes : α → α → Int) (compareKey : α → κ → Int) (d : Dir) (objects : List α)
    (key : κ) : Option α → Prop
  | none => ∀ b ∈ objects, passed d (compareKey b key) = true
  | some a => a ∈ objects ∧ passed d (compareKey a key) = false ∧
      ∀ b ∈ objects, passed d (compareKey b key) = false → b = a ∨ precedes compareNodes d a b

theorem findNodeLoop_nearest (law : KeyLaw compareNodes compareKey) (key : κ) (d : Dir)
    {keeps : Int → Bool} (keepsOther : ∀ diff, keeps diff = passed d.other diff)
    {tree : ColorTree α} (wf : WellFormed compareNodes t tree) {fuel : Nat}
    (enough : (tree.walk .left).length < fuel) :
    ∃ res, findNodeLoop compareKey keeps t key fuel t.root none = some res ∧
      IsNearest compareNodes compareKey d (tree.walk .left) key res := by
  have ord := Ordered.walk wf.ordered d
  have found := findNodeLoop_spec law key d keepsOther fuel wf.represents.linked ord
    enough none
  rw [← wf.represents.root] at found
  refine ⟨_, found, ?_⟩
  have spec := find?_spec compareKey key ord
  revert spec
  cases (tree.walk d).find? fun a => !passed d (compareKey a key) with
  | none => exact fun spec b isIn => spec b ((tree.mem_walk d b).mpr isIn)
  | some a =>
    exact fun spec => ⟨(tree.mem_walk d a).mp spec.1, spec.2.1,
      fun b isIn => spec.2.2 b ((tree.mem_walk d b).mpr isIn)⟩

end Search

/-! ### Iterating -/

section Iterate

variable [DecidableEq α] {t : RbTree α} {w : Dir} {fuel : Nat}

theorem iterateUp_spec {ctx : List (Frame α)} {red : Bool} {a : α} {x y : ColorTree α}
    (rep : Represents t (plug ctx (mk w red a x y)))
    (enough : ctx.length < fuel) :
    iterateUp t w.other fuel a = some (after w.other ctx).head? := by
  induction ctx generalizing fuel red a x y with
  | nil =>
    obtain ⟨fuel, rfl⟩ := exists_eq_succ_of_ne_zero (ne_of_gt enough)
    have isRoot : t.rootP a = true := rep.rootP
    rw [iterateUp, if_pos isRoot]
    rfl
  | cons fr ctx ih =>
    obtain ⟨fuel, rfl⟩ := exists_eq_succ_of_ne_zero (ne_of_gt (zero_lt_of_lt enough))
    have notRoot : t.rootP a = false := rep.rootP
    have rcd := rep.record
    have father : (t.mem a).father = .node fr.label := by
      rw [rcd]
      rfl
    have pos : (t.mem a).position = fr.dir := by
      rw [rcd]
      rfl
    rw [iterateUp, if_neg (by rw [notRoot]; decide), father, pos, after]
    simp only [Ref.object_node, bind_eq_bind, bind_some]
    rcases Dir.eq_or_eq_other w fr.dir with here | turned
    · have straight : ¬ w.other = w := w.other_ne
      obtain ⟨side, color, top, brother⟩ := fr
      obtain rfl : side = w := here
      rw [if_neg straight, if_neg (Ne.symm straight)]
      exact ih rep (lt_of_succ_lt_succ enough)
    · rw [turned, if_pos rfl, if_pos rfl]
      rfl

theorem rbTreeIterate_next {ctx : List (Frame α)} {red : Bool} {a : α} {ahead tail : ColorTree α}
    (rep : Represents t (plug ctx (mk w red a ahead tail)))
    (enough : ((plug ctx (mk w red a ahead tail)).walk .left).length < fuel) :
    rbTreeIterate fuel t (some a) w = some (ahead.walk w.other ++ after w.other ctx).head? := by
  have link : (t.mem a).nodes w = ahead.label? := by rw [rep.record, cell_near]
  have deep := length_le_walk ctx (mk w red a ahead tail)
  cases ahead with
  | leaf =>
    simp only [rbTreeIterate, link]
    exact iterateUp_spec rep (lt_of_le_of_lt deep enough)
  | node nextRed next left right =>
    obtain ⟨near, far, same⟩ := node_eq_mk w nextRed next left right
    rw [same] at rep enough link ⊢
    have short : (far.walk .left).length < fuel := by
      have total := (walk_plug_perm ctx (mk w red a
        (mk w nextRed next near far) tail)).length_eq
      have whole := (walk_mk_perm w red a (mk w nextRed next near far) tail).length_eq
      have part := (walk_mk_perm w nextRed next near far).length_eq
      simp only [List.length_append, List.length_cons] at total whole part
      omega
    have focused : Represents t (plug (⟨w, red, a, tail⟩ :: ctx)
      (mk w nextRed next near far)) := rep
    obtain ⟨inner, color, fst, son, split, sides, got⟩ :=
      iterateDown_spec fuel focused short
    rw [label?_mk] at link
    simp only [rbTreeIterate, link, got]
    rw [split, walk_plug, before_eq_nil sides, walk_mk_other]
    rfl

theorem iterateAll_spec {tree : ColorTree α} (rep : Represents t tree)
    (enough : (tree.walk .left).length < fuel) {pre rest : List α}
    (split : tree.walk w.other = pre ++ rest) {cnt : Nat} (steps : rest.length < cnt) :
    iterateAll fuel t w cnt rest.head? = some rest := by
  induction rest generalizing pre cnt with
  | nil =>
    obtain ⟨cnt, rfl⟩ := exists_eq_succ_of_ne_zero (ne_of_gt steps)
    rfl
  | cons a rest ih =>
    obtain ⟨cnt, rfl⟩ := exists_eq_succ_of_ne_zero (ne_of_gt (zero_lt_of_lt steps))
    have mem : a ∈ tree.walk .left := by
      rw [← tree.mem_walk w.other, split]
      exact List.mem_append_right _ List.mem_cons_self
    have moved : tree.walk w.other = (pre ++ [a]) ++ rest := by
      rw [split, List.append_assoc, List.singleton_append]
    have later := ih moved (lt_of_succ_lt_succ steps)
    obtain ⟨ctx, red, left, right, isTree⟩ := exists_plug_of_mem mem
    obtain ⟨ahead, tail, same⟩ := node_eq_mk w red a left right
    rw [isTree, same] at rep enough split
    have move := rbTreeIterate_next rep enough
    rw [walk_ahead rep.distinct split] at move
    simp only [List.head?_cons, iterateAll, move, bind_eq_bind, bind_some, later]

/-- The iteration that starts from `NULL` at one end and steps towards the other gives the walk. -/
theorem iterate_walk {compareNodes : α → α → Int} {tree : ColorTree α}
    (wf : WellFormed compareNodes t tree) (enough : (tree.walk .left).length < fuel) :
    ∃ first, rbTreeIterate fuel t none w.other = some first ∧
      iterateAll fuel t w fuel first = some (tree.walk w.other) := by
  have eqLen : (tree.walk w.other).length = (tree.walk .left).length := by
    cases w with
    | left => rw [Dir.other, walk_right, List.length_reverse]
    | right => rfl
  refine ⟨(tree.walk w.other).head?, ?_, ?_⟩
  · have root := wf.represents.root
    cases tree with
    | leaf =>
      rw [label?_leaf] at root
      rw [rbTreeIterate, if_pos root]
      rfl
    | node red a left right =>
      have nonempty : ((node red a left right).walk w.other).head? ≠ none := by
        cases w <;> simp [walk, Dir.other]
      obtain ⟨first, fst⟩ := ne_none_iff_exists'.mp nonempty
      rw [label?_node] at root
      simp only [rbTreeIterate, root, wf.minmax _ _ fst, fst, Ref.object_node,
        bind_eq_bind, bind_some, reduceCtorEq, if_false]
  · have whole : tree.walk w.other = [] ++ tree.walk w.other := rfl
    exact iterateAll_spec wf.represents enough whole (by omega)

end Iterate

/-! ### A valid tree -/

section Valid

variable [DecidableEq α] {compareNodes : α → α → Int} {compareKey : α → κ → Int} {t : RbTree α}
  {tree : ColorTree α} {fuel : Nat}

/-- `rb_tree_find_node_geq` and `rb_tree_find_node_leq` find the nearest objects on either side of
a key, and the iteration passes every object once in either order. -/
theorem rbTree_searches (law : KeyLaw compareNodes compareKey)
    (wellFormed : WellFormed compareNodes t tree) (enough : (tree.walk .left).length < fuel) :
    (∀ key, ∃ result, rbTreeFindNodeGeq compareKey fuel t key = some result ∧ match result with
      | none => ∀ b ∈ tree.walk .left, compareKey b key < 0
      | some a => a ∈ tree.walk .left ∧ 0 ≤ compareKey a key ∧
          ∀ b ∈ tree.walk .left, 0 ≤ compareKey b key → b = a ∨ compareNodes a b < 0) ∧
    (∀ key, ∃ result, rbTreeFindNodeLeq compareKey fuel t key = some result ∧ match result with
      | none => ∀ b ∈ tree.walk .left, 0 < compareKey b key
      | some a => a ∈ tree.walk .left ∧ compareKey a key ≤ 0 ∧
          ∀ b ∈ tree.walk .left, compareKey b key ≤ 0 → b = a ∨ compareNodes b a < 0) ∧
    (∃ first objects, rbTreeIterate fuel t none .left = some first ∧
      iterateAll fuel t .right fuel first = some objects ∧
      objects.Pairwise (fun a b => compareNodes a b < 0) ∧ objects.Nodup ∧
      ∀ a, a ∈ objects ↔ a ∈ tree.walk .left) ∧
    ∃ first objects, rbTreeIterate fuel t none .right = some first ∧
      iterateAll fuel t .left fuel first = some objects ∧
      objects.Pairwise (fun a b => compareNodes b a < 0) ∧ objects.Nodup ∧
      ∀ a, a ∈ objects ↔ a ∈ tree.walk .left := by
  refine ⟨?_, ?_, ?_, ?_⟩
  · intro key
    obtain ⟨result, found, nearest⟩ := findNodeLoop_nearest law key .left
      (fun _ => rfl) wellFormed enough
    refine ⟨result, found, ?_⟩
    cases result with
    | none =>
      exact fun b isIn => of_decide_eq_true (nearest b isIn)
    | some a =>
      obtain ⟨isIn, notPassed, least⟩ := nearest
      refine ⟨isIn, ?_, ?_⟩
      · exact not_lt.mp (of_decide_eq_false notPassed)
      · exact fun b inTree above => least b inTree (decide_eq_false (not_lt.mpr above))
  · intro key
    obtain ⟨result, found, nearest⟩ := findNodeLoop_nearest law key .right
      (fun _ => rfl) wellFormed enough
    refine ⟨result, found, ?_⟩
    cases result with
    | none =>
      exact fun b isIn => of_decide_eq_true (nearest b isIn)
    | some a =>
      obtain ⟨isIn, notPassed, greatest⟩ := nearest
      refine ⟨isIn, ?_, ?_⟩
      · exact not_lt.mp (of_decide_eq_false notPassed)
      · exact fun b inTree below => greatest b inTree (decide_eq_false (not_lt.mpr below))
  · obtain ⟨first, started, walked⟩ := iterate_walk (w := .right) wellFormed enough
    exact ⟨first, _, started, walked, wellFormed.ordered, wellFormed.represents.distinct,
      fun _ => Iff.rfl⟩
  · obtain ⟨first, started, walked⟩ := iterate_walk (w := .left) wellFormed enough
    exact ⟨first, _, started, walked, Ordered.walk wellFormed.ordered .right,
      wellFormed.represents.distinct.walk .right, tree.mem_walk .right⟩

/-- The neighbours of 2 in a tree of two integers. -/
theorem rbTree_searches_integers : ∃ t, Holds (fun a b : Int => a - b) t {1, 3} ∧
    rbTreeFindNodeGeq (fun a b : Int => a - b) 3 t 2 = some (some 3) ∧
    rbTreeFindNodeLeq (fun a b : Int => a - b) 3 t 2 = some (some 1) := by
  have laws : CompareLaws fun a b : Int => a - b :=
    ⟨fun a b => by omega, fun a b c => by omega, fun a b c => by omega⟩
  have keyLaw : KeyLaw (fun a b : Int => a - b) fun a b : Int => a - b := by
    intro a b key prev notAbove
    change a - b < 0 at prev
    change b - key ≤ 0 at notAbove
    change a - key < 0
    omega
  obtain ⟨t, -, holds, -⟩ := @calls_hold Int _ (fun a b => a - b) _ _ 3 laws [.insert 1, .insert 3]
    (holds_init fun _ => ⟨fun _ => none, .null, false, .left⟩) (by simp [Admissible])
    (by decide)
  have objects : [RbCall.insert 1, .insert 3].foldl (setStep fun a b : Int => a - b) ∅ = {1, 3} := by
    decide
  rw [objects] at holds
  obtain ⟨tree, wf, members⟩ := holds
  have size : (tree.walk .left).length = 2 := wf.length_eq members
  have isMem : ∀ a, a ∈ tree.walk .left ↔ a = 1 ∨ a = 3 := by
    intro a
    rw [← List.mem_toFinset, members]
    simp
  obtain ⟨geq, leq, -, -⟩ := rbTree_searches keyLaw wf (show _ < 3 by omega)
  refine ⟨t, ⟨tree, wf, members⟩, ?_, ?_⟩
  · obtain ⟨res, found, nearest⟩ := geq 2
    rw [found]
    cases res with
    | none => exact absurd (nearest 3 ((isMem 3).mpr (.inr rfl))) (by decide)
    | some a =>
      rcases (isMem a).mp nearest.1 with rfl | rfl
      · exact absurd nearest.2.1 (by decide)
      · rfl
  obtain ⟨res, found, nearest⟩ := leq 2
  rw [found]
  cases res with
  | none => exact absurd (nearest 1 ((isMem 1).mpr (.inl rfl))) (by decide)
  | some a =>
    rcases (isMem a).mp nearest.1 with rfl | rfl
    · rfl
    · exact absurd nearest.2.1 (by decide)

end Valid

/-! ### How long a search takes -/

section Rounds

variable (compareKey : α → κ → Int) (keeps : Int → Bool)

/-- A search takes at most two rounds for each black node of a path. -/
theorem findNodeLoop_rounds {t : RbTree α} {key : κ} {s : ColorTree α} {height : Nat}
    {father : Ref α} {pos : Dir} (link : Linked t.mem father pos s)
    (valid : s.Valid height) (last : Option α) :
    ∃ res, ∀ rnds, 2 * height + s.isRed.toNat < rnds →
      findNodeLoop compareKey keeps t key rnds s.label? last = some res := by
  induction s generalizing height father pos last with
  | leaf =>
    refine ⟨last, fun rnds enough => ?_⟩
    obtain _ | rnds := rnds
    · omega
    rfl
  | node red a left right ihLeft ihRight =>
    obtain ⟨rcd, leftLinked, rightLinked⟩ := link
    obtain ⟨below, leftValid, rightValid, lower⟩ : ∃ below, left.Valid below ∧
        right.Valid below ∧ 2 * below + max left.isRed.toNat right.isRed.toNat <
          2 * height + red.toNat := by
      cases red with
      | true =>
        obtain ⟨leftBlack, rightBlack, leftValid, rightValid⟩ := valid
        exact ⟨height, leftValid, rightValid, by simp [leftBlack, rightBlack]⟩
      | false =>
        obtain ⟨below, rfl, leftValid, rightValid⟩ := valid
        have := left.isRed.toNat_le
        have := right.isRed.toNat_le
        exact ⟨below, leftValid, rightValid, by omega⟩
    let last := if keeps (compareKey a key) then some a else last
    obtain ⟨leftResult, leftEnds⟩ := ihLeft leftLinked leftValid last
    obtain ⟨rightResult, rightEnds⟩ := ihRight rightLinked rightValid last
    refine ⟨if compareKey a key = 0 then some a else if compareKey a key < 0 then rightResult
      else leftResult, fun rnds enough => ?_⟩
    change 2 * height + red.toNat < rnds at enough
    obtain _ | rnds := rnds
    · omega
    simp only [label?_node, findNodeLoop, rcd]
    split
    · rfl
    split
    · exact rightEnds rnds (by omega)
    · exact leftEnds rnds (by omega)

/-- In every reachable tree every search ends when it may take more rounds than twice the logarithm
of the number of objects, always with the same answer. -/
theorem rbTree_rounds [DecidableEq α] {compareNodes : α → α → Int}
    (laws : CompareLaws compareNodes) (mem : α → RbNode α) (calls : List (RbCall α))
    (admissible : Admissible compareNodes ∅ calls) (key : κ) :
    ∃ t result,
      consume (callStep compareNodes (calls.length + 1)) calls (rbTreeInit mem) = some t ∧
      ∀ rounds, 2 * log2 ((calls.foldl (setStep compareNodes) ∅).card + 1) < rounds →
        findNodeLoop compareKey keeps t key rounds t.root none = some result := by
  obtain ⟨t, eaten, ⟨tree, wf, objects⟩, -⟩ :=
    calls_hold laws calls (holds_init mem) admissible
      (show _ + _ < calls.length + 1 by simp)
  obtain ⟨black, height, valid⟩ := wf.balanced
  obtain ⟨result, ends⟩ :=
    findNodeLoop_rounds compareKey keeps wf.represents.linked valid none
  refine ⟨t, result, eaten, fun rounds enough => ?_⟩
  have room := valid.two_pow_le
  rw [wf.length_eq objects, ← le_log2 (Nat.add_one_ne_zero _)] at room
  rw [wf.represents.root]
  refine ends rounds ?_
  rw [black]
  exact (Nat.mul_le_mul_left 2 room).trans_lt enough

/-- Three integers are searched in five rounds. -/
theorem rbTree_rounds_integers : ∃ t result, consume (callStep (fun a b : Int => a - b) 4)
        [.insert 1, .insert 2, .insert 3] (rbTreeInit fun _ => ⟨fun _ => none, .null,
          false, .left⟩) = some t ∧
      rbTreeFindNodeGeq (fun a (key : Int) => a - key) 5 t 2 = some result := by
  have laws : CompareLaws fun a b : Int => a - b :=
    ⟨fun a b => by omega, fun a b c => by omega, fun a b c => by omega⟩
  obtain ⟨t, result, eaten, ends⟩ := rbTree_rounds (fun a key => a - key) _ laws
    (fun _ => ⟨fun _ => none, .null, false, .left⟩) [.insert 1, .insert 2, .insert 3]
    (by simp [Admissible]) 2
  exact ⟨t, result, eaten, ends 5 (by decide)⟩

end Rounds

end NetBSD.Gen
