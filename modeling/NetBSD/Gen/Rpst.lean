import Mathlib.Data.BitVec
import Mathlib.Logic.Function.Basic

/-!
Owns the radix priority search tree of `common/lib/libc/gen/rpst.c` as it lies in
memory, with the assertions that `DIAGNOSTIC` compiles in.

A function returns `none` where the code would follow a null pointer or an
assertion fails, and when a loop has used up its fuel.
-/

namespace NetBSD.Gen

open Function

structure RpstNode (α : Type) where
  n_parent : Option α
  n_children : Bool → Option α
  n_y : BitVec 64
  n_x : BitVec 64

/-- `struct rpst_tree`, with the memory its nodes lie in. -/
structure RpstTree (α : Type) where
  t_root : Option α
  t_height : Nat
  mem : α → RpstNode α

/-- A `struct rpst_node **`: `&t->t_root` or `&n->n_children[i]`. -/
inductive Where (α : Type) where
  | root
  | child (n : α) (i : Bool)
  deriving DecidableEq, Repr

section Access

variable {α : Type} [DecidableEq α]

def RpstTree.modify (t : RpstTree α) (n : α) (write : RpstNode α → RpstNode α) : RpstTree α :=
  { t with mem := update t.mem n (write (t.mem n)) }

def RpstTree.setParent (t : RpstTree α) (n : α) (parent : Option α) : RpstTree α :=
  t.modify n fun node => { node with n_parent := parent }

def RpstTree.setChildren (t : RpstTree α) (n : α) (children : Bool → Option α) : RpstTree α :=
  t.modify n fun node => { node with n_children := children }

/-- `*where`. -/
def RpstTree.load (t : RpstTree α) : Where α → Option α
  | .root => t.t_root
  | .child n i => (t.mem n).n_children i

/-- `*where = v`. -/
def RpstTree.store (t : RpstTree α) (at_ : Where α) (v : Option α) : RpstTree α :=
  match at_ with
  | .root => { t with t_root := v }
  | .child n i => t.setChildren n (update (t.mem n).n_children i v)

end Access

section Code

variable {α : Type} [DecidableEq α]

def rpstInitTree (mem : α → RpstNode α) : RpstTree α := ⟨none, 0, mem⟩

def rpstHeight2max (height : Nat) : Option (BitVec 64) :=
  if height < 64 then
    if height = 63 then some (BitVec.allOnes 64) else some (1#64 <<< (height + 1) - 1#64)
  else none

def rpstLevel2mask (t : RpstTree α) (level : Nat) : BitVec 64 :=
  if t.t_height < level then 0 else 1#64 <<< (t.t_height - level)

def rpstStartmask (t : RpstTree α) : Option (BitVec 64) := do
  let mask := rpstLevel2mask t 0
  let max ← rpstHeight2max t.t_height
  if mask ||| (mask - 1#64) = max then some mask else none

def updateParent (t : RpstTree α) (n : α) (i : Bool) : RpstTree α :=
  match (t.mem n).n_children i with
  | none => t
  | some c => t.setParent c (some n)

def rpstUpdateParents (t : RpstTree α) (n : α) : RpstTree α :=
  updateParent (updateParent t n false) n true

def rpstFindPptr (t : RpstTree α) (n : α) : Option (Where α × Option α) :=
  match (t.mem n).n_parent with
  | none => some (.root, none)
  | some parent =>
    let i := !decide ((t.mem parent).n_children false = some n)
    if (t.mem parent).n_children i = some n then some (.child parent i, some parent) else none

def selectChild (t : RpstTree α) (cur : α) : Option α × Bool :=
  match (t.mem cur).n_children false, (t.mem cur).n_children true with
  | none, second => (second, true)
  | some first, none => (some first, false)
  | some first, some second =>
    if (t.mem second).n_y < (t.mem first).n_y then (some second, true) else (some first, false)

/-- `KASSERT(c == NULL || c->n_parent == cur)` for both children. -/
def childrenKnow (t : RpstTree α) (cur : α) : Bool :=
  [false, true].all fun i =>
    match (t.mem cur).n_children i with
    | none => true
    | some c => (t.mem c).n_parent = some cur

def removeNodeLoop : Nat → RpstTree α → Option α → Where α → α → Option (RpstTree α)
  | 0, _, _, _, _ => none
  | fuel + 1, t, parent, at_, cur =>
    if childrenKnow t cur then
      let (selected, selectedIdx) := selectChild t cur
      let t := t.store at_ selected
      match selected with
      | none => some t
      | some selected =>
        let tmp := (t.mem selected).n_children
        let t := t.setChildren selected (t.mem cur).n_children
        let t := t.setChildren cur tmp
        let t := rpstUpdateParents t cur
        let t := rpstUpdateParents t selected
        let t := t.setParent selected parent
        removeNodeLoop fuel t (some selected) (.child selected selectedIdx) cur
    else none

def rpstRemoveNodeAt (fuel : Nat) (t : RpstTree α) (parent : Option α) (at_ : Where α) (cur : α) :
    Option (RpstTree α) :=
  if parent = (t.mem cur).n_parent then removeNodeLoop fuel t parent at_ cur else none

def rpstRemoveNode (fuel : Nat) (t : RpstTree α) (n : α) : Option (RpstTree α) := do
  let (at_, parent) ← rpstFindPptr t n
  rpstRemoveNodeAt fuel t parent at_ n

def putRootAbove (t : RpstTree α) (n : α) : Option (RpstTree α) := do
  let t := t.setChildren n fun _ => none
  let t := t.store (.child n false) t.t_root
  let root ← t.t_root
  let t := t.setParent root (some n)
  let t := { t with t_root := some n }
  some (t.setParent n none)

def enlargeLoop (removals : Nat) (idx : BitVec 64) : Nat → RpstTree α → Option (RpstTree α)
  | 0, _ => none
  | fuel + 1, t => do
      let max ← rpstHeight2max t.t_height
      if max < idx then
        match t.t_root with
        | none => enlargeLoop removals idx fuel { t with t_height := t.t_height + 1 }
        | some n =>
          let t ← rpstRemoveNode removals t n
          let t ← putRootAbove t n
          enlargeLoop removals idx fuel { t with t_height := t.t_height + 1 }
      else some t

def rpstEnlargeTree (fuel : Nat) (t : RpstTree α) (idx : BitVec 64) : Option (RpstTree α) :=
  enlargeLoop fuel idx fuel t

def side (x mask : BitVec 64) : Bool := x &&& mask != 0

/-- The two assertions about the child that the loop of `rpst_insert_node1` descends to. -/
def childFits (t : RpstTree α) (cur : α) (idx : Bool) (mask : BitVec 64) : Bool :=
  match (t.mem cur).n_children idx with
  | none => true
  | some c => side (t.mem c).n_x mask == idx && decide ((t.mem cur).n_y ≤ (t.mem c).n_y)

def insertNodeLoop : Nat → RpstTree α → Option α → Where α → α → BitVec 64 →
    Option (RpstTree α × Option α)
  | 0, _, _, _, _, _ => none
  | fuel + 1, t, parent, at_, n, mask =>
    match t.load at_ with
    | none =>
      let t := t.setParent n parent
      let t := t.setChildren n fun _ => none
      some (t.store at_ (some n), none)
    | some cur =>
      if (t.mem cur).n_parent = parent then
        if (t.mem n).n_y = (t.mem cur).n_y ∧ (t.mem n).n_x = (t.mem cur).n_x then
          some (t, some cur)
        else
          -- swap cur and n; note that n is not in the tree
          let (t, cur, n) :=
            if (t.mem n).n_y < (t.mem cur).n_y then
              let t := t.setChildren n (t.mem cur).n_children
              let t := t.setParent n (t.mem cur).n_parent
              let t := rpstUpdateParents t n
              (t.store at_ (some n), n, cur)
            else (t, cur, n)
          let idx := side (t.mem n).n_x mask
          if childFits t cur idx mask then
            insertNodeLoop fuel t (some cur) (.child cur idx) n (mask >>> 1)
          else none
      else none

def rpstInsertNode1 (fuel : Nat) (t : RpstTree α) (at_ : Where α) (n : α) (mask : BitVec 64) :
    Option (RpstTree α × Option α) :=
  if (t.mem n).n_x &&& ((-mask) <<< 1) = 0 then insertNodeLoop fuel t none at_ n mask else none

def rpstInsertNode (fuel : Nat) (t : RpstTree α) (n : α) : Option (RpstTree α × Option α) := do
  let t ← rpstEnlargeTree fuel t (t.mem n).n_x
  let mask ← rpstStartmask t
  rpstInsertNode1 fuel t .root n mask

end Code

/-!
### Trees apart from memory

The trees that a radix priority search tree stands for, apart from memory:
the order of a tree under a mask, putting a node in along its radix path, and
pulling nodes up into the place of one that is taken out.
-/

/-- A tree of nodes, with the children named by the bit that leads to them. -/
inductive Pst (α : Type) where
  | nil
  | node (a : α) (kids : Bool → Pst α)

namespace Pst

variable {α : Type}

def label? : Pst α → Option α
  | nil => none
  | node a _ => some a

def Mem (b : α) : Pst α → Prop
  | nil => False
  | node a kids => b = a ∨ ∃ i, Mem b (kids i)

instance : Membership α (Pst α) := ⟨fun s b => Mem b s⟩

def size : Pst α → Nat
  | nil => 0
  | node _ kids => size (kids false) + size (kids true) + 1

@[simp] theorem label?_nil : (nil : Pst α).label? = none := rfl

@[simp] theorem label?_node (a : α) (kids : Bool → Pst α) : (node a kids).label? = some a := rfl

@[simp] theorem label?_eq_none {s : Pst α} : s.label? = none ↔ s = nil := by
  cases s <;> simp

@[simp] theorem notMem_nil (b : α) : b ∉ (nil : Pst α) := fun absurd => absurd

@[simp] theorem mem_node {a b : α} {kids : Bool → Pst α} :
    b ∈ node a kids ↔ b = a ∨ ∃ i, b ∈ kids i := Iff.rfl

theorem mem_of_label? {s : Pst α} {a : α} (label : s.label? = some a) : a ∈ s := by
  cases s with
  | nil => simp at label
  | node b kids => simp_all

theorem size_kid (a : α) (kids : Bool → Pst α) (i : Bool) : (kids i).size < (node a kids).size := by
  cases i <;> simp only [size] <;> omega

variable (x y : α → BitVec 64)

/-- No node stands above itself, no child is smaller in `y`, and the bit under the mask leads to the
child. -/
def Ordered : BitVec 64 → Pst α → Prop
  | _, nil => True
  | mask, node a kids => ∀ i, a ∉ kids i ∧
      (∀ b ∈ kids i, y a ≤ y b ∧ side (x b) mask = i) ∧ Ordered (mask >>> 1) (kids i)

def put : Pst α → α → BitVec 64 → Pst α
  | nil, n, _ => node n fun _ => nil
  | node cur kids, n, mask =>
    if y n < y cur then
      let i := side (x cur) mask
      node n (update kids i (put (kids i) cur (mask >>> 1)))
    else
      let i := side (x n) mask
      node cur (update kids i (put (kids i) n (mask >>> 1)))

def selected (kids : Bool → Pst α) : Bool :=
  match (kids false).label?, (kids true).label? with
  | none, _ => true
  | some _, none => false
  | some first, some second => decide (y second < y first)

def drop : Pst α → Pst α
  | nil => nil
  | node _ kids =>
    match (kids (selected y kids)).label? with
    | none => nil
    | some s => node s (update kids (selected y kids) (drop (kids (selected y kids))))

def remove [DecidableEq α] (n : α) : Pst α → Pst α
  | nil => nil
  | node a kids => if a = n then drop y (node a kids) else node a fun i => remove n (kids i)

variable {x y} {mask : BitVec 64} {s : Pst α} {kids : Bool → Pst α} {a b n : α}

theorem mem_update {i : Bool} {new : Pst α} :
    (∃ j, b ∈ update kids i new j) ↔ b ∈ new ∨ b ∈ kids (!i) := by
  cases i <;> simp [or_comm]

theorem exists_mem_kids (i : Bool) : (∃ j, b ∈ kids j) ↔ b ∈ kids i ∨ b ∈ kids (!i) := by
  cases i <;> simp [or_comm]

theorem mem_put : b ∈ s.put x y n mask ↔ b = n ∨ b ∈ s := by
  induction s generalizing n mask with
  | nil => simp [put]
  | node cur kids ih =>
    unfold put
    split
    · simp only [mem_node, mem_update, ih]
      rw [exists_mem_kids (side (x cur) mask)]
      tauto
    · simp only [mem_node, mem_update, ih]
      rw [exists_mem_kids (side (x n) mask)]
      tauto

theorem size_put : (s.put x y n mask).size = s.size + 1 := by
  induction s generalizing n mask with
  | nil => rfl
  | node cur kids ih =>
    have step : ∀ (top low : α) (i : Bool),
        (node top (update kids i (put x y (kids i) low (mask >>> 1)))).size =
          (node cur kids).size + 1 := by
      intro top low i
      cases i <;> simp [size, update, ih] <;> omega
    unfold put
    split
    · exact step _ _ _
    · exact step _ _ _

theorem Ordered.put (ord : s.Ordered x y mask) (new : n ∉ s) :
    (s.put x y n mask).Ordered x y mask := by
  induction s generalizing n mask with
  | nil => simp [Pst.put, Ordered]
  | node cur kids ih =>
    simp only [mem_node, not_or, not_exists] at new
    -- whichever node stays on top, the other goes down on the side of its bit
    have descend : ∀ top low, top ≠ low → (∀ i, top ∉ kids i) → (∀ i, low ∉ kids i) →
        y top ≤ y low → (∀ i, ∀ b ∈ kids i, y top ≤ y b) →
        Ordered x y mask (node top (update kids (side (x low) mask)
          (Pst.put x y (kids (side (x low) mask)) low (mask >>> 1)))) := by
      intro top low diff topOut lowOut lt least i
      obtain ⟨_, fits, below⟩ := ord i
      by_cases same : i = side (x low) mask
      · subst same
        simp only [update_self, mem_put]
        refine ⟨by simp [diff, topOut], ?_, ih _ below (lowOut _)⟩
        rintro b (rfl | isIn)
        · exact ⟨lt, rfl⟩
        · exact ⟨least _ b isIn, (fits b isIn).2⟩
      · rw [update_of_ne same]
        exact ⟨topOut i, fun b isIn => ⟨least i b isIn, (fits b isIn).2⟩, below⟩
    have curOut : ∀ i, cur ∉ kids i := fun i => (ord i).1
    have curLeast : ∀ i, ∀ b ∈ kids i, y cur ≤ y b := fun i b isIn => ((ord i).2.1 b isIn).1
    unfold Pst.put
    split
    · rename_i lt
      refine descend n cur new.1 new.2 curOut (BitVec.le_of_lt lt) fun i b isIn => ?_
      exact BitVec.le_trans (BitVec.le_of_lt lt) (curLeast i b isIn)
    · rename_i notSmaller
      exact descend cur n (Ne.symm new.1) curOut new.2 (BitVec.not_lt.mp notSmaller) curLeast

theorem Ordered.retop (ord : (node a kids).Ordered x y mask) (new : ∀ i, n ∉ kids i)
    (lt : y n ≤ y a) : (node n kids).Ordered x y mask := by
  intro i
  obtain ⟨_, fits, below⟩ := ord i
  exact ⟨new i, fun b isIn => ⟨BitVec.le_trans lt (fits b isIn).1, (fits b isIn).2⟩, below⟩

theorem Ordered.side_unique (ord : (node a kids).Ordered x y mask) {i j : Bool}
    (fst : b ∈ kids i) (snd : b ∈ kids j) : i = j :=
  (((ord i).2.1 b fst).2).symm.trans ((ord j).2.1 b snd).2

theorem selected_le {fst top : α} (label : (kids (selected y kids)).label? = some fst)
    {i : Bool} (isTop : (kids i).label? = some top) : y fst ≤ y top := by
  unfold selected at label
  cases isFirst : (kids false).label? with
  | none => cases i <;> grind [le_refl]
  | some left =>
    cases isSecond : (kids true).label? with
    | none => cases i <;> grind [le_refl]
    | some right =>
      by_cases lt : y right < y left
      · cases i <;> grind [le_refl, le_of_lt]
      · cases i <;> grind [le_refl]

theorem Ordered.label_le (ord : s.Ordered x y mask) (isTop : s.label? = some a) (isIn : b ∈ s) :
    y a ≤ y b := by
  cases s with
  | nil => simp at isIn
  | node top kids =>
    obtain rfl : top = a := by simpa using isTop
    rcases mem_node.mp isIn with rfl | ⟨i, deeper⟩
    · exact BitVec.le_refl _
    · exact ((ord i).2.1 b deeper).1

theorem exists_label? (isIn : b ∈ s) : ∃ a, s.label? = some a := by
  cases s with
  | nil => simp at isIn
  | node a kids => exact ⟨a, rfl⟩

theorem selected_least {fst : α} (ord : (node a kids).Ordered x y mask)
    (label : (kids (selected y kids)).label? = some fst) {i : Bool} (isIn : b ∈ kids i) :
    y fst ≤ y b := by
  obtain ⟨top, isTop⟩ := exists_label? isIn
  exact BitVec.le_trans (selected_le label isTop) ((ord i).2.2.label_le isTop isIn)

theorem kids_eq_nil (hn : (kids (selected y kids)).label? = none) (i : Bool) :
    kids i = nil := by
  unfold selected at hn
  cases isFirst : (kids false).label? with
  | none =>
    simp only [isFirst, label?_eq_none] at hn
    cases i with
    | false => exact label?_eq_none.mp isFirst
    | true => exact hn
  | some left =>
    cases isSecond : (kids true).label? with
    | none => simp [isFirst, isSecond] at hn
    | some right =>
      by_cases lt : y right < y left
      · simp [isFirst, isSecond, lt] at hn
      · simp [isFirst, isSecond, lt] at hn

theorem mem_drop (ord : s.Ordered x y mask) : b ∈ s.drop y ↔ b ∈ s ∧ s.label? ≠ some b := by
  induction s generalizing mask with
  | nil => simp [drop]
  | node a kids ih =>
    have topOut : ∀ i, a ∉ kids i := fun i => (ord i).1
    unfold drop
    cases isLabel : (kids (selected y kids)).label? with
    | none =>
      simp only [mem_node, kids_eq_nil isLabel, notMem_nil, label?_node]
      grind
    | some fst =>
      have firstIn := mem_of_label? isLabel
      simp only [mem_node, mem_update, ih _ (ord _).2.2, label?_node]
      rw [exists_mem_kids (selected y kids)]
      grind

theorem Ordered.drop (ord : s.Ordered x y mask) : (s.drop y).Ordered x y mask := by
  induction s generalizing mask with
  | nil => trivial
  | node a kids ih =>
    unfold Pst.drop
    cases isLabel : (kids (selected y kids)).label? with
    | none => trivial
    | some fst =>
      have firstIn := mem_of_label? isLabel
      intro i
      obtain ⟨_, fits, below⟩ := ord i
      by_cases same : i = selected y kids
      · subst same
        simp only [update_self]
        refine ⟨by simp [mem_drop below, isLabel], fun b isIn => ?_, ih _ below⟩
        have wasIn := ((mem_drop below).mp isIn).1
        exact ⟨selected_least ord isLabel wasIn, (fits b wasIn).2⟩
      · rw [update_of_ne same]
        refine ⟨fun isIn => ?_, fun b isIn => ⟨selected_least ord isLabel isIn,
          (fits b isIn).2⟩, below⟩
        exact same (ord.side_unique isIn firstIn)

theorem size_drop (s : Pst α) : (s.drop y).size = s.size - 1 := by
  induction s with
  | nil => rfl
  | node a kids ih =>
    unfold drop
    cases isLabel : (kids (selected y kids)).label? with
    | none => simp [size, kids_eq_nil isLabel]
    | some fst =>
      have pos : (kids (selected y kids)).size ≠ 0 := by
        cases isKid : kids (selected y kids) with
        | nil => simp [isKid] at isLabel
        | node b sub => simp [size]
      generalize selected y kids = i at *
      have lt := ih i
      cases i <;> simp [size] <;> omega

section Remove

variable [DecidableEq α]

theorem remove_of_notMem (out : n ∉ s) : s.remove y n = s := by
  induction s with
  | nil => rfl
  | node a kids ih =>
    simp only [mem_node, not_or, not_exists] at out
    simp only [remove, Ne.symm out.1, ↓reduceIte]
    congr 1
    funext i
    exact ih i (out.2 i)

theorem mem_remove (ord : s.Ordered x y mask) : b ∈ s.remove y n ↔ b ∈ s ∧ b ≠ n := by
  induction s generalizing mask with
  | nil => simp [remove]
  | node a kids ih =>
    unfold remove
    split
    · rename_i isTop
      rw [mem_drop ord, label?_node, isTop]
      simp [eq_comm]
    · rename_i diff
      simp only [mem_node, fun i => ih i (ord i).2.2]
      grind

theorem Ordered.remove (ord : s.Ordered x y mask) (n : α) :
    (s.remove y n).Ordered x y mask := by
  induction s generalizing mask with
  | nil => trivial
  | node a kids ih =>
    unfold Pst.remove
    split
    · exact ord.drop
    · intro i
      obtain ⟨topOut, fits, below⟩ := ord i
      refine ⟨fun isIn => topOut ((mem_remove below).mp isIn).1, fun b isIn => ?_, ih i below⟩
      exact fits b ((mem_remove below).mp isIn).1

theorem size_remove (ord : s.Ordered x y mask) (isIn : n ∈ s) :
    (s.remove y n).size + 1 = s.size := by
  induction s generalizing mask with
  | nil => simp at isIn
  | node a kids ih =>
    unfold remove
    split
    · rw [size_drop]
      simp [size]
    rename_i diff
    obtain ⟨i, lt⟩ := (mem_node.mp isIn).resolve_left (Ne.symm diff)
    have out : n ∉ kids (!i) := by
      intro oth
      have same := ord.side_unique lt oth
      simp at same
    have smaller := ih i (ord i).2.2 lt
    have same := remove_of_notMem (y := y) out
    cases i <;> simp only [size, Bool.not_false, Bool.not_true] at * <;> rw [same] <;> omega

end Remove

theorem Ordered.congr {x' y' : α → BitVec 64} (ord : s.Ordered x y mask)
    (agree : ∀ b ∈ s, x' b = x b ∧ y' b = y b) : s.Ordered x' y' mask := by
  induction s generalizing mask with
  | nil => trivial
  | node a kids ih =>
    intro i
    obtain ⟨topOut, fits, below⟩ := ord i
    have lt : ∀ b ∈ kids i, b ∈ node a kids := fun b isIn => mem_node.mpr (.inr ⟨i, isIn⟩)
    refine ⟨topOut, fun b isIn => ?_, ih i below fun b isIn =>
      agree b (lt b isIn)⟩
    rw [(agree b (lt b isIn)).1, (agree b (lt b isIn)).2,
      (agree a (mem_node.mpr (.inl rfl))).2]
    exact fits b isIn

end Pst

end NetBSD.Gen
