import NetBSD.Gen.Rpst

/-!
Owns what it means that the node records in memory represent a tree, and that the
loops of insertion and removal write the records of the tree with a node put in
and of the tree without its top. A loop works below one link, through which it
stores; nothing outside the tree below that link changes.
-/

namespace NetBSD.Gen

open Function Option Pst

variable {α : Type}

def Where.owner : Where α → Option α
  | .root => none
  | .child n _ => some n

/-- The records of a tree's nodes, below the given parent. -/
def PstLinked (mem : α → RpstNode α) : Option α → Pst α → Prop
  | _, .nil => True
  | parent, .node a kids => (mem a).n_parent = parent ∧
      (∀ i, (mem a).n_children i = (kids i).label?) ∧ ∀ i, PstLinked mem (some a) (kids i)

def RpstTree.x (t : RpstTree α) (a : α) : BitVec 64 := (t.mem a).n_x

def RpstTree.y (t : RpstTree α) (a : α) : BitVec 64 := (t.mem a).n_y

/-- Only records of nodes inside changed, and no coordinates. -/
structure Framed (inside : α → Prop) (t t' : RpstTree α) : Prop where
  root : t'.t_root = t.t_root
  height : t'.t_height = t.t_height
  outside : ∀ b, ¬ inside b → t'.mem b = t.mem b
  sameX : t'.x = t.x
  sameY : t'.y = t.y

section Records

variable {mem mem' : α → RpstNode α} {s : Pst α} {parent parent' : Option α}

theorem PstLinked.congr (linked : PstLinked mem parent s) (agree : ∀ b ∈ s, mem' b = mem b) :
    PstLinked mem' parent s := by
  induction s generalizing parent with
  | nil => trivial
  | node a kids ih =>
    obtain ⟨hpar, children, below⟩ := linked
    refine ⟨?_, ?_, fun i => ih i (below i) fun b isIn =>
      agree b (mem_node.mpr (.inr ⟨i, isIn⟩))⟩
    · rw [agree a (mem_node.mpr (.inl rfl))]
      exact hpar
    · rw [agree a (mem_node.mpr (.inl rfl))]
      exact children

theorem PstLinked.reparent {x y : α → BitVec 64} {mask : BitVec 64}
    (linked : PstLinked mem parent s)
    (ord : s.Ordered x y mask)
    (top : ∀ a, s.label? = some a → mem' a = { mem a with n_parent := parent' })
    (agree : ∀ b ∈ s, s.label? ≠ some b → mem' b = mem b) : PstLinked mem' parent' s := by
  cases s with
  | nil => trivial
  | node a kids =>
    obtain ⟨hpar, children, below⟩ := linked
    have isTop := top a rfl
    refine ⟨by rw [isTop], by rw [isTop]; exact children, fun i => (below i).congr ?_⟩
    intro b isIn
    apply agree b (mem_node.mpr (.inr ⟨i, isIn⟩))
    rintro same
    obtain rfl := some.inj same
    exact (ord i).1 isIn

end Records

section Frames

variable {t t' t'' : RpstTree α} {ins inside' : α → Prop}

theorem Framed.refl (ins : α → Prop) (t : RpstTree α) : Framed ins t t :=
  ⟨rfl, rfl, fun _ _ => rfl, rfl, rfl⟩

theorem Framed.trans (fst : Framed ins t t') (snd : Framed ins t' t'') :
    Framed ins t t'' :=
  ⟨snd.root.trans fst.root, snd.height.trans fst.height,
    fun b out => (snd.outside b out).trans (fst.outside b out),
    snd.sameX.trans fst.sameX, snd.sameY.trans fst.sameY⟩

theorem Framed.mono (framed : Framed ins t t') (wider : ∀ b, ins b → inside' b) :
    Framed inside' t t' :=
  ⟨framed.root, framed.height, fun b out => framed.outside b fun isIn => out (wider b isIn),
    framed.sameX, framed.sameY⟩

end Frames

section Writes

variable [DecidableEq α] {t : RpstTree α} {n a b : α} {at_ : Where α} {v : Option α}
  {ins : α → Prop}

@[simp] theorem x_setParent (p : Option α) : (t.setParent n p).x = t.x := by
  funext b
  by_cases same : b = n <;> simp [RpstTree.x, RpstTree.setParent, RpstTree.modify, same]

@[simp] theorem y_setParent (p : Option α) : (t.setParent n p).y = t.y := by
  funext b
  by_cases same : b = n <;> simp [RpstTree.y, RpstTree.setParent, RpstTree.modify, same]

@[simp] theorem x_setChildren (c : Bool → Option α) : (t.setChildren n c).x = t.x := by
  funext b
  by_cases same : b = n <;> simp [RpstTree.x, RpstTree.setChildren, RpstTree.modify, same]

@[simp] theorem y_setChildren (c : Bool → Option α) : (t.setChildren n c).y = t.y := by
  funext b
  by_cases same : b = n <;> simp [RpstTree.y, RpstTree.setChildren, RpstTree.modify, same]

@[simp] theorem x_store : (t.store at_ v).x = t.x := by
  cases at_ with
  | root => rfl
  | child n i => exact x_setChildren _

@[simp] theorem y_store : (t.store at_ v).y = t.y := by
  cases at_ with
  | root => rfl
  | child n i => exact y_setChildren _

theorem mem_setParent (p : Option α) : (t.setParent n p).mem b =
    if b = n then { t.mem b with n_parent := p } else t.mem b := by
  by_cases same : b = n <;> simp [RpstTree.setParent, RpstTree.modify, same]

theorem mem_setChildren (c : Bool → Option α) : (t.setChildren n c).mem b =
    if b = n then { t.mem b with n_children := c } else t.mem b := by
  by_cases same : b = n <;> simp [RpstTree.setChildren, RpstTree.modify, same]

theorem mem_store (diff : at_.owner ≠ some b) : (t.store at_ v).mem b = t.mem b := by
  cases at_ with
  | root => rfl
  | child n i =>
    have apart : b ≠ n := fun same => diff (congrArg some same.symm)
    simp [RpstTree.store, mem_setChildren, apart]

@[simp] theorem height_store : (t.store at_ v).t_height = t.t_height := by
  cases at_ <;> rfl

theorem store_load (t : RpstTree α) (at_ : Where α) : t.store at_ (t.load at_) = t := by
  cases at_ with
  | root => rfl
  | child n i =>
    simp [RpstTree.store, RpstTree.load, RpstTree.setChildren, RpstTree.modify]

theorem mem_updateParent (i : Bool) : (updateParent t n i).mem b =
    if (t.mem n).n_children i = some b then { t.mem b with n_parent := some n } else t.mem b := by
  unfold updateParent
  cases isChild : (t.mem n).n_children i with
  | none => simp
  | some c => simp only [mem_setParent, some.injEq, eq_comm]

@[simp] theorem children_updateParent (i : Bool) :
    ((updateParent t n i).mem b).n_children = (t.mem b).n_children := by
  rw [mem_updateParent]
  split <;> rfl

theorem mem_rpstUpdateParents : (rpstUpdateParents t n).mem b =
    if ∃ i, (t.mem n).n_children i = some b then { t.mem b with n_parent := some n }
    else t.mem b := by
  unfold rpstUpdateParents
  rw [mem_updateParent true, children_updateParent, mem_updateParent]
  by_cases fst : (t.mem n).n_children false = some b <;>
    by_cases snd : (t.mem n).n_children true = some b <;>
      simp [fst, snd]

theorem updateParent_header (i : Bool) : (updateParent t n i).t_root = t.t_root ∧
    (updateParent t n i).t_height = t.t_height ∧ (updateParent t n i).x = t.x ∧
    (updateParent t n i).y = t.y := by
  unfold updateParent
  split
  · exact ⟨rfl, rfl, rfl, rfl⟩
  · exact ⟨rfl, rfl, x_setParent _, y_setParent _⟩

@[simp] theorem x_rpstUpdateParents : (rpstUpdateParents t n).x = t.x := by
  simp [rpstUpdateParents, updateParent_header]

@[simp] theorem y_rpstUpdateParents : (rpstUpdateParents t n).y = t.y := by
  simp [rpstUpdateParents, updateParent_header]

@[simp] theorem root_rpstUpdateParents : (rpstUpdateParents t n).t_root = t.t_root := by
  simp [rpstUpdateParents, updateParent_header]

@[simp] theorem height_rpstUpdateParents : (rpstUpdateParents t n).t_height = t.t_height := by
  simp [rpstUpdateParents, updateParent_header]

theorem Framed.store_child (isIn : ins a) (i : Bool) :
    Framed ins t (t.store (.child a i) v) := by
  refine ⟨rfl, rfl, fun b out => mem_store ?_, x_store, y_store⟩
  rintro same
  obtain rfl := some.inj same
  exact out isIn

end Writes

section Below

variable [DecidableEq α] {t t' : RpstTree α} {top : α} {kids : Bool → Pst α} {i : Bool}
  {parent : Option α} {new : Pst α} {ins : α → Prop}

theorem PstLinked.replace (hpar : (t.mem top).n_parent = parent)
    (children : ∀ j, j ≠ i → (t.mem top).n_children j = (kids j).label?)
    (tl : ∀ j, j ≠ i → PstLinked t.mem (some top) (kids j))
    (framed : Framed ins (t.store (.child top i) new.label?) t')
    (newLinked : PstLinked t'.mem (some top) new) (topOut : ¬ ins top)
    (apart : ∀ j, j ≠ i → ∀ b ∈ kids j, ¬ ins b ∧ b ≠ top) :
    PstLinked t'.mem parent (.node top (update kids i new)) := by
  have rcd : t'.mem top = { t.mem top with
      n_children := update (t.mem top).n_children i new.label? } := by
    rw [framed.outside top topOut]
    simp [RpstTree.store, mem_setChildren]
  refine ⟨by rw [rcd]; exact hpar, fun j => ?_, fun j => ?_⟩
  · rw [rcd]
    by_cases same : j = i
    · subst same
      simp
    · simp [same, children j same]
  by_cases same : j = i
  · subst same
    simpa using newLinked
  rw [update_of_ne same]
  apply (tl j same).congr
  intro b isIn
  obtain ⟨out, diff⟩ := apart j same b isIn
  rw [framed.outside b out, mem_store]
  exact fun own => diff (some.inj own).symm

end Below

/-!
### The loops

The loops of insertion and removal on a tree in memory: below the link they
are given they leave the tree with the node put in, and the tree without its top.
-/

section Insert

variable {t : RpstTree α} {parent : Option α} {at_ : Where α} {cur n : α} {kids : Bool → Pst α}
  {mask : BitVec 64}

theorem childFits_of_ordered (ord : (node cur kids).Ordered t.x t.y mask)
    (children : ∀ i, (t.mem cur).n_children i = (kids i).label?) (idx : Bool) :
    childFits t cur idx mask = true := by
  unfold childFits
  rw [children]
  cases isLabel : (kids idx).label? with
  | none => rfl
  | some c =>
    obtain ⟨least, isSide⟩ := (ord idx).2.1 c (mem_of_label? isLabel)
    simp only [Bool.and_eq_true, beq_iff_eq, decide_eq_true_eq]
    exact ⟨isSide, least⟩

variable [DecidableEq α]

/-- The new node takes the place of the top, with its parent and its children. -/
def takeOver (t : RpstTree α) (at_ : Where α) (n cur : α) : RpstTree α :=
  (rpstUpdateParents ((t.setChildren n (t.mem cur).n_children).setParent n (t.mem cur).n_parent)
    n).store at_ (some n)

section

variable (linked : PstLinked t.mem parent (.node cur kids))

include linked

theorem mem_takeOver
    (new : n ∉ node cur kids) (own : at_.owner ≠ some n) {b : α} (apart : at_.owner ≠ some b) :
    (takeOver t at_ n cur).mem b =
      if b = n then { t.mem n with n_parent := parent, n_children := fun i => (kids i).label? }
      else if ∃ i, (kids i).label? = some b then { t.mem b with n_parent := some n }
      else t.mem b := by
  obtain ⟨hpar, children, below⟩ := linked
  simp only [mem_node, not_or, not_exists] at new
  have noChild : ∀ i, (kids i).label? ≠ some n := fun i same => new.2 i (mem_of_label? same)
  have isChildren : (t.mem cur).n_children = fun i => (kids i).label? := funext children
  unfold takeOver
  rw [mem_store apart, mem_rpstUpdateParents]
  simp only [mem_setParent, mem_setChildren, hpar, isChildren]
  by_cases same : b = n
  · subst same
    simp [noChild]
  · simp [same]

theorem takeOver_linked
    (ord : (node cur kids).Ordered t.x t.y mask) (new : n ∉ node cur kids)
    (apart : ∀ p, at_.owner = some p → p ∉ node cur kids ∧ p ≠ n) (i : Bool) :
    PstLinked (takeOver t at_ n cur).mem (some n) (kids i) := by
  have own : at_.owner ≠ some n := fun same => (apart n same).2 rfl
  have out : ∀ b ∈ kids i, at_.owner ≠ some b := fun b isIn same =>
    (apart b same).1 (mem_node.mpr (.inr ⟨i, isIn⟩))
  have diff : ∀ b ∈ kids i, b ≠ n := by
    rintro b isIn rfl
    exact new (mem_node.mpr (.inr ⟨i, isIn⟩))
  apply (linked.2.2 i).reparent (ord i).2.2
  · intro a label
    have isIn := mem_of_label? label
    rw [mem_takeOver linked new own (out a isIn), if_neg (diff a isIn),
      if_pos ⟨i, label⟩]
  · intro b isIn notTop
    rw [mem_takeOver linked new own (out b isIn), if_neg (diff b isIn), if_neg]
    rintro ⟨j, label⟩
    obtain rfl := ord.side_unique isIn (mem_of_label? label)
    exact notTop label

theorem framed_takeOver (new : n ∉ node cur kids)
    (apart : ∀ p, at_.owner = some p → p ∉ node cur kids ∧ p ≠ n) :
    Framed (fun b => b = n ∨ b ∈ node cur kids) (t.store at_ (some n))
      (takeOver t at_ n cur) := by
  have own : at_.owner ≠ some n := fun same => (apart n same).2 rfl
  have isChildren : (t.mem cur).n_children = fun i => (kids i).label? := funext linked.2.1
  refine ⟨?_, ?_, ?_, ?_, ?_⟩
  · cases at_ <;> simp [takeOver, RpstTree.store, RpstTree.setChildren, RpstTree.setParent,
      RpstTree.modify]
  · simp [takeOver, RpstTree.setChildren, RpstTree.setParent, RpstTree.modify]
  · intro b out
    simp only [mem_node, not_or, not_exists] at out
    have noChild : ¬ ∃ i, (kids i).label? = some b := by
      rintro ⟨i, label⟩
      exact out.2.2 i (mem_of_label? label)
    by_cases isOwner : at_.owner = some b
    · cases at_ with
      | root => simp [Where.owner] at isOwner
      | child p i =>
        obtain rfl : p = b := by simpa [Where.owner] using isOwner
        have isMem : (rpstUpdateParents ((t.setChildren n (t.mem cur).n_children).setParent n
            (t.mem cur).n_parent) n).mem p = t.mem p := by
          rw [mem_rpstUpdateParents]
          simp only [mem_setParent, mem_setChildren, isChildren, ↓reduceIte, noChild, out.1]
        simp [takeOver, RpstTree.store, mem_setChildren, isMem]
    · rw [mem_takeOver linked new own isOwner, if_neg out.1, if_neg noChild, mem_store isOwner]
  · simp [takeOver]
  · simp [takeOver]

end

theorem PstLinked.descend {t₁ t' : RpstTree α} {top low : α} {i : Bool} {new : Pst α}
    {x y : α → BitVec 64} (linked' : PstLinked t'.mem (some top) new)
    (hpar : (t₁.mem top).n_parent = parent)
    (children : ∀ j, (t₁.mem top).n_children j = (kids j).label?)
    (below : ∀ j, PstLinked t₁.mem (some top) (kids j))
    (ord : (Pst.node top kids).Ordered x y mask) (lowOut : ∀ j, low ∉ kids j)
    (diff : top ≠ low)
    (framed' : Framed (fun b => b = low ∨ b ∈ kids i) (t₁.store (.child top i) new.label?) t') :
    PstLinked t'.mem parent (.node top (update kids i new)) ∧
      Framed (fun b => b = low ∨ b ∈ Pst.node top kids) t₁ t' := by
  constructor
  · apply PstLinked.replace hpar (fun j _ => children j) (fun j _ => below j) framed' linked'
    · rintro (same | isIn)
      · exact diff same
      · exact (ord i).1 isIn
    · intro j otherSide b isIn
      refine ⟨?_, fun same => (ord j).1 (same ▸ isIn)⟩
      rintro (same | alsoIn)
      · exact lowOut j (same ▸ isIn)
      · exact otherSide (ord.side_unique isIn alsoIn)
  · have kept : Framed (fun b => b = low ∨ b ∈ Pst.node top kids) t₁
        (t₁.store (.child top i) new.label?) :=
      Framed.store_child (.inr (Pst.mem_node.mpr (.inl rfl))) i
    refine kept.trans (framed'.mono ?_)
    rintro b (same | isIn)
    · exact .inl same
    · exact .inr (Pst.mem_node.mpr (.inr ⟨i, isIn⟩))

/-- The loop ends, and leaves the tree with the node put in at its link. -/
def Inserted (fuel : Nat) (t : RpstTree α) (parent : Option α) (at_ : Where α) (n : α)
    (mask : BitVec 64) (s : Pst α) : Prop :=
  ∃ t', insertNodeLoop fuel t parent at_ n mask = some (t', none) ∧
    PstLinked t'.mem parent (s.put t.x t.y n mask) ∧
    Framed (fun b => b = n ∨ b ∈ s) (t.store at_ (s.put t.x t.y n mask).label?) t'

variable {fuel : Nat}

theorem Inserted.nil (held : t.load at_ = none) (apart : ∀ p, at_.owner = some p → p ≠ n) :
    Inserted (fuel + 1) t at_.owner at_ n mask .nil := by
  have diff : at_.owner ≠ some n := fun same => apart n same rfl
  refine ⟨_, by rw [insertNodeLoop, held], ?_, ?_⟩
  · refine ⟨?_, fun i => ?_, fun _ => trivial⟩
    · rw [mem_store diff]
      simp [mem_setChildren, mem_setParent]
    · rw [mem_store diff]
      simp [mem_setChildren]
  refine ⟨?_, ?_, ?_, by simp, by simp⟩
  · cases at_ <;> rfl
  · simp [RpstTree.setChildren, RpstTree.setParent, RpstTree.modify]
  · intro b out
    simp only [notMem_nil, or_false] at out
    cases at_ with
    | root => simp [RpstTree.store, mem_setChildren, mem_setParent, out]
    | child p i =>
      have apart : p ≠ n := fun same => diff (congrArg some same)
      simp only [RpstTree.store, mem_setChildren, mem_setParent, out, apart, ↓reduceIte,
        put, label?_node]

section Turn

variable (linked : PstLinked t.mem at_.owner (.node cur kids)) (held : t.load at_ = some cur)
  (ord : (node cur kids).Ordered t.x t.y mask) (new : n ∉ node cur kids)
  (notTwin : ¬ ((t.mem n).n_y = (t.mem cur).n_y ∧ (t.mem n).n_x = (t.mem cur).n_x))

include linked ord new notTwin held

/-- The top is not above the new node, which goes down on the side of its position. -/
theorem Inserted.stays (stays : ¬ t.y n < t.y cur)
    (deeper : Inserted fuel t (some cur) (.child cur (side (t.x n) mask)) n (mask >>> 1)
      (kids (side (t.x n) mask))) :
    Inserted (fuel + 1) t at_.owner at_ n mask (.node cur kids) := by
  obtain ⟨hpar, children, below⟩ := linked
  obtain ⟨t', loop, linked', framed'⟩ := deeper
  have whole := linked'.descend hpar children below ord
    (fun i isIn => new (mem_node.mpr (.inr ⟨i, isIn⟩)))
    (fun same => new (mem_node.mpr (.inl same.symm))) framed'
  refine ⟨t', ?_, ?_, ?_⟩
  · rw [insertNodeLoop, held]
    simp only [hpar, notTwin, show ((t.mem n).n_y < (t.mem cur).n_y) = False from eq_false stays]
    exact (if_pos (childFits_of_ordered ord children _)).trans loop
  · simpa only [put, stays, ↓reduceIte] using whole.1
  · have isHeld : t.store at_ (some cur) = t := by
      rw [← held]
      exact store_load t at_
    simp only [put, stays, ↓reduceIte, label?_node, isHeld]
    exact whole.2

variable (apart : ∀ p, at_.owner = some p → p ∉ node cur kids ∧ p ≠ n)

include apart

omit ord held notTwin in
theorem takeOver_children (i : Bool) :
    ((takeOver t at_ n cur).mem n).n_children i = (kids i).label? := by
  have notOwner : at_.owner ≠ some n := fun same => (apart n same).2 rfl
  rw [mem_takeOver linked new notOwner notOwner]
  simp

/-- The new node takes the place of the top, which goes down. -/
theorem Inserted.swaps (swaps : t.y n < t.y cur)
    (deeper : Inserted fuel (takeOver t at_ n cur) (some n) (.child n (side (t.x cur) mask)) cur
      (mask >>> 1) (kids (side (t.x cur) mask))) :
    Inserted (fuel + 1) t at_.owner at_ n mask (.node cur kids) := by
  have notOwner : at_.owner ≠ some n := fun same => (apart n same).2 rfl
  have hpar := linked.1
  have isTaken : (rpstUpdateParents ((t.setChildren n (t.mem cur).n_children).setParent n
      at_.owner) n).store at_ (some n) = takeOver t at_ n cur := by
    rw [takeOver, hpar]
  have sameX : (takeOver t at_ n cur).x = t.x := by simp [takeOver]
  have sameY : (takeOver t at_ n cur).y = t.y := by simp [takeOver]
  have curParent : ((t.setChildren n (t.mem cur).n_children).mem cur).n_parent = at_.owner := by
    rw [mem_setChildren]
    split <;> exact hpar
  have isX : ((takeOver t at_ n cur).mem cur).n_x = t.x cur := congrFun sameX cur
  have retopped := ord.retop (fun i isIn => new (mem_node.mpr (.inr ⟨i, isIn⟩)))
    (BitVec.le_of_lt swaps)
  have takenChildren := takeOver_children linked new apart
  have fits : childFits (takeOver t at_ n cur) n (side (t.x cur) mask) mask = true := by
    apply childFits_of_ordered _ takenChildren
    rw [sameX, sameY]
    exact retopped
  obtain ⟨t', loop, linked', framed'⟩ := deeper
  rw [sameX, sameY] at linked' framed'
  have whole := linked'.descend (by rw [mem_takeOver linked new notOwner notOwner, if_pos rfl])
    takenChildren (takeOver_linked linked ord new apart) retopped (fun i => (ord i).1)
    (fun same => new (mem_node.mpr (.inl same))) framed'
  refine ⟨t', ?_, ?_, ?_⟩
  · rw [insertNodeLoop, held]
    simp only [hpar, notTwin, show ((t.mem n).n_y < (t.mem cur).n_y) = True from eq_true swaps,
      ↓reduceIte, curParent, isTaken, isX, fits]
    exact loop
  · simpa only [put, swaps, ↓reduceIte] using whole.1
  · simp only [put, swaps]
    refine (framed_takeOver linked new apart).trans (whole.2.mono ?_)
    rintro b (rfl | isIn)
    · exact .inr (mem_node.mpr (.inl rfl))
    · exact (mem_node.mp isIn).imp id fun deeper => mem_node.mpr (.inr deeper)

end Turn

/-- The insertion carries the displaced node down to the place that takes it. -/
theorem insertNodeLoop_spec {s : Pst α} (linked : PstLinked t.mem parent s)
    (held : t.load at_ = s.label?) (own : at_.owner = parent) (ord : s.Ordered t.x t.y mask)
    (new : n ∉ s) (apart : ∀ p, parent = some p → p ∉ s ∧ p ≠ n)
    (sgl : ∀ b c, b = n ∨ b ∈ s → c = n ∨ c ∈ s → t.x b = t.x c → t.y b = t.y c → b = c)
    (suff : s.size < fuel) : Inserted fuel t parent at_ n mask s := by
  induction s generalizing t parent at_ n mask fuel with
  | nil =>
    obtain ⟨fuel, rfl⟩ : ∃ tl, fuel = tl + 1 := ⟨fuel - 1, by omega⟩
    subst own
    exact .nil held fun p same => (apart p same).2
  | node cur kids ih =>
    obtain ⟨fuel, rfl⟩ : ∃ tl, fuel = tl + 1 := ⟨fuel - 1, by omega⟩
    subst own
    have notTwin : ¬ ((t.mem n).n_y = (t.mem cur).n_y ∧ (t.mem n).n_x = (t.mem cur).n_x) := by
      rintro ⟨sameY, sameX⟩
      have := sgl n cur (.inl rfl) (.inr (mem_node.mpr (.inl rfl))) sameX sameY
      exact new (mem_node.mpr (.inl this))
    have outKids : ∀ i, n ∉ kids i := fun i isIn => new (mem_node.mpr (.inr ⟨i, isIn⟩))
    have diff : n ≠ cur := fun same => new (mem_node.mpr (.inl same))
    have lt := size_kid cur kids
    by_cases swaps : t.y n < t.y cur
    · have sameX : (takeOver t at_ n cur).x = t.x := by simp [takeOver]
      have sameY : (takeOver t at_ n cur).y = t.y := by simp [takeOver]
      have ins : ∀ i b, b = cur ∨ b ∈ kids i → b = n ∨ b ∈ node cur kids :=
        fun i b isIn => .inr (mem_node.mpr (isIn.imp id fun isIn => ⟨i, isIn⟩))
      refine .swaps linked held ord new notTwin apart swaps ?_
      refine ih (side (t.x cur) mask) (takeOver_linked linked ord new apart _)
        (show (takeOver t at_ n cur).load (.child n (side (t.x cur) mask)) = _ from
          takeOver_children linked new apart _) rfl
        (sameX.symm ▸ sameY.symm ▸ (ord _).2.2) (ord _).1 ?_ ?_
        (by have := lt (side (t.x cur) mask); omega)
      · rintro p same
        obtain rfl := some.inj same
        exact ⟨outKids _, diff⟩
      · intro b c isB isC
        rw [sameX, sameY]
        exact sgl b c (ins _ b isB) (ins _ c isC)
    · refine .stays linked held ord new notTwin swaps ?_
      refine ih (side (t.x n) mask) (linked.2.2 _)
        (show t.load (.child cur (side (t.x n) mask)) = _ from linked.2.1 _) rfl (ord _).2.2
        (outKids _) ?_ ?_ (by have := lt (side (t.x n) mask); omega)
      · rintro p same
        obtain rfl := some.inj same
        exact ⟨(ord _).1, Ne.symm diff⟩
      · intro b c isB isC
        exact sgl b c (isB.imp id (mem_node.mpr <| .inr ⟨_, ·⟩))
          (isC.imp id (mem_node.mpr <| .inr ⟨_, ·⟩))

theorem insertNodeLoop_twin {s : Pst α} {twin : α} (linked : PstLinked t.mem parent s)
    (held : t.load at_ = s.label?) (ord : s.Ordered t.x t.y mask) (isIn : twin ∈ s)
    (sameX : t.x n = t.x twin) (sameY : t.y n = t.y twin)
    (sgl : ∀ b ∈ s, t.x b = t.x twin → t.y b = t.y twin → b = twin)
    (suff : s.size < fuel) :
    insertNodeLoop fuel t parent at_ n mask = some (t, some twin) := by
  induction s generalizing parent at_ mask fuel with
  | nil => simp at isIn
  | node cur kids ih =>
    obtain ⟨fuel, rfl⟩ : ∃ tl, fuel = tl + 1 := ⟨fuel - 1, by omega⟩
    obtain ⟨hpar, children, below⟩ := linked
    rw [insertNodeLoop, held]
    simp only [label?_node, hpar, ↓reduceIte]
    by_cases isTwin : (t.mem n).n_y = (t.mem cur).n_y ∧ (t.mem n).n_x = (t.mem cur).n_x
    · have isCur := sgl cur (mem_node.mpr (.inl rfl)) (isTwin.2.symm.trans sameX)
        (isTwin.1.symm.trans sameY)
      rw [if_pos isTwin, isCur]
    -- the twin is below, so the top is not larger and stays
    have diff : twin ≠ cur := by
      rintro rfl
      exact isTwin ⟨sameY, sameX⟩
    obtain ⟨i, deeper⟩ := (mem_node.mp isIn).resolve_left diff
    obtain ⟨least, isSide⟩ := (ord i).2.1 twin deeper
    have stays : ¬ (t.mem n).n_y < (t.mem cur).n_y := by
      rw [BitVec.not_lt]
      exact le_of_le_of_eq least sameY.symm
    have idx : side (t.mem n).n_x mask = i := (congrArg (side · mask) sameX).trans isSide
    have fits := childFits_of_ordered ord children i
    have lt := size_kid cur kids i
    simp only [isTwin, stays, ↓reduceIte, idx, fits]
    refine ih i (below i)
      (show t.load (.child cur i) = _ from children i) (ord i).2.2 deeper ?_ ?_
    · exact fun b ins => sgl b (mem_node.mpr (.inr ⟨i, ins⟩))
    · omega

end Insert

section Remove

variable {t : RpstTree α} {parent : Option α} {at_ : Where α} {cur s : α}
  {kids sub : Bool → Pst α} {mask : BitVec 64}

theorem childrenKnow_of_linked [DecidableEq α]
    (children : ∀ i, (t.mem cur).n_children i = (kids i).label?)
    (below : ∀ i, PstLinked t.mem (some cur) (kids i)) : childrenKnow t cur = true := by
  rw [childrenKnow, List.all_eq_true]
  intro i _
  rw [children]
  cases isKid : kids i with
  | nil => rfl
  | node c sub =>
    have linked := below i
    rw [isKid] at linked
    simpa using linked.1

theorem selectChild_eq (children : ∀ i, (t.mem cur).n_children i = (kids i).label?) :
    selectChild t cur = ((kids (selected t.y kids)).label?, selected t.y kids) := by
  unfold selectChild selected
  rw [children, children]
  cases isFirst : (kids false).label? with
  | none => rfl
  | some fst =>
    cases isSecond : (kids true).label? with
    | none => simp [isFirst]
    | some snd =>
      by_cases lt : t.y snd < t.y fst
      · have : (t.mem snd).n_y < (t.mem fst).n_y := lt
        simp [isSecond, lt, this]
      · have : ¬ (t.mem snd).n_y < (t.mem fst).n_y := lt
        simp [isFirst, lt, this]

variable [DecidableEq α]

/-- The writes of an iteration: the selected node and the node to remove exchange children. -/
def pullUp (t : RpstTree α) (cur selected : α) (parent : Option α) : RpstTree α :=
  let tmp := (t.mem selected).n_children
  let t := t.setChildren selected (t.mem cur).n_children
  let t := t.setChildren cur tmp
  (rpstUpdateParents (rpstUpdateParents t cur) selected).setParent selected parent

variable (parent) in
theorem mem_pullUp (children : ∀ i, (t.mem cur).n_children i = (kids i).label?)
    (grandchildren : ∀ i, (t.mem s).n_children i = (sub i).label?) (diff : cur ≠ s)
    (notBelow : ∀ i, (sub i).label? ≠ some s ∧ (sub i).label? ≠ some cur)
    (notKid : ∀ i, (kids i).label? ≠ some cur)
    (apart : ∀ i j b, (sub i).label? = some b → (kids j).label? ≠ some b) {b : α} :
    (pullUp t cur s parent).mem b =
      if b = s then { t.mem s with n_parent := parent, n_children := fun i => (kids i).label? }
      else if b = cur then { t.mem cur with n_children := fun i => (sub i).label? }
      else if ∃ i, (sub i).label? = some b then { t.mem b with n_parent := some cur }
      else if ∃ i, (kids i).label? = some b then { t.mem b with n_parent := some s }
      else t.mem b := by
  have isChildren : (t.mem cur).n_children = fun i => (kids i).label? := funext children
  have isSub : (t.mem s).n_children = fun i => (sub i).label? := funext grandchildren
  unfold pullUp
  simp only [mem_setParent, mem_rpstUpdateParents, mem_setChildren, isChildren, isSub,
    Ne.symm diff, ↓reduceIte]
  by_cases isS : b = s
  · subst isS
    simp only [↓reduceIte, Ne.symm diff, notBelow, exists_false]
    split <;> rfl
  by_cases isCur : b = cur
  · subst isCur
    simp [diff, notBelow, notKid]
  · simp only [isS, isCur, notBelow]
    by_cases inSub : ∃ i, (sub i).label? = some b
    · obtain ⟨i, label⟩ := inSub
      simp [apart i _ b label, show ∃ i, (sub i).label? = some b from ⟨i, label⟩]
    · simp [inSub]

@[simp] theorem x_pullUp : (pullUp t cur s parent).x = t.x := by simp [pullUp]

@[simp] theorem y_pullUp : (pullUp t cur s parent).y = t.y := by simp [pullUp]

variable (parent) in
/-- The records after an iteration: the selected node has the children of the removed one, which
has the children of the selected. -/
theorem pullUp_linked {i : Bool} (ord : (node cur kids).Ordered t.x t.y mask)
    (isKid : kids i = .node s sub) (children : ∀ j, (t.mem cur).n_children j = (kids j).label?)
    (below : ∀ j, PstLinked t.mem (some cur) (kids j)) :
    (pullUp t cur s parent).mem s =
        { t.mem s with n_parent := parent, n_children := fun j => (kids j).label? } ∧
      (∀ j, ((pullUp t cur s parent).mem cur).n_children j = (sub j).label?) ∧
      (∀ j, PstLinked (pullUp t cur s parent).mem (some cur) (sub j)) ∧
      (∀ j, j ≠ i → PstLinked (pullUp t cur s parent).mem (some s) (kids j)) ∧
      ∀ b, b ∉ node cur kids → (pullUp t cur s parent).mem b = t.mem b := by
  have kidOrdered := (ord i).2.2
  have kidLinked := below i
  rw [isKid] at kidOrdered kidLinked
  obtain ⟨_, grandchildren, subLinked⟩ := kidLinked
  have sIn : s ∈ kids i := by simp [isKid]
  have subIn : ∀ j b, b ∈ sub j → b ∈ kids i := fun j b isIn => by
    rw [isKid]
    exact mem_node.mpr (.inr ⟨j, isIn⟩)
  have curOut : ∀ j, cur ∉ kids j := fun j => (ord j).1
  have sOut : ∀ j, s ∉ sub j := fun j => (kidOrdered j).1
  have diff : cur ≠ s := fun same => curOut i (same ▸ sIn)
  have notBelow : ∀ j, (sub j).label? ≠ some s ∧ (sub j).label? ≠ some cur := fun j =>
    ⟨fun same => sOut j (mem_of_label? same),
      fun same => curOut i (subIn j _ (mem_of_label? same))⟩
  have notKid : ∀ j, (kids j).label? ≠ some cur := fun j same => curOut j (mem_of_label? same)
  have apart : ∀ j k b, (sub j).label? = some b → (kids k).label? ≠ some b := by
    intro j k b isSub label
    have inSub := mem_of_label? isSub
    obtain rfl := ord.side_unique (subIn j b inSub) (mem_of_label? label)
    rw [isKid] at label
    obtain rfl : s = b := by simpa using label
    exact sOut j inSub
  have rcd := fun b =>
    mem_pullUp parent children grandchildren diff notBelow notKid apart (b := b)
  refine ⟨by rw [rcd, if_pos rfl], by rw [rcd]; simp [diff], fun j => ?_, fun j other => ?_,
    fun b out => ?_⟩
  · have outside : ∀ b ∈ sub j, b ≠ s ∧ b ≠ cur := fun b isIn =>
      ⟨fun same => sOut j (same ▸ isIn), fun same => curOut i (same ▸ subIn j b isIn)⟩
    apply (subLinked j).reparent (kidOrdered j).2.2
    · intro a label
      obtain ⟨notS, notCur⟩ := outside a (mem_of_label? label)
      rw [rcd, if_neg notS, if_neg notCur, if_pos ⟨j, label⟩]
    intro b isIn notTop
    obtain ⟨notS, notCur⟩ := outside b isIn
    rw [rcd, if_neg notS, if_neg notCur, if_neg, if_neg]
    · rintro ⟨k, label⟩
      obtain rfl := ord.side_unique (subIn j b isIn) (mem_of_label? label)
      rw [isKid] at label
      exact notS (by simpa [eq_comm] using label)
    · rintro ⟨k, label⟩
      obtain rfl := kidOrdered.side_unique isIn (mem_of_label? label)
      exact notTop label
  · have outside : ∀ b ∈ kids j, b ≠ s ∧ b ≠ cur := fun b isIn =>
      ⟨fun same => other (ord.side_unique (same ▸ isIn) sIn), fun same => curOut j (same ▸ isIn)⟩
    have notSub : ∀ b ∈ kids j, ¬ ∃ k, (sub k).label? = some b := by
      rintro b isIn ⟨k, label⟩
      exact other (ord.side_unique isIn (subIn k b (mem_of_label? label)))
    apply (below j).reparent (ord j).2.2
    · intro a label
      have isIn := mem_of_label? label
      obtain ⟨notS, notCur⟩ := outside a isIn
      rw [rcd, if_neg notS, if_neg notCur, if_neg (notSub a isIn), if_pos ⟨j, label⟩]
    intro b isIn notTop
    obtain ⟨notS, notCur⟩ := outside b isIn
    rw [rcd, if_neg notS, if_neg notCur, if_neg (notSub b isIn), if_neg]
    rintro ⟨k, label⟩
    obtain rfl := ord.side_unique isIn (mem_of_label? label)
    exact notTop label
  · simp only [mem_node, not_or, not_exists] at out
    rw [rcd, if_neg, if_neg out.1, if_neg, if_neg]
    · rintro ⟨k, label⟩
      exact out.2 k (mem_of_label? label)
    · rintro ⟨k, label⟩
      exact out.2 i (subIn k b (mem_of_label? label))
    · rintro rfl
      exact out.2 i sIn

/-- Sons move up into the hole, level by level. -/
theorem removeNodeLoop_spec {fuel : Nat}
    (children : ∀ i, (t.mem cur).n_children i = (kids i).label?)
    (below : ∀ i, PstLinked t.mem (some cur) (kids i)) (own : at_.owner = parent)
    (ord : (node cur kids).Ordered t.x t.y mask)
    (apart : ∀ p, parent = some p → p ∉ node cur kids)
    (suff : (node cur kids).size ≤ fuel) :
    ∃ t', removeNodeLoop fuel t parent at_ cur = some t' ∧
      PstLinked t'.mem parent ((node cur kids).drop t.y) ∧
      Framed (· ∈ node cur kids) (t.store at_ ((node cur kids).drop t.y).label?) t' := by
  induction fuel generalizing t parent at_ kids mask with
  | zero => simp [size] at suff
  | succ fuel ih =>
    subst own
    have curOut : ∀ i, cur ∉ kids i := fun i => (ord i).1
    simp only [removeNodeLoop, childrenKnow_of_linked children below, ↓reduceIte,
      selectChild_eq children]
    unfold drop
    cases isLabel : (kids (selected t.y kids)).label? with
    | none => exact ⟨_, rfl, trivial, Framed.refl _ _⟩
    | some s =>
      generalize idx : selected t.y kids = i at *
      obtain ⟨sub, isKid⟩ : ∃ sub, kids i = .node s sub := by
        cases isKid : kids i with
        | nil => simp [isKid] at isLabel
        | node c sub => exact ⟨sub, by simp_all⟩
      have sIn : s ∈ kids i := by simp [isKid]
      have sameMem : ∀ b ∈ node cur kids, (t.store at_ (some s)).mem b = t.mem b :=
        fun b isIn => mem_store fun same => apart b same isIn
      have kidIn : ∀ j b, b ∈ kids j → b ∈ node cur kids :=
        fun j b isIn => mem_node.mpr (.inr ⟨j, isIn⟩)
      have isCur := sameMem cur (mem_node.mpr (.inl rfl))
      obtain ⟨rcd, subChildren, subBelow, kidsBelow, out⟩ := pullUp_linked at_.owner
        (t := t.store at_ (some s)) (by simpa using ord) isKid
        (by rw [isCur]; exact children)
        (fun j => (below j).congr fun b isIn => sameMem b (kidIn j b isIn))
      have kidOrdered := (ord i).2.2
      rw [isKid] at kidOrdered
      have curSub : ∀ j, cur ∉ sub j := fun j isIn => curOut i (by
        rw [isKid]
        exact mem_node.mpr (.inr ⟨j, isIn⟩))
      have sApart : s ∉ node cur sub := by
        simp only [mem_node, not_or, not_exists]
        exact ⟨fun same => curOut i (same ▸ sIn), fun j => (kidOrdered j).1⟩
      have inner := kidOrdered.retop curSub ((ord i).2.1 s sIn).1
      have subIn : ∀ b, b ∈ node cur sub → b = cur ∨ b ∈ kids i := by
        intro b isIn
        rw [isKid]
        exact (mem_node.mp isIn).imp id fun deeper => mem_node.mpr (.inr deeper)
      have lt : (node cur sub).size ≤ fuel := by
        have := size_kid cur kids i
        rw [isKid] at this
        simp only [size] at this suff ⊢
        omega
      have sameX : (pullUp (t.store at_ (some s)) cur s at_.owner).x = t.x := by simp
      have sameY : (pullUp (t.store at_ (some s)) cur s at_.owner).y = t.y := by simp
      obtain ⟨t', loop, linked', framed'⟩ := ih
        subChildren subBelow (rfl : (Where.child s i).owner = some s)
        (by rw [sameX, sameY]; exact inner)
        (by
          rintro p same
          obtain rfl := some.inj same
          exact sApart) lt
      have sameDrop : (node cur sub).drop t.y = (kids i).drop t.y := by
        rw [isKid, drop, drop]
      rw [sameY, sameDrop] at linked' framed'
      refine ⟨t', loop, ?_, ?_⟩
      · refine PstLinked.replace (by rw [rcd]) (fun j _ => by rw [rcd]) kidsBelow framed'
          linked' sApart fun j oth b isIn => ⟨fun inSub => ?_, ?_⟩
        · rcases subIn b inSub with rfl | alsoIn
          · exact curOut j isIn
          · exact oth (ord.side_unique isIn alsoIn)
        · rintro rfl
          exact oth (ord.side_unique isIn sIn)
      have pulled : Framed (· ∈ node cur kids) (t.store at_ (some s))
          (pullUp (t.store at_ (some s)) cur s at_.owner) :=
        ⟨by simp [pullUp, RpstTree.setChildren, RpstTree.setParent, RpstTree.modify],
          by simp [pullUp, RpstTree.setChildren, RpstTree.setParent, RpstTree.modify],
          out, by simp, by simp⟩
      have kept : Framed (· ∈ node cur kids) (pullUp (t.store at_ (some s)) cur s at_.owner)
          ((pullUp (t.store at_ (some s)) cur s at_.owner).store (.child s i)
            ((kids i).drop t.y).label?) := Framed.store_child (kidIn i s sIn) i
      refine (pulled.trans kept).trans (framed'.mono fun b isIn => ?_)
      rcases subIn b isIn with rfl | alsoIn
      · exact mem_node.mpr (.inl rfl)
      · exact kidIn i b alsoIn

end Remove

end NetBSD.Gen
