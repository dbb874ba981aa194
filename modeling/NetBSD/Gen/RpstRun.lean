import Mathlib.Algebra.Order.Ring.Nat
import NetBSD.Gen.RpstLoop
import Mathlib.Data.List.Nodup
import NetBSD.Machine.Trace

/-!
Owns the calls on a radix priority search tree: removal of a node wherever it
stands, enlarging, and insertion. A tree of one node cannot be enlarged: the code
follows the null root it leaves.
-/

namespace NetBSD.Gen

open Function List Option Pst

section Masks

variable {height : Nat}

theorem shiftLeft_shiftRight_one (lt : height + 1 < 64) :
    (1#64 <<< (height + 1)) >>> 1 = 1#64 <<< height := by
  have all : ∀ h : Fin 63, (1#64 <<< (h.val + 1)) >>> 1 = 1#64 <<< h.val := by decide
  exact all ⟨height, by omega⟩

theorem toNat_one_shiftLeft (lt : height < 64) : (1#64 <<< height).toNat = 2 ^ height := by
  rw [BitVec.toNat_shiftLeft, BitVec.toNat_ofNat, Nat.one_shiftLeft]
  exact Nat.mod_eq_of_lt (Nat.pow_lt_pow_right (by omega) lt)

theorem toNat_one_shiftLeft_sub (lt : height < 64) :
    (1#64 <<< height - 1#64).toNat + 1 = 2 ^ height := by
  have pos := Nat.two_pow_pos height
  have sml : 2 ^ height < 2 ^ 64 := Nat.pow_lt_pow_right (by omega) lt
  rw [BitVec.toNat_sub, toNat_one_shiftLeft lt, BitVec.toNat_ofNat]
  omega

theorem rpstHeight2max_eq (lt : height < 64) :
    ∃ max, rpstHeight2max height = some max ∧ max.toNat + 1 = 2 ^ (height + 1) ∧
      1#64 <<< height ||| (1#64 <<< height - 1#64) = max := by
  have whole : ((1#64 <<< height) ||| (1#64 <<< height - 1#64)).toNat + 1 = 2 ^ (height + 1) := by
    have below := toNat_one_shiftLeft_sub lt
    have disjoint := Nat.two_pow_add_eq_or_of_lt
      (show (1#64 <<< height - 1#64).toNat < 2 ^ height by omega) 1
    rw [mul_one] at disjoint
    rw [BitVec.toNat_or, toNat_one_shiftLeft lt]
    omega
  unfold rpstHeight2max
  rw [if_pos lt]
  split
  · rename_i isTop
    subst isTop
    exact ⟨_, rfl, by decide, BitVec.eq_of_toNat_eq (by
      rw [BitVec.toNat_allOnes]
      omega)⟩
  · have next := toNat_one_shiftLeft_sub (show height + 1 < 64 by omega)
    exact ⟨_, rfl, next, BitVec.eq_of_toNat_eq (by omega)⟩

theorem and_shiftLeft_eq_zero {x word : BitVec 64} (sml : x.toNat < 2 ^ height) :
    x &&& (word <<< height) = 0 := by
  apply BitVec.eq_of_getLsbD_eq
  intro i lt
  by_cases low : i < height
  · simp [low]
  · have bit : x.getLsbD i = false := by
      apply Nat.testBit_lt_two_pow
      exact lt_of_lt_of_le sml (Nat.pow_le_pow_right (by omega) (by omega))
    simp [bit]

theorem side_eq_false {x : BitVec 64} (sml : x.toNat < 2 ^ height) :
    side x (1#64 <<< height) = false := by
  simp [side, and_shiftLeft_eq_zero sml]

theorem and_neg_shiftLeft {x : BitVec 64} (lt : height < 64)
    (sml : x.toNat < 2 ^ (height + 1)) : x &&& ((-(1#64 <<< height)) <<< 1) = 0 := by
  have all : ∀ h : Fin 64, (-(1#64 <<< h.val)) <<< 1 =
      (BitVec.allOnes 64) <<< (h.val + 1) := by decide
  rw [all ⟨height, lt⟩]
  exact and_shiftLeft_eq_zero sml

end Masks

variable {α : Type} [DecidableEq α]

/-- The records in memory are those of the tree, every node lies where its coordinates say, and the
height suffices for all of them. -/
structure PstHolds (t : RpstTree α) (tree : Pst α) : Prop where
  root : t.t_root = tree.label?
  linked : PstLinked t.mem none tree
  ordered : tree.Ordered t.x t.y (1#64 <<< t.t_height)
  height : t.t_height < 64
  fits : ∀ b ∈ tree, (t.x b).toNat < 2 ^ (t.t_height + 1)

section Calls

variable {t : RpstTree α} {tree : Pst α} {n : α} {fuel : Nat}

/-- A removal below a linked place drops one node and frames the rest. -/
theorem rpstRemoveNode_below {s : Pst α} {parent : Option α} {at_ : Where α} {mask : BitVec 64}
    (link : PstLinked t.mem parent s) (held : t.load at_ = s.label?) (own : at_.owner = parent)
    (only : ∀ p i, at_ = .child p i → ∀ j, (t.mem p).n_children j = s.label? → j = i)
    (ord : s.Ordered t.x t.y mask) (apart : ∀ p, parent = some p → p ∉ s) (isIn : n ∈ s)
    (suff : s.size ≤ fuel) :
    ∃ t', rpstRemoveNode fuel t n = some t' ∧ PstLinked t'.mem parent (s.remove t.y n) ∧
      Framed (· ∈ s) (t.store at_ (s.remove t.y n).label?) t' := by
  induction s generalizing parent at_ mask with
  | nil => simp at isIn
  | node a kids ih =>
    obtain ⟨hpar, children, below⟩ := link
    by_cases isTop : a = n
    · subst isTop
      have fnd : rpstFindPptr t a = some (at_, parent) := by
        unfold rpstFindPptr
        rw [hpar]
        cases at_ with
        | root =>
          obtain rfl : none = parent := own
          rfl
        | child p i =>
          obtain rfl : some p = parent := own
          have isChild : (t.mem p).n_children i = some a := held
          have index : (!decide ((t.mem p).n_children false = some a)) = i := by
            cases i with
            | false => simp [isChild]
            | true =>
              have oth : (t.mem p).n_children false ≠ some a := fun same =>
                absurd (only p true rfl false same) (by decide)
              simp [oth]
          simp [index, isChild]
      obtain ⟨t', loop, linked', framed'⟩ :=
        removeNodeLoop_spec children below own ord apart suff
      refine ⟨t', ?_, by simpa [remove] using linked', by simpa [remove] using framed'⟩
      simp [rpstRemoveNode, fnd, rpstRemoveNodeAt, hpar, loop]
    obtain ⟨i, deeper⟩ := (mem_node.mp isIn).resolve_left (Ne.symm isTop)
    have smaller := size_kid a kids i
    obtain ⟨t', gone, linked', framed'⟩ := ih i (below i)
      (show t.load (.child a i) = _ from children i) rfl
      (by
        rintro p j same k isChild
        obtain ⟨rfl, rfl⟩ := Where.child.inj same
        rw [children] at isChild
        obtain ⟨c, label⟩ := exists_label? deeper
        exact ord.side_unique (mem_of_label? (isChild.trans label))
          (mem_of_label? label))
      (ord i).2.2
      (by
        rintro p same
        obtain rfl := some.inj same
        exact (ord i).1)
      deeper (by omega)
    have isRemoved : (node a kids).remove t.y n =
        .node a (update kids i ((kids i).remove t.y n)) := by
      simp only [remove, isTop, ↓reduceIte]
      congr 1
      funext j
      by_cases same : j = i
      · subst same
        simp
      · rw [update_of_ne same]
        apply remove_of_notMem
        exact fun alsoIn => same (ord.side_unique alsoIn deeper)
    have isHeld : t.store at_ (some a) = t := by
      rw [← label?_node a kids, ← held]
      exact store_load t at_
    rw [isRemoved]
    refine ⟨t', gone, ?_, ?_⟩
    · apply PstLinked.replace hpar (fun j _ => children j) (fun j _ => below j) framed'
        linked' (ord i).1
      intro j oth b lt
      refine ⟨fun alsoIn => oth (ord.side_unique lt alsoIn), ?_⟩
      rintro rfl
      exact (ord j).1 lt
    · rw [label?_node, isHeld]
      have kept : Framed (· ∈ node a kids) t
          (t.store (.child a i) ((kids i).remove t.y n).label?) :=
        Framed.store_child (mem_node.mpr (.inl rfl)) i
      exact kept.trans (framed'.mono fun b lt => mem_node.mpr (.inr ⟨i, lt⟩))

theorem rpstRemoveNode_spec (holds : PstHolds t tree) (isIn : n ∈ tree) (suff : tree.size ≤ fuel) :
    ∃ t', rpstRemoveNode fuel t n = some t' ∧ PstHolds t' (tree.remove t.y n) ∧
      t'.x = t.x ∧ t'.y = t.y ∧ t'.t_height = t.t_height := by
  obtain ⟨t', gone, link, framed⟩ := rpstRemoveNode_below holds.linked
    (show t.load .root = _ from holds.root) rfl (by simp) holds.ordered (by simp) isIn suff
  have sameX : t'.x = t.x := framed.sameX.trans x_store
  have sameY : t'.y = t.y := framed.sameY.trans y_store
  have sameHeight : t'.t_height = t.t_height := framed.height.trans height_store
  refine ⟨t', gone, ⟨framed.root, link, ?_, ?_, ?_⟩, sameX, sameY, sameHeight⟩
  · rw [sameX, sameY, sameHeight]
    exact holds.ordered.remove n
  · rw [sameHeight]
    exact holds.height
  · intro b lt
    rw [sameX, sameHeight]
    exact holds.fits b ((mem_remove holds.ordered).mp lt).1

variable {idx : BitVec 64} {removals : Nat}

theorem enlargeLoop_of_fits (holds : PstHolds t tree) (fits : idx.toNat < 2 ^ (t.t_height + 1))
    (suff : 0 < fuel) : enlargeLoop removals idx fuel t = some t := by
  obtain ⟨fuel, rfl⟩ : ∃ tl, fuel = tl + 1 := ⟨fuel - 1, by omega⟩
  obtain ⟨max, isMax, isBound, _⟩ := rpstHeight2max_eq holds.height
  have sml : ¬ max < idx := by
    rw [BitVec.lt_def]
    omega
  simp [enlargeLoop, isMax, sml]

/-- The tree below a new top that was its root. -/
def Pst.lift (n : α) (rest : Pst α) : Pst α := .node n fun i => if i then .nil else rest

/-- A root put above the old one makes the tree one level higher. -/
theorem lift_holds {t₁ : RpstTree α} {tl : Pst α} {r : α} (holds : PstHolds t₁ tl)
    (isTop : tl.label? = some r) (out : n ∉ tl) (least : ∀ b ∈ tl, t₁.y n ≤ t₁.y b)
    (fits : (t₁.x n).toNat < 2 ^ (t₁.t_height + 1)) (rm : t₁.t_height + 1 < 64) :
    ∃ t', putRootAbove t₁ n = some t' ∧
      PstHolds { t' with t_height := t₁.t_height + 1 } (lift n tl) ∧ t'.x = t₁.x ∧
      t'.y = t₁.y ∧ t'.t_height = t₁.t_height := by
  have diff : r ≠ n := by
    rintro rfl
    exact out (mem_of_label? isTop)
  have isRoot : t₁.t_root = some r := holds.root.trans isTop
  obtain ⟨t', isT'⟩ : ∃ t', putRootAbove t₁ n = some t' := by
    simp [putRootAbove, RpstTree.store, RpstTree.setChildren, RpstTree.modify, isRoot]
  have above := isT'
  simp only [putRootAbove, RpstTree.store, RpstTree.setChildren, RpstTree.setParent,
    RpstTree.modify, isRoot, bind_eq_bind, bind_some, some.injEq] at above
  have rcd : ∀ b, t'.mem b = if b = n then { t₁.mem n with
      n_parent := none, n_children := update (fun _ => none) false (some r) }
      else if b = r then { t₁.mem r with n_parent := some n } else t₁.mem b := by
    intro b
    rw [← above]
    by_cases isN : b = n
    · subst isN
      simp [Ne.symm diff]
    · by_cases isR : b = r
      · subst isR
        simp [diff]
      · simp [isN, isR]
  have sameX : t'.x = t₁.x := by
    funext b
    simp only [RpstTree.x, rcd]
    split
    · simp [*]
    · split <;> simp [*]
  have sameY : t'.y = t₁.y := by
    funext b
    simp only [RpstTree.y, rcd]
    split
    · simp [*]
    · split <;> simp [*]
  have notN : ∀ b ∈ tl, b ≠ n := by
    rintro b isIn rfl
    exact out isIn
  have sameX' : RpstTree.x { t' with t_height := t₁.t_height + 1 } = t₁.x := sameX
  have sameY' : RpstTree.y { t' with t_height := t₁.t_height + 1 } = t₁.y := sameY
  refine ⟨t', isT', ⟨?_, ⟨?_, ?_, ?_⟩, ?_, rm, ?_⟩, sameX, sameY, by rw [← above]⟩
  · rw [← above]
    rfl
  · simp [rcd]
  · intro i
    cases i <;> simp [rcd, isTop]
  · intro i
    cases i with
    | true => trivial
    | false =>
      apply holds.linked.reparent holds.ordered
      · intro a label
        obtain rfl := some.inj (isTop.symm.trans label)
        rw [rcd, if_neg diff, if_pos rfl]
      · intro b isIn notTop
        rw [rcd, if_neg (notN b isIn), if_neg]
        rintro rfl
        exact notTop isTop
  · rw [sameX', sameY']
    intro i
    cases i with
    | true => exact ⟨notMem_nil n, fun b absurd => (notMem_nil b absurd).elim, trivial⟩
    | false =>
      refine ⟨out, fun b isIn => ⟨least b isIn, side_eq_false (holds.fits b isIn)⟩, ?_⟩
      rw [shiftLeft_shiftRight_one rm]
      exact holds.ordered
  · intro b isIn
    rw [sameX']
    simp only
    rcases mem_node.mp isIn with rfl | ⟨i, lt⟩
    · omega
    · cases i with
      | true => exact (notMem_nil b lt).elim
      | false =>
        have := holds.fits b lt
        omega

/-- The tree grows until its top index covers the new point. -/
theorem enlargeLoop_spec (holds : PstHolds t tree) (notOne : tree.size ≠ 1)
    (suff : 64 ≤ fuel + t.t_height) (many : tree.size ≤ removals) :
    ∃ t' tree', enlargeLoop removals idx fuel t = some t' ∧ PstHolds t' tree' ∧
      (∀ b, b ∈ tree' ↔ b ∈ tree) ∧ tree'.size = tree.size ∧ t'.x = t.x ∧ t'.y = t.y ∧
      idx.toNat < 2 ^ (t'.t_height + 1) := by
  induction fuel generalizing t tree with
  | zero =>
    have := holds.height
    omega
  | succ fuel ih =>
    by_cases fits : idx.toNat < 2 ^ (t.t_height + 1)
    · exact ⟨t, tree, enlargeLoop_of_fits holds fits (by omega), holds, fun _ => Iff.rfl, rfl, rfl,
        rfl, fits⟩
    obtain ⟨max, isMax, isBound, _⟩ := rpstHeight2max_eq holds.height
    have large : max < idx := by
      rw [BitVec.lt_def]
      omega
    have rm : t.t_height + 1 < 64 := by
      by_contra full
      rw [show t.t_height = 63 by have := holds.height; omega] at fits
      omega
    simp only [enlargeLoop, isMax, bind_eq_bind, bind_some, large, ↓reduceIte,
      holds.root]
    cases tree with
    | nil =>
      have taller : PstHolds { t with t_height := t.t_height + 1 } (.nil : Pst α) :=
        ⟨holds.root, trivial, trivial, rm, by simp⟩
      rw [holds.root] at taller
      exact ih taller notOne (by simp only; omega) many
    | node n kids =>
      obtain ⟨t₁, gone, holds₁, sameX, sameY, sameHeight⟩ :=
        rpstRemoveNode_spec holds (mem_node.mpr (.inl rfl)) many
      have isDrop : (node n kids).remove t.y n = (node n kids).drop t.y := by
        simp [remove]
      rw [isDrop] at holds₁
      have restSize := size_drop (y := t.y) (node n kids)
      have restMem := fun b => mem_drop (b := b) holds.ordered
      generalize (node n kids).drop t.y = rest at holds₁ restSize restMem
      obtain ⟨r, isTop⟩ : ∃ r, rest.label? = some r := by
        cases rest with
        | nil => simp [size] at restSize notOne; omega
        | node r sub => exact ⟨r, rfl⟩
      have out : n ∉ rest := by simp [restMem]
      obtain ⟨t₂, isT₂, holds₂, sameX₂, sameY₂, sameHeight₂⟩ := lift_holds holds₁ isTop out
        (fun b isIn => by
          have wasIn := ((restMem b).mp isIn).1
          rw [sameY]
          exact holds.ordered.label_le rfl wasIn)
        (by
          rw [sameX, sameHeight]
          exact holds.fits n (mem_node.mpr (.inl rfl)))
        (by omega)
      have liftSize : (lift n rest).size = (node n kids).size := by
        simp only [lift, size] at restSize ⊢
        simp only [Bool.false_eq_true, ↓reduceIte] at *
        have : (nil : Pst α).size = 0 := rfl
        omega
      obtain ⟨t', tree', loop, holds', members, sizes, sameX', sameY', fits'⟩ :=
        ih holds₂ (by rw [liftSize]; exact notOne) (by simp only; omega)
          (by rw [liftSize]; exact many)
      refine ⟨t', tree', ?_, holds', fun b => ?_, sizes.trans liftSize, ?_, ?_, fits'⟩
      · simp only [label?_node, gone, bind_some, isT₂, sameHeight₂]
        exact loop
      · rw [members, lift, mem_node]
        simp only [Bool.exists_bool, Bool.false_eq_true, ↓reduceIte, notMem_nil, or_false,
          restMem, label?_node]
        by_cases same : b = n
        · simp [same]
        · simp [Ne.symm same]
      · exact sameX'.trans (sameX₂.trans sameX)
      · exact sameY'.trans (sameY₂.trans sameY)

theorem enlargeLoop_single (holds : PstHolds t tree) (isOne : tree.size = 1)
    (large : 2 ^ (t.t_height + 1) ≤ idx.toNat) (many : 1 ≤ removals) :
    enlargeLoop removals idx fuel t = none := by
  cases fuel with
  | zero => rfl
  | succ fuel =>
    obtain ⟨max, isMax, isBound, _⟩ := rpstHeight2max_eq holds.height
    have over_ : max < idx := by
      rw [BitVec.lt_def]
      omega
    cases tree with
    | nil => simp [size] at isOne
    | node n kids =>
      obtain ⟨t₁, gone, holds₁, _⟩ :=
        rpstRemoveNode_spec holds (mem_node.mpr (.inl rfl)) (isOne.le.trans many)
      have isNil : (node n kids).remove t.y n = .nil := by
        have sizes := size_remove holds.ordered (mem_node.mpr (.inl rfl) : n ∈ _)
        cases isRest : (node n kids).remove t.y n with
        | nil => rfl
        | node r sub =>
          rw [isRest] at sizes
          simp only [size] at sizes isOne
          omega
      have noRoot : t₁.t_root = none := by
        rw [holds₁.root, isNil]
        rfl
      have stuck : putRootAbove t₁ n = none := by
        simp [putRootAbove, RpstTree.store, RpstTree.setChildren, RpstTree.modify, noRoot]
      simp [enlargeLoop, isMax, over_, holds.root, gone, stuck]

omit [DecidableEq α] in
theorem rpstStartmask_eq (holds : PstHolds t tree) :
    rpstStartmask t = some (1#64 <<< t.t_height) := by
  obtain ⟨max, isMax, _, isOr⟩ := rpstHeight2max_eq holds.height
  simp [rpstStartmask, rpstLevel2mask, isMax, isOr]

/-- A new point goes in, whatever the height it needs. -/
theorem rpstInsertNode_new (holds : PstHolds t tree) (new : n ∉ tree)
    (sgl : ∀ b c, b = n ∨ b ∈ tree → c = n ∨ c ∈ tree → t.x b = t.x c → t.y b = t.y c → b = c)
    (fine : tree.size ≠ 1 ∨ (t.x n).toNat < 2 ^ (t.t_height + 1)) (suff : tree.size + 64 ≤ fuel) :
    ∃ t' tree', rpstInsertNode fuel t n = some (t', none) ∧ PstHolds t' tree' ∧
      (∀ b, b ∈ tree' ↔ b = n ∨ b ∈ tree) ∧ tree'.size = tree.size + 1 ∧ t'.x = t.x ∧
      t'.y = t.y := by
  obtain ⟨t₁, tree₁, enlarged, holds₁, members, sizes, sameX, sameY, fits⟩ :
      ∃ t₁ tree₁, rpstEnlargeTree fuel t (t.x n) = some t₁ ∧ PstHolds t₁ tree₁ ∧
        (∀ b, b ∈ tree₁ ↔ b ∈ tree) ∧ tree₁.size = tree.size ∧ t₁.x = t.x ∧ t₁.y = t.y ∧
        (t.x n).toNat < 2 ^ (t₁.t_height + 1) := by
    by_cases sml : (t.x n).toNat < 2 ^ (t.t_height + 1)
    · exact ⟨t, tree, enlargeLoop_of_fits holds sml (by omega), holds, fun _ => Iff.rfl, rfl, rfl,
        rfl, sml⟩
    · exact enlargeLoop_spec holds (fine.resolve_right sml) (by omega) (by omega)
  obtain ⟨t', loop, link, framed⟩ := insertNodeLoop_spec (n := n) holds₁.linked
    (show t₁.load .root = _ from holds₁.root) rfl holds₁.ordered (by rwa [members]) (by simp)
    (by
      intro b c isB isC
      rw [members] at isB isC
      rw [sameX, sameY]
      exact sgl b c isB isC)
    (show tree₁.size < fuel by omega)
  have sameX' : t'.x = t₁.x := framed.sameX.trans x_store
  have sameY' : t'.y = t₁.y := framed.sameY.trans y_store
  have sameHeight : t'.t_height = t₁.t_height := framed.height.trans height_store
  refine ⟨t', _, ?_, ⟨framed.root, link, ?_, ?_, ?_⟩, ?_, ?_, ?_, ?_⟩
  · have noHigh : (t₁.mem n).n_x &&& ((-(1#64 <<< t₁.t_height)) <<< 1) = 0 := by
      apply and_neg_shiftLeft holds₁.height
      rwa [← congrFun sameX n] at fits
    have isIdx : (t.mem n).n_x = t.x n := rfl
    simp only [rpstInsertNode, isIdx, enlarged, bind_eq_bind, bind_some,
      rpstStartmask_eq holds₁, rpstInsertNode1, noHigh, ↓reduceIte]
    exact loop
  · rw [sameX', sameY', sameHeight]
    exact holds₁.ordered.put (by rwa [members])
  · rw [sameHeight]
    exact holds₁.height
  · intro b isIn
    rw [sameX', sameHeight]
    rcases mem_put.mp isIn with rfl | wasIn
    · rwa [sameX]
    · exact holds₁.fits b wasIn
  · intro b
    rw [mem_put, members]
  · rw [size_put, sizes]
  · rw [sameX', sameX]
  · rw [sameY', sameY]

theorem rpstInsertNode_twin (holds : PstHolds t tree) {twin : α} (isIn : twin ∈ tree)
    (sameX : t.x n = t.x twin) (sameY : t.y n = t.y twin)
    (sgl : ∀ b ∈ tree, t.x b = t.x twin → t.y b = t.y twin → b = twin)
    (suff : tree.size < fuel) : rpstInsertNode fuel t n = some (t, some twin) := by
  have fits := holds.fits twin isIn
  rw [← sameX] at fits
  have enlarged : rpstEnlargeTree fuel t (t.x n) = some t :=
    enlargeLoop_of_fits holds fits (by omega)
  have noHigh : t.x n &&& ((-(1#64 <<< t.t_height)) <<< 1) = 0 :=
    and_neg_shiftLeft holds.height fits
  have isIdx : (t.mem n).n_x = t.x n := rfl
  simp only [rpstInsertNode, isIdx, enlarged, bind_eq_bind, bind_some,
    rpstStartmask_eq holds, rpstInsertNode1, noHigh, ↓reduceIte]
  exact insertNodeLoop_twin holds.linked (show t.load .root = _ from holds.root) holds.ordered isIn
    sameX sameY sgl suff

theorem rpstInsertNode_single (holds : PstHolds t tree) (isOne : tree.size = 1)
    (large : 2 ^ (t.t_height + 1) ≤ (t.x n).toNat) (suff : 1 ≤ fuel) :
    rpstInsertNode fuel t n = none := by
  have isIdx : (t.mem n).n_x = t.x n := rfl
  have stuck : rpstEnlargeTree fuel t (t.x n) = none := enlargeLoop_single holds isOne large suff
  simp [rpstInsertNode, isIdx, stuck]

end Calls

/-!
### Sequences of calls

The radix priority search tree as a set of points. Every sequence of calls
keeps the tree in memory a tree of exactly the points inserted and not removed, as
long as a tree of one node is not asked to take a point beyond its height.
-/

open NetBSD.Machine

/-- A point, with the node that carries it. -/
abbrev Point (α : Type) := α × BitVec 64 × BitVec 64

inductive RpstCall (α : Type) where
  | insert (n : α) (x y : BitVec 64)
  | remove (n : α)
  deriving DecidableEq, Repr

/-- What an insertion was given and what it returned. -/
structure RpstReply (α : Type) where
  before : RpstTree α
  known : List (Point α)
  x : BitVec 64
  y : BitVec 64
  returned : Option α

/-- A tree, the points it is to hold and the reply to the last insertion, when that was the last
call. -/
structure RpstSession (α : Type) where
  tree : RpstTree α
  points : List (Point α)
  reply : Option (RpstReply α)

section Session

variable {α : Type} [DecidableEq α]

/-- The caller sets the coordinates of a node. -/
def RpstTree.setPoint (t : RpstTree α) (n : α) (x y : BitVec 64) : RpstTree α :=
  t.modify n fun node => { node with n_x := x, n_y := y }

def addPoint (points : List (Point α)) (n : α) (x y : BitVec 64) : List (Point α) :=
  if points.any (fun p => decide (p.2 = (x, y))) then points else (n, x, y) :: points

/-- One call. A node in the tree is not inserted again, and only nodes in the tree are removed. -/
def rpstStep (session : RpstSession α) : RpstCall α → Option (RpstSession α)
  | .insert n x y =>
    if n ∈ session.points.map Prod.fst then some session
    else do
      let before := session.tree.setPoint n x y
      let (after, returned) ← rpstInsertNode (session.points.length + 64) before n
      some ⟨after, addPoint session.points n x y, some ⟨before, session.points, x, y, returned⟩⟩
  | .remove n =>
    if n ∈ session.points.map Prod.fst then do
      let after ← rpstRemoveNode (session.points.length + 64) session.tree n
      some ⟨after, session.points.filter fun p => p.1 ≠ n, none⟩
    else some session

/-- A fresh tree, over memory that holds anything. -/
def rpstStart (mem : α → RpstNode α) : RpstSession α := ⟨rpstInitTree mem, [], none⟩

structure HoldsPoints (t : RpstTree α) (tree : Pst α) (points : List (Point α)) : Prop where
  holds : PstHolds t tree
  mem_iff : ∀ a x y, (a, x, y) ∈ points ↔ a ∈ tree ∧ x = t.x a ∧ y = t.y a
  distinct : (points.map Prod.fst).Nodup
  single : ∀ b ∈ tree, ∀ c ∈ tree, t.x b = t.x c → t.y b = t.y c → b = c
  size : tree.size = points.length

/-- An insertion of a point that is known returned its node and left the tree as it was; any other
returned none. -/
def RpstReply.Right (reply : RpstReply α) (after : RpstTree α) : Prop :=
  (∀ m, (m, reply.x, reply.y) ∈ reply.known → reply.returned = some m ∧ after = reply.before) ∧
    ((∀ m, (m, reply.x, reply.y) ∉ reply.known) → reply.returned = none)

structure RpstSession.Sound (session : RpstSession α) : Prop where
  holds : ∃ tree, HoldsPoints session.tree tree session.points
  right : ∀ reply, session.reply = some reply → reply.Right session.tree

def RpstSession.Fine (session : RpstSession α) : RpstCall α → Prop
  | .insert n x _ => n ∈ session.points.map Prod.fst ∨ session.points.length ≠ 1 ∨
      x.toNat < 2 ^ (session.tree.t_height + 1)
  | .remove _ => True

end Session

section Steps

variable {α : Type} [DecidableEq α] {session : RpstSession α} {t : RpstTree α} {tree : Pst α}
  {points : List (Point α)} {n : α} {x y : BitVec 64}

omit [DecidableEq α] in
theorem rpstStart_sound (mem : α → RpstNode α) : (rpstStart mem).Sound where
  holds := ⟨.nil, ⟨⟨rfl, trivial, trivial, Nat.zero_lt_succ _, by simp⟩, by simp [rpstStart],
    nodup_nil, by simp, rfl⟩⟩
  right := by simp [rpstStart]

omit [DecidableEq α] in
theorem HoldsPoints.mem_keys (holds : HoldsPoints t tree points) :
    n ∈ points.map Prod.fst ↔ n ∈ tree := by
  constructor
  · intro isIn
    obtain ⟨⟨a, x, y⟩, mem, rfl⟩ := mem_map.mp isIn
    exact ((holds.mem_iff a x y).mp mem).1
  · intro isIn
    exact mem_map.mpr ⟨(n, t.x n, t.y n), (holds.mem_iff _ _ _).mpr ⟨isIn, rfl, rfl⟩, rfl⟩

theorem x_setPoint : (t.setPoint n x y).x = update t.x n x := by
  funext b
  by_cases same : b = n <;> simp [RpstTree.x, RpstTree.setPoint, RpstTree.modify, same]

theorem y_setPoint : (t.setPoint n x y).y = update t.y n y := by
  funext b
  by_cases same : b = n <;> simp [RpstTree.y, RpstTree.setPoint, RpstTree.modify, same]

section

variable (holds : HoldsPoints t tree points) (new : n ∉ tree)

include holds new

theorem HoldsPoints.setPoint : HoldsPoints (t.setPoint n x y) tree points := by
  have apart : ∀ b ∈ tree, b ≠ n := by
    rintro b isIn rfl
    exact new isIn
  have sameX : ∀ b ∈ tree, (t.setPoint n x y).x b = t.x b := fun b isIn => by
    rw [x_setPoint, update_of_ne (apart b isIn)]
  have sameY : ∀ b ∈ tree, (t.setPoint n x y).y b = t.y b := fun b isIn => by
    rw [y_setPoint, update_of_ne (apart b isIn)]
  refine ⟨⟨holds.holds.root, ?_, ?_, holds.holds.height, ?_⟩, ?_, holds.distinct, ?_, holds.size⟩
  · apply holds.holds.linked.congr
    intro b isIn
    simp [RpstTree.setPoint, RpstTree.modify, apart b isIn]
  · exact holds.holds.ordered.congr fun b isIn => ⟨sameX b isIn, sameY b isIn⟩
  · intro b isIn
    rw [sameX b isIn]
    exact holds.holds.fits b isIn
  · intro a px py
    rw [holds.mem_iff]
    constructor
    · rintro ⟨isIn, rfl, rfl⟩
      exact ⟨isIn, (sameX a isIn).symm, (sameY a isIn).symm⟩
    · rintro ⟨isIn, rfl, rfl⟩
      exact ⟨isIn, sameX a isIn, sameY a isIn⟩
  · intro b isB c isC
    rw [sameX b isB, sameX c isC, sameY b isB, sameY c isC]
    exact holds.single b isB c isC

theorem insert_known {m : α} (known : (m, x, y) ∈ points) :
    rpstInsertNode (points.length + 64) (t.setPoint n x y) n = some (t.setPoint n x y, some m) := by
  have held := holds.setPoint (x := x) (y := y) new
  obtain ⟨isIn, isX, isY⟩ := (held.mem_iff m x y).mp known
  apply rpstInsertNode_twin held.holds isIn
  · rw [← isX, x_setPoint, update_self]
  · rw [← isY, y_setPoint, update_self]
  · exact fun b lt => held.single b lt m isIn
  · rw [held.size]
    omega

/-- A new pair of coordinates goes in. -/
theorem insert_unknown (unknown : ∀ m, (m, x, y) ∉ points)
    (fine : points.length ≠ 1 ∨ x.toNat < 2 ^ (t.t_height + 1)) :
    ∃ t' tree', rpstInsertNode (points.length + 64) (t.setPoint n x y) n = some (t', none) ∧
      HoldsPoints t' tree' ((n, x, y) :: points) := by
  have held := holds.setPoint (x := x) (y := y) new
  have isX : (t.setPoint n x y).x n = x := by rw [x_setPoint, update_self]
  have isY : (t.setPoint n x y).y n = y := by rw [y_setPoint, update_self]
  have apart : ∀ b ∈ tree, ¬ ((t.setPoint n x y).x b = x ∧ (t.setPoint n x y).y b = y) := by
    rintro b isIn ⟨sameX, sameY⟩
    exact unknown b ((held.mem_iff b x y).mpr ⟨isIn, sameX.symm, sameY.symm⟩)
  have sgl : ∀ b c, b = n ∨ b ∈ tree → c = n ∨ c ∈ tree →
      (t.setPoint n x y).x b = (t.setPoint n x y).x c →
      (t.setPoint n x y).y b = (t.setPoint n x y).y c → b = c := by
    rintro b c (rfl | isB) (rfl | isC) sameX sameY
    · rfl
    · exact (apart c isC ⟨sameX.symm.trans isX, sameY.symm.trans isY⟩).elim
    · exact (apart b isB ⟨sameX.trans isX, sameY.trans isY⟩).elim
    · exact held.single b isB c isC sameX sameY
  obtain ⟨t', tree', insd, holds', members, sizes, sameX, sameY⟩ := rpstInsertNode_new
    held.holds new sgl (by rw [held.size, isX]; exact fine) (by rw [held.size])
  refine ⟨t', tree', insd, holds', ?_, ?_, ?_, ?_⟩
  · intro a px py
    rw [members, sameX, sameY, mem_cons, held.mem_iff]
    by_cases same : a = n
    · subst same
      simp [isX, isY]
    · simp [same]
  · rw [map_cons, nodup_cons, held.mem_keys]
    exact ⟨new, held.distinct⟩
  · intro b isB c isC
    rw [members] at isB isC
    rw [sameX, sameY]
    exact sgl b c isB isC
  · rw [sizes, held.size]
    rfl

end

theorem length_filter_ne {points : List (Point α)} (dist : (points.map Prod.fst).Nodup)
    (isIn : n ∈ points.map Prod.fst) :
    (points.filter fun p => p.1 ≠ n).length + 1 = points.length := by
  induction points with
  | nil => simp at isIn
  | cons head tl ih =>
    rw [map_cons, nodup_cons] at dist
    rw [map_cons, mem_cons] at isIn
    by_cases same : head.1 = n
    · have oths : tl.filter (fun p => p.1 ≠ n) = tl := by
        apply filter_eq_self.mpr
        intro p mem
        simp only [decide_eq_true_eq]
        rintro rfl
        exact dist.1 (same ▸ mem_map.mpr ⟨p, mem, rfl⟩)
      rw [filter_cons_of_neg (by simpa using same), oths]
      rfl
    · have lt := ih dist.2 (isIn.resolve_left (Ne.symm same))
      rw [filter_cons_of_pos (by simpa using same), length_cons, length_cons]
      omega

theorem remove_known (holds : HoldsPoints t tree points) (isIn : n ∈ tree) :
    ∃ t' tree', rpstRemoveNode (points.length + 64) t n = some t' ∧
      HoldsPoints t' tree' (points.filter fun p => p.1 ≠ n) := by
  obtain ⟨t', gone, holds', sameX, sameY, _⟩ := rpstRemoveNode_spec holds.holds isIn
    (show tree.size ≤ points.length + 64 by rw [holds.size]; omega)
  have members := fun b => mem_remove (b := b) (n := n) holds.holds.ordered
  refine ⟨t', _, gone, holds', ?_, ?_, ?_, ?_⟩
  · intro a x y
    rw [mem_filter, holds.mem_iff, members, sameX, sameY, decide_eq_true_eq]
    tauto
  · exact (filter_sublist.map Prod.fst).nodup holds.distinct
  · intro b isB c isC
    rw [sameX, sameY]
    exact holds.single b ((members b).mp isB).1 c ((members c).mp isC).1
  · have sizes := size_remove holds.holds.ordered isIn
    have lens := length_filter_ne holds.distinct (holds.mem_keys.mpr isIn)
    have := holds.size
    omega

/-- One call keeps the session sound exactly when it does not enlarge a tree of one node. -/
theorem rpstStep_sound (sound : session.Sound) (call : RpstCall α) :
    (∃ s', rpstStep session call = some s' ∧ s'.Sound) ↔ session.Fine call := by
  obtain ⟨tree, holds⟩ := sound.holds
  cases call with
  | remove n =>
    refine iff_of_true ?_ trivial
    by_cases isIn : n ∈ session.points.map Prod.fst
    · obtain ⟨t', tree', gone, holds'⟩ := remove_known holds (holds.mem_keys.mp isIn)
      exact ⟨_, by simp only [rpstStep, isIn, gone]; rfl, ⟨tree', holds'⟩, by simp⟩
    · exact ⟨session, by simp only [rpstStep, isIn, ↓reduceIte], sound⟩
  | insert n x y =>
    by_cases isIn : n ∈ session.points.map Prod.fst
    · exact iff_of_true ⟨session, by simp only [rpstStep, isIn, ↓reduceIte], sound⟩ (.inl isIn)
    have new : n ∉ tree := fun lt => isIn (holds.mem_keys.mpr lt)
    by_cases known : ∃ m, (m, x, y) ∈ session.points
    · obtain ⟨m, mem⟩ := known
      have held := holds.setPoint (x := x) (y := y) new
      have isKnown : session.points.any (fun p => decide (p.2 = (x, y))) = true :=
        any_eq_true.mpr ⟨(m, x, y), mem, by simp⟩
      have fits : x.toNat < 2 ^ (session.tree.t_height + 1) := by
        obtain ⟨lt, isX, _⟩ := (holds.mem_iff m x y).mp mem
        rw [isX]
        exact holds.holds.fits m lt
      refine iff_of_true ⟨_, by
        simp only [rpstStep, isIn, insert_known holds new mem]
        rfl, ⟨tree, ?_⟩, ?_⟩ (.inr (.inr fits))
      · simpa only [addPoint, isKnown, ↓reduceIte] using held
      rintro reply same
      obtain rfl := some.inj same
      refine ⟨fun oth alsoIn => ⟨?_, rfl⟩, fun no => (no m mem).elim⟩
      obtain ⟨fst, firstX, firstY⟩ := (holds.mem_iff m x y).mp mem
      obtain ⟨snd, secondX, secondY⟩ := (holds.mem_iff oth x y).mp alsoIn
      rw [holds.single m fst oth snd (firstX.symm.trans secondX) (firstY.symm.trans secondY)]
    have unknown : ∀ m, (m, x, y) ∉ session.points := fun m mem => known ⟨m, mem⟩
    have isUnknown : session.points.any (fun p => decide (p.2 = (x, y))) = false := by
      rw [List.any_eq_false]
      rintro ⟨m, px, py⟩ mem
      simp only [decide_eq_true_eq]
      rintro ⟨rfl, rfl⟩
      exact unknown m mem
    by_cases fine : session.points.length ≠ 1 ∨ x.toNat < 2 ^ (session.tree.t_height + 1)
    · obtain ⟨t', tree', insd, holds'⟩ := insert_unknown holds new unknown fine
      refine iff_of_true ⟨_, by
        simp only [rpstStep, isIn, insd]
        rfl, ⟨tree', ?_⟩, ?_⟩ (.inr fine)
      · simpa only [addPoint, isUnknown, Bool.false_eq_true, ↓reduceIte] using holds'
      · rintro reply same
        obtain rfl := some.inj same
        exact ⟨fun m mem => (unknown m mem).elim, fun _ => rfl⟩
    refine iff_of_false ?_ (fun either => either.elim isIn fine)
    rintro ⟨s', move, _⟩
    simp only [not_or, not_not, not_lt] at fine
    have held := holds.setPoint (x := x) (y := y) new
    have stuck : rpstInsertNode (session.points.length + 64)
        (session.tree.setPoint n x y) n = none := by
      apply rpstInsertNode_single held.holds
      · rw [held.size, fine.1]
      · rw [x_setPoint, update_self]
        exact fine.2
      · omega
    simp [rpstStep, isIn, stuck] at move

end Steps

/-- Every state reached is sound exactly when no call enlarges a tree of one node. -/
theorem rpst_points {α : Type} [DecidableEq α] (mem : α → RpstNode α) (calls : List (RpstCall α)) :
    (∀ front, front <+: calls →
      ∃ reached, consume rpstStep front (rpstStart mem) = some reached ∧ reached.Sound) ↔
    ∀ front call, front ++ [call] <+: calls → ∀ reached,
      consume rpstStep front (rpstStart mem) = some reached → reached.Fine call :=
  consume_invariant_iff rpstStep RpstSession.Sound RpstSession.Fine
    (fun _ call sound => rpstStep_sound sound call) calls (rpstStart_sound mem)

/-- The second insertion follows the null root of a tree of one node. -/
theorem rpst_enlarge_null : ¬ ∀ (mem : Nat → RpstNode Nat) (calls : List (RpstCall Nat)),
    ∀ front, front <+: calls →
      ∃ reached, consume rpstStep front (rpstStart mem) = some reached ∧ reached.Sound := by
  intro always
  obtain ⟨reached, eaten, _⟩ := always (fun _ => ⟨none, fun _ => none, 0, 0⟩)
    [.insert 0 0 0, .insert 1 2 0] _ (prefix_refl _)
  cases eaten

end NetBSD.Gen
