import NetBSD.Gen.RbRotate

/-!
Owns the rebalancing after an insertion. Two adjacent red nodes are the only
defect; the loop moves it two levels up while the uncle is red, and one or two
rotations remove it otherwise.
-/

namespace NetBSD.Gen

open NetBSD.Zipper ColorTree RbTree

universe u

variable {α : Type u}

/-! ### Two adjacent red nodes -/

section Insert

variable [DecidableEq α] {t : RbTree α} {outer : List (Frame α)} {which side : Dir}
  {self father grandpa : α} {near far brother uncle : ColorTree α} {height : Nat}

theorem which_eq {red : Bool} {child : ColorTree α}
    (rep : Represents t (plug outer (ColorTree.mk which red grandpa child uncle)))
    (top : child.label? = some father) :
    (if (t.mem grandpa).nodes .right = some father then Dir.right else Dir.left) = which := by
  have rcd := rep.record
  obtain ⟨-, -, -, -, -, -, sides, -⟩ := distinct_focus rep.distinct
  have apart : uncle.label? ≠ some father := fun same =>
    sides (mem_of_label? top) (mem_of_label? same)
  rw [rcd, top]
  cases which with
  | left =>
    rw [show Dir.right = Dir.left.other from rfl, cell_far, if_neg apart]
  | right => rw [cell_near, if_pos rfl]

/-- At most two rotations mend a red pair under a black uncle. -/
theorem insertRebalanceFinish_spec
    (rep : Represents t (plug outer (ColorTree.mk which false grandpa
      (ColorTree.mk side true father (ColorTree.mk which.other true self near far) brother)
      uncle)))
    (selfValid : (ColorTree.mk which.other true self near far).Valid height)
    (brotherValid : brother.Valid height) (brotherBlack : brother.isRed = false)
    (uncleValid : uncle.Valid height) (uncleBlack : uncle.isRed = false)
    (outerValid : CtxValid (height + 1) outer) :
    ∃ t', insertRebalanceFinish t self father grandpa which = some t' ∧
      Rebalanced t (plug outer (ColorTree.mk which false grandpa
        (ColorTree.mk side true father (ColorTree.mk which.other true self near far) brother)
        uncle)) t' := by
  obtain ⟨nearBlack, farBlack, nearValid, farValid⟩ := valid_red.mp selfValid
  have fatherFocus : Represents t (plug (⟨which, false, grandpa, uncle⟩ :: outer)
      (ColorTree.mk side true father (ColorTree.mk which.other true self near far) brother)) :=
    rep
  have fatherRecord := fatherFocus.record
  obtain ⟨-, -, -, -, -, -, sides, -⟩ := distinct_focus fatherFocus.distinct
  rcases Dir.eq_or_eq_other which side with rfl | rfl
  · -- Case 3: self stands opposite the uncle.
    obtain ⟨t₁, rotated, rep₁, minmax₁⟩ := rbTreeReparentNodes_spec rep
    have apart : brother.label? ≠ some self := fun same =>
      sides (by simp [mem_mk]) (mem_of_label? same)
    have bal : (plug outer (ColorTree.mk side false father
        (ColorTree.mk side.other true self near far)
        (ColorTree.mk side true grandpa brother uncle))).Balanced := by
      refine (balanced_plug_iff _ _).mpr ⟨height + 1, ?_, outerValid, by simp⟩
      simp [*]
    obtain ⟨root, atRoot, rep₂⟩ := rep₁.markBlackRoot bal.1
    refine ⟨t₁.markBlack root, ?_, _, rep₂, bal, ?_, minmax₁⟩
    · simp [insertRebalanceFinish, fatherRecord, apart, rotated, atRoot]
    · intro e
      rw [walk_rotate]
  -- Case 2: self stands on the uncle's side and first changes places with its father.
  obtain ⟨t₁, rotated₁, rep₁, minmax₁⟩ := rbTreeReparentNodes_spec fatherFocus
  rw [mk_other] at rep₁
  obtain ⟨t₂, rotated₂, rep₂, minmax₂⟩ := rbTreeReparentNodes_spec rep₁
  have bal : (plug outer (ColorTree.mk which false self
      (ColorTree.mk which.other true father far brother)
      (ColorTree.mk which true grandpa near uncle))).Balanced := by
    refine (balanced_plug_iff _ _).mpr ⟨height + 1, ?_, outerValid, by simp⟩
    simp [*]
  obtain ⟨root, atRoot, represents₃⟩ := rep₂.markBlackRoot bal.1
  refine ⟨t₂.markBlack root, ?_, _, represents₃, bal, ?_, minmax₂.trans minmax₁⟩
  · simp [insertRebalanceFinish, fatherRecord, rotated₁, rotated₂, atRoot]
  · intro e
    rw [walk_rotate, ← mk_other which true self, ← plug_cons, walk_rotate, plug_cons]

theorem Represents.paintUncle {uncleNear uncleFar s : ColorTree α} {uncle : α}
    (rep : Represents t (plug outer (ColorTree.mk which false grandpa
      (ColorTree.mk side true father s brother)
      (ColorTree.mk which true uncle uncleNear uncleFar)))) :
    Represents ((t.markBlack uncle).markBlack father) (plug outer (ColorTree.mk which false grandpa
      (ColorTree.mk side false father s brother)
      (ColorTree.mk which false uncle uncleNear uncleFar))) := by
  rw [← mk_other, ← plug_cons] at rep
  have painted := rep.paint false
  rw [plug_cons, mk_other, ← plug_cons] at painted
  exact painted.paint false

/-- Recolouring upwards ends with a tree that is valid and walks the same. -/
theorem insertRebalanceLoop_spec (fuel : Nat) {ctx : List (Frame α)} {d : Dir}
    (rep : Represents t (plug (⟨side, true, father, brother⟩ :: ctx)
      (ColorTree.mk d true self near far)))
    (selfValid : (ColorTree.mk d true self near far).Valid height)
    (ctxValid : CtxValid height (⟨side, true, father, brother⟩ :: ctx))
    (suff : ctx.length ≤ fuel) :
    ∃ t', insertRebalanceLoop fuel t self father = some t' ∧
      Rebalanced t (plug (⟨side, true, father, brother⟩ :: ctx)
        (ColorTree.mk d true self near far)) t' := by
  induction fuel generalizing t ctx side father brother d self near far height with
  | zero =>
    obtain ⟨-, -, topBlack, -⟩ := ctxValid_red.mp ctxValid
    obtain rfl : ctx = [] := List.eq_nil_of_length_eq_zero (Nat.le_zero.mp suff)
    simp at topBlack
  | succ fuel ih =>
    obtain ⟨brotherValid, brotherBlack, topBlack, upperValid⟩ := ctxValid_red.mp ctxValid
    -- The father is red, so there is a grandfather and he is black.
    obtain _ | ⟨⟨which, color, grandpa, uncle⟩, outer⟩ := ctx
    · simp at topBlack
    obtain rfl : color = false := topBlack
    obtain ⟨uncleValid, outerValid⟩ := ctxValid_black.mp upperValid
    have fatherPointer : (t.mem father).father.object = some grandpa := by
      have focused : Represents t (plug (⟨which, false, grandpa, uncle⟩ :: outer) (ColorTree.mk side
          true father (ColorTree.mk d true self near far) brother)) := rep
      rw [focused.record]
      rfl
    rw [plug_cons, plug_cons] at rep
    have uncleLink : (t.mem grandpa).nodes which.other = uncle.label? := by
      rw [rep.record, cell_far]
    have fnd := which_eq rep (label?_mk _ _ _ _ _)
    have uncleRed : t.redP uncle.label? = uncle.isRed :=
      (linked_mk.mp (represents_plug.mp rep).2.1).2.2.redP
    cases color : uncle.isRed with
    | false =>
      obtain ⟨near', far', same⟩ := mk_eq_mk d which.other true self near far
      rw [same] at rep selfValid
      obtain ⟨t', fin, rebalanced⟩ := insertRebalanceFinish_spec rep selfValid
        brotherValid brotherBlack uncleValid color outerValid
      refine ⟨t', ?_, ?_⟩
      · rw [← fin]
        cases uncle with
        | leaf => simp [insertRebalanceLoop, fatherPointer, uncleLink, fnd]
        | node _ u left right =>
          have black : (t.mem u).red = false := uncleRed.trans color
          simp [insertRebalanceLoop, fatherPointer, uncleLink, fnd, black]
      · rwa [plug_cons, plug_cons, same]
    | true =>
      obtain ⟨u, uncleNear, uncleFar, rfl⟩ := exists_mk_of_red color which
      have painted := rep.paintUncle
      have red : (t.mem u).red = true := by
        simpa [redP] using uncleRed
      have fatherValid : (ColorTree.mk side false father
          (ColorTree.mk d true self near far) brother).Valid (height + 1) :=
        valid_black_succ.mpr ⟨selfValid, brotherValid⟩
      have uncleValid' := uncleValid.blacken color
      rw [blacken_mk] at uncleValid'
      have walks : ∀ e color, (plug outer (ColorTree.mk which color grandpa
          (ColorTree.mk side false father (ColorTree.mk d true self near far) brother)
          (ColorTree.mk which false u uncleNear uncleFar))).walk e =
            (plug outer (ColorTree.mk which false grandpa
              (ColorTree.mk side true father (ColorTree.mk d true self near far) brother)
              (ColorTree.mk which true u uncleNear uncleFar))).walk e := fun e color =>
        walk_plug_congr (walk_mk_congr (walk_mk_congr rfl rfl _ _)
          (walk_mk_congr rfl rfl _ _) _ _) outer
      obtain _ | ⟨⟨dir, color, greatgrandpa, tl⟩, upper⟩ := outer
      · refine ⟨(t.markBlack u).markBlack father, ?_, _, painted, ?_, fun e => walks e false, rfl⟩
        · simp [insertRebalanceLoop, fatherPointer, uncleLink, fnd, red, painted.rootP]
        · refine (balanced_plug_iff _ _).mpr ⟨height + 2, ?_, trivial, by simp⟩
          exact valid_black_succ.mpr ⟨fatherValid, uncleValid'⟩
      -- The grandfather becomes red, and the defect moves up to him.
      have moved : Represents (((t.markBlack u).markBlack father).markRed grandpa) _ :=
        painted.paint true
      have grandpaValid : (ColorTree.mk which true grandpa
          (ColorTree.mk side false father (ColorTree.mk d true self near far) brother)
          (ColorTree.mk which false u uncleNear uncleFar)).Valid (height + 1) :=
        valid_red.mpr ⟨by simp, by simp, fatherValid, uncleValid'⟩
      have nextFather : ((((t.markBlack u).markBlack father).markRed grandpa).mem
          grandpa).father.object = some greatgrandpa := by
        rw [moved.record]
        rfl
      have nextRed : ((((t.markBlack u).markBlack father).markRed grandpa).mem
          greatgrandpa).red = color := by
        rw [(show Represents _ (plug upper _) from moved).record]
        rfl
      cases color with
      | false =>
        refine ⟨((t.markBlack u).markBlack father).markRed grandpa, ?_, _, moved, ?_,
          fun e => walks e true, rfl⟩
        · simp [insertRebalanceLoop, fatherPointer, uncleLink, fnd, red, painted.rootP,
            nextFather, nextRed]
        · exact (balanced_plug_iff _ _).mpr ⟨height + 1, grandpaValid, outerValid, by simp⟩
      | true =>
        simp only [List.length_cons] at suff
        obtain ⟨t', loop, tree', rep', bal, walks', minmax'⟩ :=
          ih moved grandpaValid outerValid (by omega)
        refine ⟨t', ?_, tree', rep', bal,
          fun e => (walks' e).trans (walks e true), minmax'⟩
        simp [insertRebalanceLoop, fatherPointer, uncleLink, fnd, red, painted.rootP,
          nextFather, nextRed, loop]

end Insert

/-!
### Insertion

Insertion into an ordered tree. The search stops at an object that compares
equal, or at the one leaf where the new object keeps the order; linking it there
and rebalancing keeps every part of the invariant, the cached least and greatest
objects included.
-/

/-- What a compare function returns when it follows a strict total order of the
objects' keys. -/
structure CompareLaws (compareNodes : α → α → Int) : Prop where
  swap : ∀ a b, compareNodes a b < 0 ↔ 0 < compareNodes b a
  trans : ∀ a b c, compareNodes a b < 0 → compareNodes b c < 0 → compareNodes a c < 0
  congr : ∀ a b c, compareNodes a b = 0 → (compareNodes a c < 0 ↔ compareNodes b c < 0)

/-- The memory holds the given tree, which is ordered and balanced, and the two
cached pointers lead to its ends. -/
structure WellFormed (compareNodes : α → α → Int) (t : RbTree α) (tree : ColorTree α) :
    Prop where
  represents : Represents t tree
  ordered : (tree.walk .left).Pairwise fun a b => compareNodes a b < 0
  balanced : tree.Balanced
  minmax : ∀ d a, (tree.walk d).head? = some a → t.minmax d = .node a

section Search

variable {cmp : α → α → Int} {t : RbTree α} {object : α}

theorem CompareLaws.self (laws : CompareLaws cmp) (a : α) : cmp a a = 0 := by
  have := laws.swap a a
  omega

/-- The object lies between the labels passed before and after the hole. -/
structure Between (compareNodes : α → α → Int) (object : α) (ctx : List (Frame α)) : Prop where
  above : ∀ b ∈ before .left ctx, compareNodes b object < 0
  below : ∀ b ∈ after .left ctx, 0 < compareNodes b object

theorem between_nil : Between cmp object ([] : List (Frame α)) := ⟨nofun, nofun⟩

theorem Between.goRight (laws : CompareLaws cmp) {ctx : List (Frame α)} {red : Bool}
    {top : α} {left right : ColorTree α} (mid : Between cmp object ctx)
    (ord : ((plug ctx (.node red top left right)).walk .left).Pairwise
      fun a b => cmp a b < 0)
    (lt : cmp top object < 0) :
    Between cmp object (⟨.right, red, top, left⟩ :: ctx) := by
  rw [walk_plug] at ord
  simp only [walk, List.pairwise_append, List.mem_cons] at ord
  refine ⟨fun b mem => ?_, fun b mem => mid.below b (by simpa [after] using mem)⟩
  simp only [before, reduceCtorEq, if_false, List.mem_append, List.mem_singleton] at mem
  rcases mem with (inBefore | inL) | isTop
  · exact mid.above b inBefore
  · exact laws.trans b top object (ord.1.2.1.2.2 b inL top (.inl rfl)) lt
  · exact isTop ▸ lt

theorem Between.goLeft (laws : CompareLaws cmp) {ctx : List (Frame α)} {red : Bool}
    {top : α} {left right : ColorTree α} (mid : Between cmp object ctx)
    (ord : ((plug ctx (.node red top left right)).walk .left).Pairwise
      fun a b => cmp a b < 0)
    (greater : 0 < cmp top object) :
    Between cmp object (⟨.left, red, top, right⟩ :: ctx) := by
  rw [walk_plug] at ord
  simp only [walk, List.pairwise_append, List.pairwise_cons] at ord
  refine ⟨fun b mem => mid.above b (by simpa [before] using mem), fun b mem => ?_⟩
  simp only [after, if_true, List.mem_cons, List.mem_append] at mem
  rcases mem with isTop | inR | inAfter
  · exact isTop ▸ greater
  · refine (laws.swap object b).mp (laws.trans object top b ?_ (ord.1.2.1.2.1.1 b inR))
    exact (laws.swap object top).mpr greater
  · exact mid.below b inAfter

/-- The descent finds the equal node or the leaf where the object belongs. -/
theorem insertSearch_spec (laws : CompareLaws cmp) (fuel : Nat) {s : ColorTree α}
    {ctx : List (Frame α)} (rep : Represents t (plug ctx s))
    (ord : ((plug ctx s).walk .left).Pairwise fun a b => cmp a b < 0)
    (mid : Between cmp object ctx) (suff : (s.walk .left).length < fuel) :
    (∃ y ∈ s.walk .left, cmp y object = 0 ∧
      insertSearch cmp t object fuel s.label? (fatherOf ctx) (positionOf ctx) =
        some (.inl y)) ∨
    (∃ ctx', plug ctx' .leaf = plug ctx s ∧ Between cmp object ctx' ∧
      insertSearch cmp t object fuel s.label? (fatherOf ctx) (positionOf ctx) =
        some (.inr (fatherOf ctx', positionOf ctx'))) := by
  induction s generalizing ctx fuel with
  | leaf =>
    obtain ⟨fuel, rfl⟩ := Nat.exists_eq_succ_of_ne_zero (Nat.ne_of_gt suff)
    exact .inr ⟨ctx, rfl, mid, rfl⟩
  | node red top left right leftHypothesis rightHypothesis =>
    obtain ⟨fuel, rfl⟩ := Nat.exists_eq_succ_of_ne_zero (Nat.ne_of_gt (Nat.zero_lt_of_lt suff))
    simp only [walk, List.length_append, List.length_cons] at suff
    have rcd : t.mem top = cell .left left.label? right.label? (fatherOf ctx) red
        (positionOf ctx) := rep.record (d := .left)
    rcases Int.lt_trichotomy (cmp top object) 0 with lt | equal | greater
    · have link : (t.mem top).nodes .right = right.label? := by
        rw [rcd]
        rfl
      have step : insertSearch cmp t object (fuel + 1)
          (node red top left right).label? (fatherOf ctx) (positionOf ctx) =
            insertSearch cmp t object fuel right.label? (.node top) .right := by
        simp [insertSearch, link, lt, Int.ne_of_lt lt]
      rcases rightHypothesis fuel (show Represents t (plug (⟨.right, red, top, left⟩ :: ctx) right) from
          rep) ord
          (mid.goRight laws ord lt) (by omega) with
        ⟨y, member, equal, found⟩ | ⟨ctx', same, between', found⟩
      · exact .inl ⟨y, by simp [walk, member], equal, step.trans found⟩
      · exact .inr ⟨ctx', same, between', step.trans found⟩
    · exact .inl ⟨top, by simp [walk], equal, by simp [insertSearch, equal]⟩
    · have link : (t.mem top).nodes .left = left.label? := by
        rw [rcd]
        rfl
      have step : insertSearch cmp t object (fuel + 1)
          (node red top left right).label? (fatherOf ctx) (positionOf ctx) =
            insertSearch cmp t object fuel left.label? (.node top) .left := by
        simp [insertSearch, link, Int.not_lt.mpr (Int.le_of_lt greater), Int.ne_of_gt greater]
      rcases leftHypothesis fuel (show Represents t (plug (⟨.left, red, top, right⟩ :: ctx) left) from
          rep) ord
          (mid.goLeft laws ord greater) (by omega) with
        ⟨y, member, equal, found⟩ | ⟨ctx', same, between', found⟩
      · exact .inl ⟨y, by simp [walk, member], equal, step.trans found⟩
      · exact .inr ⟨ctx', same, between', step.trans found⟩

end Search

/-! ### The new leaf -/

section Leaf

variable [DecidableEq α] {t t₁ : RbTree α} {ctx : List (Frame α)} {self : α} {red : Bool}

omit [DecidableEq α] in
theorem CtxLinked.child {hole : Option α} (link : CtxLinked t ctx hole) :
    t.child (fatherOf ctx) (positionOf ctx) = some hole := by
  cases ctx with
  | nil => exact congrArg some link
  | cons fr ctx => simp [child, fatherOf, positionOf, link.1]

theorem linkLeaf_spec (t₁ : RbTree α) (red : Bool) (rep : Represents t (plug ctx .leaf))
    (fresh : self ∉ labels ctx)
    (sameRoot : t₁.root = t.root) (apart : ∀ b, b ≠ self → t₁.mem b = t.mem b)
    (father : (t₁.mem self).father = fatherOf ctx)
    (pos : (t₁.mem self).position = positionOf ctx) (color : (t₁.mem self).red = red) :
    ∃ t', linkLeaf t₁ (fatherOf ctx) (positionOf ctx) self = some t' ∧
      Represents t' (plug ctx (.node red self .leaf .leaf)) ∧ t'.minmax = t₁.minmax := by
  obtain ⟨outer, -, dist⟩ := represents_plug.mp rep
  obtain ⟨-, ctxDistinct, -⟩ := distinct_plug.mp dist
  have outer₁ : CtxLinked t₁ ctx none :=
    outer.congr sameRoot fun b mem => apart b fun same => fresh (same ▸ mem)
  have outer₂ : CtxLinked ((t₁.setNode self .left none).setNode self .right none) ctx none := by
    refine outer₁.congr (t := t₁) rfl fun b mem => ?_
    have diff : b ≠ self := fun same => fresh (same ▸ mem)
    rw [setNode, modify_mem_ne diff, setNode, modify_mem_ne diff]
  obtain ⟨t', wrote, outer', elsewhere', minmax'⟩ :=
    setChild_hole outer₂ ctxDistinct (some self)
  refine ⟨t', ?_, represents_plug.mpr ⟨outer', ⟨?_, trivial, trivial⟩, ?_⟩, minmax'⟩
  · simp [linkLeaf, outer₁.child, wrote]
  · rw [elsewhere' self fresh]
    simp only [setNode, modify_mem_same, father, pos, color, cell, RbNode.mk.injEq,
      and_true]
    funext e
    cases e <;> rfl
  · refine distinct_plug.mpr ⟨by simp [Distinct, walk], ctxDistinct, ?_⟩
    intro b isSelf mem
    obtain rfl : b = self := by simpa [walk] using isSelf
    exact fresh mem

end Leaf

section Insert

variable {cmp : α → α → Int} {ctx : List (Frame α)} {self : α}

theorem Between.fresh (mid : Between cmp self ctx) {b : α}
    (mem : b ∈ (plug ctx .leaf).walk .left) : cmp b self ≠ 0 := by
  rw [walk_plug] at mem
  simp only [walk_leaf, List.append_nil, List.mem_append] at mem
  rcases mem with inBefore | inAfter
  · exact Int.ne_of_lt (mid.above b inBefore)
  · exact Int.ne_of_gt (mid.below b inAfter)

theorem Between.ordered (laws : CompareLaws cmp) (mid : Between cmp self ctx)
    (ord : ((plug ctx .leaf).walk .left).Pairwise fun a b => cmp a b < 0)
    (red : Bool) :
    ((plug ctx (.node red self .leaf .leaf)).walk .left).Pairwise
      fun a b => cmp a b < 0 := by
  rw [walk_plug] at ord ⊢
  simp only [walk, List.append_nil, List.nil_append, List.pairwise_append,
    List.pairwise_cons, List.mem_append, List.mem_cons, List.not_mem_nil, or_false] at ord ⊢
  obtain ⟨beforeOrdered, afterOrdered, across⟩ := ord
  refine ⟨⟨beforeOrdered, ⟨by simp, List.Pairwise.nil⟩, ?_⟩, afterOrdered, ?_⟩
  · rintro a mem b rfl
    exact mid.above a mem
  · rintro a (mem | rfl) b inAfter
    · exact across a mem b inAfter
    · exact (laws.swap a b).mpr (mid.below b inAfter)

/-- The cached ends when the subtree on one side of a node is exchanged: on that side the
first object of the new subtree takes the place of the first of the old, and where a subtree is
empty the father stands for it. -/
theorem minmax_hole [DecidableEq α] {t : RbTree α} {which : Dir} {red : Bool}
    {father first₁ first₂ : α} {brother : ColorTree α} (s₁ s₂ : ColorTree α)
    (head₁ : (s₁.walk which ++ [father]).head? = some first₁)
    (head₂ : (s₂.walk which ++ [father]).head? = some first₂)
    (dist : (plug (⟨which, red, father, brother⟩ :: ctx) s₁).Distinct)
    (minmax : ∀ e b, ((plug (⟨which, red, father, brother⟩ :: ctx) s₁).walk e).head? = some b →
      t.minmax e = .node b) {e : Dir} {b : α}
    (fst : ((plug (⟨which, red, father, brother⟩ :: ctx) s₂).walk e).head? = some b) :
    (if t.minmax which = .node first₁ then t.setMinmax which (.node first₂) else t).minmax e =
      .node b := by
  have walks : ∀ e (s : ColorTree α), (plug (⟨which, red, father, brother⟩ :: ctx) s).walk e =
      before e (⟨which, red, father, brother⟩ :: ctx) ++ s.walk e ++
        after e (⟨which, red, father, brother⟩ :: ctx) := fun e s => walk_plug e _ s
  have side : ∀ s : ColorTree α, (plug (⟨which, red, father, brother⟩ :: ctx) s).walk which =
      before which (⟨which, red, father, brother⟩ :: ctx) ++
        ((s.walk which ++ [father]) ++ (brother.walk which ++ after which ctx)) := fun s => by
    rw [walks]
    simp [after]
  rcases Dir.eq_or_eq_other which e with rfl | rfl
  · rw [side] at fst
    cases out : before e (⟨e, red, father, brother⟩ :: ctx) with
    | nil =>
      obtain rfl : first₂ = b := by
        rw [out, List.nil_append, List.head?_append, head₂] at fst
        exact Option.some.inj fst
      have atFirst : t.minmax e = .node first₁ := by
        refine minmax e first₁ ?_
        rw [side, out, List.nil_append, List.head?_append, head₁]
        rfl
      simp [atFirst, setMinmax]
    | cons head tl =>
      obtain rfl : head = b := by simpa [out] using fst
      have atHead : t.minmax e = .node head := by
        refine minmax e head ?_
        rw [side, out]
        rfl
      have diff : head ≠ first₁ := by
        rintro rfl
        have mem := dist.walk e
        rw [side, out, List.cons_append, List.nodup_cons] at mem
        refine mem.1 (List.mem_append_right _ (List.mem_append_left _ ?_))
        exact List.mem_of_mem_head? head₁
      simp [atHead, diff]
  · have same : (if t.minmax which = .node first₁ then t.setMinmax which (.node first₂) else
        t).minmax which.other = t.minmax which.other := by
      split <;> simp [setMinmax]
    rw [same]
    refine minmax which.other b ?_
    rw [walks] at fst ⊢
    simp only [before] at fst ⊢
    simpa [List.head?_append] using fst

/-- The new node below a father, before it is linked. -/
def prepareLeaf [DecidableEq α] (t : RbTree α) (father : α) (d : Dir) (self : α) : RbTree α :=
  let t := (t.setFather self (.node father)).setPosition self d
  let t := if t.minmax d = .node father then t.setMinmax d (.node self) else t
  t.markRed self

section Prepare

variable [DecidableEq α] (t : RbTree α) (father : α) (d : Dir) (self : α)

theorem prepareLeaf_root : (prepareLeaf t father d self).root = t.root := by
  simp only [prepareLeaf, markRed]
  split <;> rfl

theorem prepareLeaf_minmax : (prepareLeaf t father d self).minmax =
    (if t.minmax d = .node father then t.setMinmax d (.node self) else t).minmax := by
  by_cases atEnd : t.minmax d = .node father <;>
    simp [prepareLeaf, markRed, setFather, setPosition, setMinmax, atEnd]

theorem prepareLeaf_mem : (prepareLeaf t father d self).mem =
    (((t.setFather self (.node father)).setPosition self d).markRed self).mem := by
  simp only [prepareLeaf]
  split <;> rfl

theorem prepareLeaf_mem_ne {b : α} (diff : b ≠ self) :
    (prepareLeaf t father d self).mem b = t.mem b := by
  rw [prepareLeaf_mem, markRed, modify_mem_ne diff, setPosition,
    modify_mem_ne diff, setFather, modify_mem_ne diff]

theorem prepareLeaf_mem_self : (prepareLeaf t father d self).mem self =
    ⟨(t.mem self).nodes, .node father, true, d⟩ := by
  rw [prepareLeaf_mem]
  simp [setFather, setPosition, markRed]

end Prepare

/-- An insertion at the leaf found links one node and stays well formed. -/
theorem insert_at [DecidableEq α] (laws : CompareLaws cmp) {t : RbTree α} {fuel : Nat}
    (wf : WellFormed cmp t (plug ctx .leaf))
    (mid : Between cmp self ctx)
    (suff : ((plug ctx .leaf).walk .left).length < fuel)
    (fnd : insertSearch cmp t self fuel t.root .anchor .left =
      some (.inr (fatherOf ctx, positionOf ctx))) :
    ∃ t' tree', rbTreeInsertNode cmp fuel t self = some (t', self) ∧
      WellFormed cmp t' tree' ∧
      ∀ d, tree'.walk d = (plug ctx (.node true self .leaf .leaf)).walk d := by
  have fresh : self ∉ labels ctx := fun mem =>
    mid.fresh (mem_plug.mpr (.inr mem)) (laws.self self)
  have ord := mid.ordered laws wf.ordered
  obtain ⟨height, leafValid, ctxValid, -⟩ := (balanced_plug_iff _ _).mp wf.balanced
  obtain rfl : height = 0 := leafValid
  obtain _ | ⟨⟨d, red, father, brother⟩, outer⟩ := ctx
  · -- The tree is empty: the new node becomes a black root.
    obtain ⟨t', link, rep', minmax'⟩ := linkLeaf_spec
      (((((t.setFather self .anchor).setPosition self .left).markBlack self).setMinmax .left
        (.node self)).setMinmax .right (.node self)) false
      wf.represents fresh rfl
      (fun b diff => by
        simp [setFather, setPosition, markBlack, setMinmax,
          modify_mem_ne diff])
      (by simp [setFather, setPosition, markBlack, setMinmax, fatherOf])
      (by simp [setFather, setPosition, markBlack, setMinmax,
        positionOf])
      (by simp [markBlack, setMinmax])
    refine ⟨t', .node false self .leaf .leaf, ?_, ⟨rep', ord false, ?_, ?_⟩, ?_⟩
    · simp only [fatherOf, positionOf] at fnd link
      simp [rbTreeInsertNode, fnd, link]
    · exact ⟨rfl, 1, 0, rfl, rfl, rfl⟩
    · intro d a fst
      rw [minmax']
      cases d <;> (obtain rfl : self = a := by simpa [walk] using fst) <;> rfl
    · intro d
      cases d <;> rfl
  obtain ⟨t₂, link, rep₂, minmax₂⟩ := linkLeaf_spec
    (prepareLeaf t father d self) true wf.represents fresh
    (prepareLeaf_root t father d self)
    (fun b diff => prepareLeaf_mem_ne t father d self diff)
    (by rw [prepareLeaf_mem_self]; rfl) (by rw [prepareLeaf_mem_self]; rfl)
    (by rw [prepareLeaf_mem_self])
  have diff : father ≠ self := fun same => fresh (by simp [labels, same])
  have fatherRed : ((prepareLeaf t father d self).mem father).red = red := by
    rw [prepareLeaf_mem_ne t father d self diff,
      (show Represents t (plug outer _) from wf.represents).record]
    rfl
  have ends : ∀ e b, ((plug (⟨d, red, father, brother⟩ :: outer)
      (.node true self .leaf .leaf)).walk e).head? = some b → t₂.minmax e = .node b := by
    intro e b fst
    rw [minmax₂, prepareLeaf_minmax]
    exact minmax_hole .leaf _ rfl (by cases d <;> rfl) wf.represents.distinct
      wf.minmax fst
  have entered : rbTreeInsertNode cmp fuel t self =
      if red then (rbTreeInsertRebalance fuel t₂ self).bind fun t' => some (t', self)
      else some (t₂, self) := by
    simp only [fatherOf, positionOf] at fnd link
    have unfolded : rbTreeInsertNode cmp fuel t self =
        (linkLeaf (prepareLeaf t father d self) (.node father) d self).bind fun t₂ =>
          if ((prepareLeaf t father d self).mem father).red then
            (rbTreeInsertRebalance fuel t₂ self).bind fun t' => some (t', self)
          else some (t₂, self) := by
      simp only [rbTreeInsertNode, fnd]
      rfl
    rw [unfolded, link, Option.bind_some, fatherRed]
  cases red with
  | false =>
    refine ⟨t₂, _, entered, ⟨rep₂, ord true, ?_, ends⟩, fun _ => rfl⟩
    exact (balanced_plug_iff _ _).mpr ⟨0, by simp [Valid], ctxValid, by simp⟩
  | true =>
    have bound := length_le_walk (⟨d, true, father, brother⟩ :: outer) (.leaf : ColorTree α)
    rw [List.length_cons] at bound
    obtain ⟨t', loop, tree', rep', bal, walks', minmax'⟩ :=
      insertRebalanceLoop_spec fuel (d := .left) rep₂
        (valid_red.mpr (by simp)) ctxValid (by omega)
    have selfFather : (t₂.mem self).father.object = some father := by
      rw [rep₂.record (d := .left)]
      rfl
    refine ⟨t', tree', ?_, ⟨rep', ?_, bal, ?_⟩, walks'⟩
    · rw [entered]
      simp [rbTreeInsertRebalance, selfFather, loop]
    · rw [walks']
      exact ord true
    · intro e b fst
      rw [minmax']
      exact ends e b (by rwa [walks' e] at fst)

/-- `rb_tree_insert_node` on a well-formed tree: an object that compares equal is returned and
nothing changes, or the object is added and returned. -/
theorem rbTreeInsertNode_spec [DecidableEq α] (laws : CompareLaws cmp) (self : α)
    {t : RbTree α}
    {tree : ColorTree α} {fuel : Nat} (wf : WellFormed cmp t tree)
    (suff : (tree.walk .left).length < fuel) :
    (∃ y ∈ tree.walk .left, cmp y self = 0 ∧
      rbTreeInsertNode cmp fuel t self = some (t, y)) ∨
    ((∀ y ∈ tree.walk .left, cmp y self ≠ 0) ∧
      ∃ t' tree', rbTreeInsertNode cmp fuel t self = some (t', self) ∧
        WellFormed cmp t' tree' ∧
        ∀ b, b ∈ tree'.walk .left ↔ b = self ∨ b ∈ tree.walk .left) := by
  rcases insertSearch_spec laws fuel (show Represents t (plug [] tree) from wf.represents)
      wf.ordered between_nil suff with ⟨y, mem, equal, fnd⟩ | ⟨ctx, same, mid, fnd⟩
  · refine .inl ⟨y, mem, equal, ?_⟩
    rw [← wf.represents.root] at fnd
    simp only [fatherOf, positionOf] at fnd
    simp [rbTreeInsertNode, fnd]
  obtain rfl : plug ctx .leaf = tree := same
  refine .inr ⟨fun y mem => mid.fresh mem, ?_⟩
  rw [← wf.represents.root] at fnd
  obtain ⟨t', tree', insd, wellFormed', walks⟩ :=
    insert_at laws wf mid suff fnd
  refine ⟨t', tree', insd, wellFormed', fun b => ?_⟩
  rw [walks, mem_plug, mem_plug]
  simp [walk]

end Insert

end NetBSD.Gen
