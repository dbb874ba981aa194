import NetBSD.Gen.RbInsert

/-!
Owns the rebalancing after a removal. One position holds a black tree that is one
black node too low; the loop moves it up while everything around is black, and
repainting or at most three rotations mend it otherwise.
-/

namespace NetBSD.Gen

open NetBSD.Zipper List Option ColorTree RbTree

universe u

section Rebalance

variable {α : Type u} {t : RbTree α} {outer : List (Frame α)} {which : Dir}
  {parent brother : α} {red : Bool} {s near far : ColorTree α} {height : Nat}

section

variable (represents : Represents t (plug outer (ColorTree.mk which red parent near far)))

include represents

theorem Represents.redP_near : t.redP ((t.mem parent).nodes which) = near.isRed := by
  rw [represents.record, cell_near]
  exact (linked_mk.mp (represents_plug.mp represents).2.1).2.1.redP

theorem Represents.redP_far : t.redP ((t.mem parent).nodes which.other) = far.isRed := by
  rw [represents.record, cell_far]
  exact (linked_mk.mp (represents_plug.mp represents).2.1).2.2.redP

theorem Represents.sons_black :
    (!t.redP ((t.mem parent).nodes .left) && !t.redP ((t.mem parent).nodes .right)) =
      (!near.isRed && !far.isRed) := by
  have nearRed := represents.redP_near
  have farRed := represents.redP_far
  cases which with
  | left =>
    rw [nearRed, ← farRed]
    rfl
  | right =>
    rw [nearRed, ← farRed, Bool.and_comm]
    rfl

end

variable [DecidableEq α]

section

variable
  (represents : Represents t (plug outer (ColorTree.mk which red parent s
    (ColorTree.mk which false brother near far))))
  (sValid : s.Valid height) (nearValid : near.Valid height) (farValid : far.Valid height)

include represents sValid nearValid farValid

/-- A red far nephew mends the missing black with one rotation. -/
theorem farNephew_spec (farRed : far.isRed = true)
    (ctxValid : CtxValid (height + 1) (⟨which, red, parent,
      mk which false brother near far⟩ :: outer)) :
    ∃ t', ((t.mem brother).nodes which.other).bind
        (fun nephew => rbTreeReparentNodes (t.markBlack nephew) parent which.other) = some t' ∧
      Rebalanced t (plug outer (mk which red parent s
        (mk which false brother near far))) t' := by
  obtain ⟨nephew, lt, out, rfl⟩ := exists_mk_of_red farRed which
  have brotherFocus : Represents t (plug (⟨which.other, red, parent, s⟩ :: outer)
      (mk which false brother near (mk which true nephew lt out))) := by
    rw [plug_cons, mk_other]
    exact represents
  have link : (t.mem brother).nodes which.other = some nephew := by
    rw [brotherFocus.record, cell_far, label?_mk]
  have painted : Represents (t.markBlack nephew) (plug outer (mk which.other red parent
      (mk which.other false brother
        (mk which false nephew lt out) near) s)) := by
    rw [← mk_other] at brotherFocus
    have nephewFocus : Represents t (plug
        (⟨which.other, false, brother, near⟩ :: ⟨which.other, red, parent, s⟩ :: outer)
        (mk which true nephew lt out)) := brotherFocus
    exact nephewFocus.paint false
  obtain ⟨t', rotated, rep', minmax'⟩ := rbTreeReparentNodes_spec painted
  refine ⟨t', by rw [link, bind_some, rotated], _, rep', ?_, ?_, minmax'⟩
  · have outsideValid := farValid.blacken farRed
    rw [blacken_mk] at outsideValid
    cases red with
    | true =>
      obtain ⟨-, -, topBlack, outerValid⟩ := ctxValid_red.mp ctxValid
      refine (balanced_plug_iff _ _).mpr ⟨height + 1, ?_, outerValid, by simp [topBlack]⟩
      exact valid_red.mpr ⟨by simp, by simp, outsideValid,
        valid_black_succ.mpr ⟨nearValid, sValid⟩⟩
    | false =>
      obtain ⟨-, outerValid⟩ := ctxValid_black.mp ctxValid
      refine (balanced_plug_iff _ _).mpr ⟨height + 2, ?_, outerValid, by simp⟩
      exact valid_black_succ.mpr ⟨outsideValid,
        valid_black_succ.mpr ⟨nearValid, sValid⟩⟩
  · intro e
    rw [walk_rotate, mk_other, mk_other]
    exact walk_plug_congr (walk_mk_congr rfl
      (walk_mk_congr rfl (walk_mk_congr rfl rfl _ _) _ _) _ _) outer

/-- A red father or nephew ends the rebalancing. -/
theorem removalRebalanceFinish_spec (mendable : red = true ∨ near.isRed = true ∨ far.isRed = true)
    (ctxValid : CtxValid (height + 1) (⟨which, red, parent,
      mk which false brother near far⟩ :: outer)) :
    ∃ t', removalRebalanceFinish t parent brother which = some t' ∧
      Rebalanced t (plug outer (mk which red parent s
        (mk which false brother near far))) t' := by
  have brotherFocus : Represents t (plug (⟨which.other, red, parent, s⟩ :: outer)
      (mk which false brother near far)) := by
    rw [plug_cons, mk_other]
    exact represents
  have parentRed : (t.mem parent).red = red := by rw [represents.record, cell_red]
  have brotherBlack : (t.mem brother).red = false := by rw [brotherFocus.record, cell_red]
  have sonsBlack := brotherFocus.sons_black
  have farColor := brotherFocus.redP_far
  by_cases recolor : red = true ∧ near.isRed = false ∧ far.isRed = false
  · -- Case 2b: exchange the colours of parent and brother.
    obtain ⟨rfl, nearBlack, farBlack⟩ := recolor
    have painted : Represents ((t.markBlack parent).markRed brother)
        (plug (⟨which.other, false, parent, s⟩ :: outer)
          (mk which true brother near far)) := by
      have parentPainted := represents.paint false
      rw [← mk_other, ← plug_cons] at parentPainted
      exact parentPainted.paint true
    refine ⟨_, ?_, _, painted, ?_, ?_, rfl⟩
    · rw [removalRebalanceFinish]
      rw [Bool.and_assoc, sonsBlack, parentRed, brotherBlack, nearBlack, farBlack]
      rfl
    · obtain ⟨-, -, topBlack, outerValid⟩ := ctxValid_red.mp ctxValid
      rw [plug_cons]
      refine (balanced_plug_iff _ _).mpr ⟨height + 1, ?_, outerValid, by simp⟩
      exact valid_black_succ.mpr
        ⟨valid_red.mpr ⟨nearBlack, farBlack, nearValid, farValid⟩, sValid⟩
    · intro e
      rw [plug_cons, mk_other]
      exact walk_plug_congr (walk_mk_congr rfl
        (walk_mk_congr rfl rfl _ _) _ _) outer
  have skip : ¬ ((t.mem parent).red && !(t.mem brother).red
      && !t.redP ((t.mem brother).nodes .left)
      && !t.redP ((t.mem brother).nodes .right)) = true := by
    rw [Bool.and_assoc, sonsBlack, parentRed, brotherBlack]
    simpa using recolor
  cases farRed : far.isRed with
  | true =>
    obtain ⟨t', mended, rebalanced⟩ :=
      farNephew_spec represents sValid nearValid farValid farRed ctxValid
    refine ⟨t', ?_, rebalanced⟩
    rw [removalRebalanceFinish, if_neg skip]
    rw [farRed] at farColor
    simpa [farColor] using mended
  | false =>
    -- Case 3: the near nephew is red; one rotation makes it case 4.
    have nearRed : near.isRed = true := by
      grind
    obtain ⟨nephew, lt, out, rfl⟩ := exists_mk_of_red nearRed which
    obtain ⟨insideBlack, outsideBlack, insideValid, outsideValid⟩ :=
      valid_red.mp nearValid
    obtain ⟨t₁, rotated, rep₁, minmax₁⟩ := rbTreeReparentNodes_spec brotherFocus
    rw [plug_cons, mk_other] at rep₁
    have nephewValid : (mk which true brother out far).Valid height :=
      valid_red.mpr ⟨outsideBlack, farRed, outsideValid, farValid⟩
    have ctxValid₁ : CtxValid (height + 1) (⟨which, red, parent, mk which false nephew
        lt (mk which true brother out far)⟩ :: outer) := by
      refine ⟨valid_black_succ.mpr ⟨insideValid, nephewValid⟩, ?_⟩
      have upper := ctxValid.2
      rw [isRed_mk] at upper ⊢
      exact upper
    obtain ⟨t', mended, tree', rep', bal, walks, minmax'⟩ :=
      farNephew_spec rep₁ sValid insideValid nephewValid (by simp) ctxValid₁
    refine ⟨t', ?_, tree', rep', bal, fun e => ?_, minmax'.trans minmax₁⟩
    · have newBrother : (t₁.mem parent).nodes which.other = some nephew := by
        rw [rep₁.record, cell_far, label?_mk]
      rw [removalRebalanceFinish, if_neg skip]
      rw [farRed] at farColor
      simpa [farColor, rotated, newBrother] using mended
    · rw [walks]
      refine walk_plug_congr (walk_mk_congr rfl ?_ _ _) outer
      exact walk_rotate [] which e false true brother nephew lt out far

end

section Round

variable {ctx : List (Frame α)} {color : Bool}

/-- One round of the loop, with the brother and its sons in view. -/
theorem rbTreeRemovalRebalance_succ (fuel : Nat) (black : s.isRed = false)
    (represents : Represents t (plug ctx
      (mk which red parent s (mk which color brother near far)))) :
    rbTreeRemovalRebalance (fuel + 1) t (.node parent) which =
      if !red && (!near.isRed && !far.isRed) then
        if color then (rbTreeReparentNodes t parent which.other).bind fun t₁ =>
          ((t₁.mem parent).nodes which.other).bind fun next =>
            removalRebalanceFinish t₁ parent next which
        else if (t.markRed brother).rootP parent then some (t.markRed brother)
        else rbTreeRemovalRebalance fuel (t.markRed brother)
          ((t.markRed brother).mem parent).father ((t.markRed brother).mem parent).position
      else removalRebalanceFinish t parent brother which := by
  have brotherFocus : Represents t (plug (⟨which.other, red, parent, s⟩ :: ctx)
      (mk which color brother near far)) := by
    rw [plug_cons, mk_other]
    exact represents
  have parentRed : (t.mem parent).red = red := by rw [represents.record, cell_red]
  have brotherRed : (t.mem brother).red = color := by rw [brotherFocus.record, cell_red]
  have brotherLink : (t.mem parent).nodes which.other = some brother := by
    rw [represents.record, cell_far, label?_mk]
  have sBlack := represents.redP_near
  rw [black] at sBlack
  rw [rbTreeRemovalRebalance]
  simp only [Ref.object_node, bind_eq_bind, bind_some, sBlack, brotherLink,
    Bool.and_assoc, brotherFocus.sons_black, parentRed, brotherRed, Bool.false_eq_true,
    if_false]

/-- Case 1: the brother is red; one rotation gives a red parent. -/
theorem redBrother_rebalanced
    (represents : Represents t (plug ctx
      (mk which false parent s (mk which true brother near far))))
    (sValid : s.Valid height) (siblingValid : (mk which true brother near far).Valid (height + 1))
    (outerValid : CtxValid (height + 1 + 1) ctx) (nearBlack : near.isRed = false) :
    ∃ t', ((rbTreeReparentNodes t parent which.other).bind fun t₁ =>
        ((t₁.mem parent).nodes which.other).bind fun next =>
          removalRebalanceFinish t₁ parent next which) = some t' ∧
      Rebalanced t (plug ctx (mk which false parent s (mk which true brother near far))) t' := by
  obtain ⟨-, -, nearValid, farValid⟩ := valid_red.mp siblingValid
  obtain ⟨nearRed, next, inner, out, rfl⟩ := nearValid.exists_mk which
  obtain rfl : nearRed = false := by simpa using nearBlack
  obtain ⟨insideValid, outsideValid⟩ := valid_black_succ.mp nearValid
  rw [← mk_other, ← mk_other which true brother] at represents
  obtain ⟨t₁, rotated, rep₁, minmax₁⟩ := rbTreeReparentNodes_spec represents
  rw [mk_other, mk_other, ← plug_cons] at rep₁
  obtain ⟨t', fin, tree', rep', bal, walks, minmax'⟩ :=
    removalRebalanceFinish_spec rep₁ sValid insideValid outsideValid (.inl rfl)
      (ctxValid_red.mpr ⟨nearValid, by simp, rfl, ctxValid_black.mpr ⟨farValid, outerValid⟩⟩)
  have nextLink : (t₁.mem parent).nodes which.other = some next := by
    rw [rep₁.record, cell_far, label?_mk]
  refine ⟨t', ?_, tree', rep', bal, fun e => ?_, minmax'.trans minmax₁⟩
  · simp [rotated, nextLink, fin]
  · rw [walks]
    refine walk_plug_congr ?_ ctx
    rcases Dir.eq_or_eq_other which e with rfl | rfl <;> simp

end Round

/-- The loop gives the shortened side its black back, whatever stands around it. -/
theorem rbTreeRemovalRebalance_spec (fuel : Nat) {fr : Frame α} {ctx : List (Frame α)}
    (represents : Represents t (plug (fr :: ctx) s)) (black : s.isRed = false)
    (sValid : s.Valid height) (ctxValid : CtxValid (height + 1) (fr :: ctx))
    (suff : ctx.length < fuel) :
    ∃ t', rbTreeRemovalRebalance fuel t (fatherOf (fr :: ctx)) (positionOf (fr :: ctx)) =
        some t' ∧ Rebalanced t (plug (fr :: ctx) s) t' := by
  induction fuel generalizing t fr ctx s height with
  | zero => omega
  | succ fuel ih =>
    obtain ⟨which, red, parent, sibling⟩ := fr
    have siblingValid : sibling.Valid (height + 1) := ctxValid.1
    obtain ⟨color, brother, near, far, rfl⟩ := siblingValid.exists_mk which
    rw [plug_cons] at represents
    simp only [fatherOf, positionOf, rbTreeRemovalRebalance_succ fuel black represents]
    by_cases allBlack : red = false ∧ near.isRed = false ∧ far.isRed = false
    · obtain ⟨rfl, nearBlack, farBlack⟩ := allBlack
      obtain ⟨-, outerValid⟩ := ctxValid_black.mp ctxValid
      rw [if_pos (by simp [nearBlack, farBlack])]
      cases color with
      | true => exact redBrother_rebalanced represents sValid siblingValid outerValid nearBlack
      | false =>
        -- Case 2a: paint the brother red; the whole subtree is now too low.
        obtain ⟨nearValid, farValid⟩ := ColorTree.valid_black_succ.mp siblingValid
        have painted : Represents (t.markRed brother) (plug ctx (ColorTree.mk which false parent
            s (ColorTree.mk which true brother near far))) := by
          rw [← ColorTree.mk_other] at represents ⊢
          rw [← plug_cons] at represents ⊢
          exact represents.paint true
        have subtreeValid : (ColorTree.mk which false parent s
            (ColorTree.mk which true brother near far)).Valid (height + 1) :=
          ColorTree.valid_black_succ.mpr
            ⟨sValid, ColorTree.valid_red.mpr ⟨nearBlack, farBlack, nearValid, farValid⟩⟩
        have walks : ∀ e, (plug ctx (ColorTree.mk which false parent s
            (ColorTree.mk which true brother near far))).walk e =
              (plug ctx (ColorTree.mk which false parent s
                (ColorTree.mk which false brother near far))).walk e := fun e =>
          walk_plug_congr (ColorTree.walk_mk_congr rfl
            (ColorTree.walk_mk_congr rfl rfl _ _) _ _) ctx
        rw [painted.rootP]
        obtain _ | ⟨fr, upper⟩ := ctx
        · refine ⟨_, rfl, _, painted, ?_, walks, rfl⟩
          exact (balanced_plug_iff _ _).mpr ⟨height + 1, subtreeValid, trivial, by simp⟩
        simp only [length_cons] at suff
        obtain ⟨t', loop, tree', rep', bal, walks', minmax'⟩ :=
          ih painted (by simp) subtreeValid outerValid (by omega)
        refine ⟨t', ?_, tree', rep', bal, fun e => (walks' e).trans (walks e), minmax'⟩
        rw [painted.record]
        simpa using loop
    · rw [if_neg (by simpa using allBlack)]
      have brotherBlack : color = false := by
        cases red with
        | true => simpa using (ctxValid_red.mp ctxValid).2.1
        | false =>
          cases color with
          | false => rfl
          | true =>
            obtain ⟨nearBlack, farBlack, -⟩ := ColorTree.valid_red.mp siblingValid
            exact absurd ⟨rfl, nearBlack, farBlack⟩ allBlack
      subst brotherBlack
      obtain ⟨nearValid, farValid⟩ := ColorTree.valid_black_succ.mp siblingValid
      refine removalRebalanceFinish_spec represents sValid nearValid farValid ?_ ctxValid
      by_contra fails
      simp only [not_or, Bool.not_eq_true] at fails
      exact allBlack fails

end Rebalance

/-!
### Removal

Removal from an ordered tree: a childless node is unlinked, a black node with
one red son gives way to the son, and a node with two sons gives way to its
neighbour on the side away from its father, which is first taken out of its own
place. What is left is the same order without the removed object.
-/

variable {α : Type u}

/-! ### One object less -/

/-- A list without one of its objects. -/
def Removed (self : α) (whole rest : List α) : Prop :=
  ∃ front back, whole = front ++ self :: back ∧ rest = front ++ back

variable {tree : ColorTree α}

section Removed

variable {cmp : α → α → Int} {self : α} {whole tl : List α}

theorem Removed.sublist (gone : Removed self whole tl) : tl.Sublist whole := by
  obtain ⟨pre, back, rfl, rfl⟩ := gone
  exact (sublist_cons_self self back).append_left pre

theorem Removed.mem_iff (gone : Removed self whole tl) (dist : whole.Nodup) (b : α) :
    b ∈ tl ↔ b ≠ self ∧ b ∈ whole := by
  obtain ⟨pre, back, rfl, rfl⟩ := gone
  rw [nodup_middle, nodup_cons] at dist
  constructor
  · intro mem
    refine ⟨fun same => dist.1 (same ▸ mem), ?_⟩
    simp only [mem_append] at mem ⊢
    tauto
  · rintro ⟨diff, mem⟩
    simp only [mem_append, mem_cons] at mem ⊢
    tauto

theorem WellFormed.removed {t t' : RbTree α} {tree' : ColorTree α}
    (wf : WellFormed cmp t tree) (represents : Represents t' tree')
    (bal : tree'.Balanced) (gone : Removed self (tree.walk .left) (tree'.walk .left))
    (minmax : ∀ d a, (tree'.walk d).head? = some a → t'.minmax d = .node a) :
    WellFormed cmp t' tree' ∧ ∀ b, b ∈ tree'.walk .left ↔ b ≠ self ∧ b ∈ tree.walk .left :=
  ⟨⟨represents, wf.ordered.sublist gone.sublist, bal, minmax⟩,
    gone.mem_iff wf.represents.distinct⟩

end Removed

/-! ### Unlinking -/

section Unlink

variable [DecidableEq α] {t t₁ : RbTree α} {ctx : List (Frame α)} {d : Dir} {red : Bool}
  {self : α} {son son' : ColorTree α}

omit [DecidableEq α] in
theorem distinct_splice (dist : (plug ctx (mk d red self son .leaf)).Distinct)
    (sameWalk : son'.walk .left = son.walk .left) : (plug ctx son').Distinct := by
  obtain ⟨-, -, -, sonDistinct, -, ctxDistinct, -, sonCtx, -⟩ := distinct_focus dist
  refine distinct_plug.mpr ⟨?_, ctxDistinct, ?_⟩
  · rw [Distinct, sameWalk]
    exact sonDistinct
  · rw [sameWalk]
    exact sonCtx

omit [DecidableEq α] in
theorem removed_splice (e : Dir) (sameWalk : son'.walk e = son.walk e) :
    Removed self ((plug ctx (mk d red self son .leaf)).walk e)
      ((plug ctx son').walk e) := by
  rw [walk_plug, walk_plug, sameWalk]
  rcases Dir.eq_or_eq_other d e with rfl | rfl
  · exact ⟨before e ctx ++ son.walk e, after e ctx, by simp, by simp⟩
  · exact ⟨before d.other ctx, son.walk d.other ++ after d.other ctx, by simp, by simp⟩

/-- The father's link is moved from a node to its son, after the son's subtree has been
prepared. -/
theorem splice_spec (t₁ : RbTree α) (son' : ColorTree α)
    (represents : Represents t (plug ctx (mk d red self son .leaf)))
    (sameRoot : t₁.root = t.root) (apart : ∀ b, b ∉ son.walk .left → t₁.mem b = t.mem b)
    (sameWalk : son'.walk .left = son.walk .left) (sameLabel : son'.label? = son.label?)
    (sonLinked : Linked t₁.mem (fatherOf ctx) (positionOf ctx) son') :
    ∃ t₂, t₁.setChild (fatherOf ctx) (positionOf ctx) son.label? = some t₂ ∧
      Represents t₂ (plug ctx son') ∧ t₂.minmax = t₁.minmax ∧ t₂.mem self = t.mem self := by
  obtain ⟨outer, -, dist⟩ := represents_plug.mp represents
  obtain ⟨selfSon, -, selfCtx, -, -, ctxDistinct, -, sonCtx, -⟩ := distinct_focus dist
  have outer₁ : CtxLinked t₁ ctx (mk d red self son .leaf).label? :=
    outer.congr sameRoot fun b mem => apart b fun inSon => sonCtx inSon mem
  obtain ⟨t₂, wrote, outer₂, elsewhere₂, minmax₂⟩ :=
    setChild_hole outer₁ ctxDistinct son.label?
  refine ⟨t₂, wrote, represents_plug.mpr ⟨?_, ?_, distinct_splice dist sameWalk⟩, minmax₂, ?_⟩
  · rw [sameLabel]
    exact outer₂
  · refine sonLinked.congr fun _ mem => elsewhere₂ _ (sonCtx ?_)
    rwa [sameWalk] at mem
  · rw [elsewhere₂ self selfCtx, apart self selfSon]

theorem Represents.modify (represents : Represents t tree) (out : self ∉ tree.walk .left)
    (write : RbNode α → RbNode α) : Represents (t.modify self write) tree :=
  ⟨represents.root, represents.linked.congr fun _ mem =>
    modify_mem_ne fun same => out (same ▸ mem), represents.distinct⟩

omit [DecidableEq α] in
theorem Represents.congr_minmax (represents : Represents t tree) (minmax : Dir → Ref α) :
    Represents { t with minmax := minmax } tree :=
  ⟨represents.root, represents.linked, represents.distinct⟩

end Unlink

/-! ### A childless node -/

section Prune

variable [DecidableEq α] {cmp : α → α → Int} {t : RbTree α} {outer : List (Frame α)}
  {ctx : List (Frame α)} {d which : Dir} {red color : Bool} {self father : α}
  {brother : ColorTree α} {fuel : Nat}

/-- Pruning a leaf takes that object and no other. -/
theorem rbTreePruneNode_spec
    (wf : WellFormed cmp t (plug ctx (mk d red self .leaf .leaf)))
    (suff : ((plug ctx (mk d red self .leaf .leaf)).walk .left).length < fuel) :
    ∃ t' tree', rbTreePruneNode fuel t self (!red && !ctx.isEmpty) = some t' ∧
      WellFormed cmp t' tree' ∧ ∀ b, b ∈ tree'.walk .left ↔
        b ≠ self ∧ b ∈ (plug ctx (mk d red self .leaf .leaf)).walk .left := by
  have rcd := wf.represents.record
  have atRoot := wf.represents.rootP
  have leftLink : (t.mem self).nodes .left = none := by
    rw [rcd]
    simp [cell]
  obtain ⟨t₂, wrote, rep₂, minmax₂, sameSelf⟩ := splice_spec t .leaf
    wf.represents rfl (fun _ _ => rfl) rfl rfl trivial
  have gone : Removed self ((plug ctx (mk d red self .leaf .leaf)).walk .left)
      ((plug ctx .leaf).walk .left) := removed_splice .left rfl
  have out : self ∉ (plug ctx (.leaf : ColorTree α)).walk .left := fun mem =>
    ((gone.mem_iff wf.represents.distinct self).mp mem).1 rfl
  have fatherField : (t.mem self).father = fatherOf ctx := by rw [rcd, cell_father]
  have positionField : (t.mem self).position = positionOf ctx := by rw [rcd, cell_position]
  have pos : (t₂.mem self).position = positionOf ctx := by rw [sameSelf, positionField]
  have unl : ∀ minmax, Represents ({ t₂ with minmax := minmax }.setFather self .null)
      (plug ctx .leaf) := fun minmax => (rep₂.congr_minmax minmax).modify out _
  obtain ⟨height, valid, ctxValid, -⟩ := (balanced_plug_iff _ _).mp wf.balanced
  have prunedFrom : rbTreePruneNode fuel t self (!red && !ctx.isEmpty) =
      let t₃ := (if t₂.minmax (positionOf ctx) = .node self then
          if ctx.isEmpty then (t₂.setMinmax (positionOf ctx) (fatherOf ctx)).setMinmax .right
            (fatherOf ctx)
          else t₂.setMinmax (positionOf ctx) (fatherOf ctx)
        else t₂).setFather self .null
      if !red && !ctx.isEmpty then
        rbTreeRemovalRebalance fuel t₃ (fatherOf ctx) (positionOf ctx)
      else some t₃ := by
    simp only [label?_leaf] at wrote
    simp only [rbTreePruneNode, leftLink, atRoot, fatherField, positionField, wrote, pos,
      bind_eq_bind, bind_some]
  obtain _ | ⟨⟨which, color, father, brother⟩, outer⟩ := ctx
  · -- The only node: both cached pointers become the address of the root.
    simp only [isEmpty_nil, Bool.not_true, Bool.and_false, Bool.false_eq_true, if_false,
      if_true] at prunedFrom ⊢
    refine ⟨_, .leaf, prunedFrom, wf.removed ?_ ⟨rfl, 0, rfl⟩ gone (by simp)⟩
    split
    · exact unl _
    · exact unl t₂.minmax
  simp only [isEmpty_cons, Bool.false_eq_true, if_false,
    fatherOf, positionOf] at prunedFrom ⊢
  generalize t₃_eq : (if t₂.minmax which = .node self then t₂.setMinmax which (.node father) else
    t₂).setFather self .null = t₃ at prunedFrom
  have represents₃ : Represents t₃ (plug (⟨which, color, father, brother⟩ :: outer) .leaf) := by
    rw [← t₃_eq]
    split
    · exact unl _
    · exact unl t₂.minmax
  have ends : ∀ e b, ((plug (⟨which, color, father, brother⟩ :: outer) .leaf).walk e).head? =
      some b → t₃.minmax e = .node b := by
    intro e b fst
    rw [← t₃_eq]
    refine minmax_hole (mk d red self .leaf .leaf) _ ?_ rfl
      wf.represents.distinct (minmax₂ ▸ wf.minmax) fst
    cases d <;> cases which <;> rfl
  cases red with
  | true =>
    obtain ⟨-, -, leafValid, -⟩ := valid_red.mp valid
    obtain rfl : height = 0 := leafValid
    refine ⟨t₃, _, prunedFrom, wf.removed represents₃ ?_ gone ends⟩
    exact (balanced_plug_iff _ _).mpr ⟨0, rfl, ctxValid, by simp⟩
  | false =>
    obtain ⟨below, rfl, leafValid, -⟩ := valid_black.mp valid
    obtain rfl : below = 0 := leafValid
    have bound := length_le_walk (⟨which, color, father, brother⟩ :: outer)
      (mk d false self .leaf .leaf)
    rw [length_cons] at bound
    obtain ⟨t', mended, tree', rep', bal, walks, minmax'⟩ :=
      rbTreeRemovalRebalance_spec fuel represents₃ rfl rfl ctxValid (by omega)
    refine ⟨t', tree', prunedFrom.trans mended, wf.removed rep' bal ?_ ?_⟩
    · rw [walks]
      exact gone
    · intro e b fst
      rw [minmax']
      exact ends e b (by rwa [walks e] at fst)

end Prune

/-! ### A node with one son -/

section Blackred

variable [DecidableEq α] {cmp : α → α → Int} {t : RbTree α} {ctx : List (Frame α)}
  {which : Dir} {self son : α}

theorem blackred_links (represents : Represents t (plug ctx (mk which false self
      (mk which true son .leaf .leaf) .leaf))) :
    ∃ t₂, (t.copyProperties son self).setChild (fatherOf ctx) (positionOf ctx) (some son) =
        some t₂ ∧
      Represents (t₂.setFather son (fatherOf ctx))
        (plug ctx (mk which false son .leaf .leaf)) ∧
      t₂.minmax = t.minmax ∧ t₂.mem self = t.mem self := by
  obtain ⟨outer, inner, dist⟩ := represents_plug.mp represents
  obtain ⟨selfSon, -, selfCtx, -, -, ctxDistinct, -, sonCtx, -⟩ := distinct_focus dist
  have sonInside : son ∈ (mk which true son .leaf .leaf).walk .left := by
    simp [mem_mk]
  have apart : self ≠ son := fun same => selfSon (same ▸ sonInside)
  have sonFresh : son ∉ labels ctx := sonCtx sonInside
  obtain ⟨selfRecord, sonLinked, -⟩ := linked_mk.mp inner
  obtain ⟨sonRecord, -⟩ := linked_mk.mp sonLinked
  have els : ∀ b, b ≠ son → (t.copyProperties son self).mem b = t.mem b :=
    fun b diff => modify_mem_ne diff
  rw [label?_mk] at outer
  have outer₁ : CtxLinked (t.copyProperties son self) ctx (some self) :=
    outer.congr (t := t) rfl fun b mem => els b fun same => sonFresh (same ▸ mem)
  obtain ⟨t₂, wrote, outer₂, elsewhere₂, minmax₂⟩ :=
    setChild_hole outer₁ ctxDistinct (some son)
  refine ⟨t₂, wrote, represents_plug.mpr ⟨?_, linked_mk.mpr ⟨?_, trivial, trivial⟩, ?_⟩, minmax₂,
    (elsewhere₂ self selfCtx).trans (els self apart)⟩
  · rw [label?_mk]
    exact outer₂.congr (t := t₂) rfl fun b mem =>
      modify_mem_ne fun same => sonFresh (same ▸ mem)
  · rw [setFather, modify_mem_same, elsewhere₂ son sonFresh, copyProperties,
      modify_mem_same, sonRecord, selfRecord]
    rfl
  · exact distinct_splice dist (by cases which <;> rfl)

/-- A black node with one red son is replaced by the son, blackened. -/
theorem rbTreePruneBlackredBranch_spec (which : Dir)
    (wf : WellFormed cmp t (plug ctx (mk which false self
      (mk which true son .leaf .leaf) .leaf))) :
    ∃ t' tree', rbTreePruneBlackredBranch t self which = some t' ∧
      WellFormed cmp t' tree' ∧ ∀ b, b ∈ tree'.walk .left ↔
        b ≠ self ∧ b ∈ (plug ctx (mk which false self
          (mk which true son .leaf .leaf) .leaf)).walk .left := by
  have rcd := wf.represents.record
  have atRoot := wf.represents.rootP
  obtain ⟨t₂, wrote, rep₂, minmax₂, sameSelf⟩ := blackred_links wf.represents
  have fatherField : (t.mem self).father = fatherOf ctx := by rw [rcd, cell_father]
  have sonLink : (t.mem self).nodes which = some son := by
    rw [rcd, cell_near, label?_mk]
  have sonPosition : ((t.copyProperties son self).mem son).position = positionOf ctx := by
    rw [copyProperties, modify_mem_same, rcd, cell_position]
  have sgl : ∀ e, (mk which false son .leaf .leaf).walk e =
      (mk which true son .leaf .leaf).walk e := by
    intro e
    cases which <;> rfl
  have gone : Removed self ((plug ctx (mk which false self
      (mk which true son .leaf .leaf) .leaf)).walk .left)
      ((plug ctx (mk which false son .leaf .leaf)).walk .left) :=
    removed_splice .left (sgl .left)
  have out : self ∉ (plug ctx (mk which false son .leaf .leaf)).walk .left :=
    fun mem => ((gone.mem_iff wf.represents.distinct self).mp mem).1 rfl
  have unl : ∀ minmax, Represents
      ({ t₂.setFather son (fatherOf ctx) with minmax := minmax }.setFather self .null)
      (plug ctx (mk which false son .leaf .leaf)) :=
    fun minmax => (rep₂.congr_minmax minmax).modify out _
  obtain ⟨height, valid, ctxValid, -⟩ := (balanced_plug_iff _ _).mp wf.balanced
  obtain ⟨below, rfl, -, leafValid⟩ := valid_black.mp valid
  obtain rfl : below = 0 := leafValid
  have bal : (plug ctx (mk which false son .leaf .leaf)).Balanced :=
    (balanced_plug_iff _ _).mpr ⟨1, valid_black_succ.mpr ⟨rfl, rfl⟩, ctxValid, by simp⟩
  have pos : ((t₂.setFather son (fatherOf ctx)).mem self).position = positionOf ctx := by
    have apart : self ≠ son := fun same => out (mem_plug.mpr (.inl (by
      simp [mem_mk, same])))
    rw [setFather, modify_mem_ne apart, sameSelf, rcd, cell_position]
  have pruned : rbTreePruneBlackredBranch t self which = let t₃ := t₂.setFather son (fatherOf ctx)
      some ((if ctx.isEmpty then t₃.setMinmax which.other (.node son)
        else if t₃.minmax (positionOf ctx) = .node self then
          t₃.setMinmax (positionOf ctx) (.node son)
        else t₃).setFather self .null) := by
    simp only [rbTreePruneBlackredBranch, fatherField, sonLink, atRoot, sonPosition, wrote,
      pos, bind_eq_bind, bind_some]
  refine ⟨_, _, pruned, wf.removed ?_ bal gone ?_⟩
  · split
    · exact unl _
    · split
      · exact unl _
      · exact unl t₂.minmax
  intro e b fst
  obtain _ | ⟨⟨side, color, father, brother⟩, outer⟩ := ctx
  · obtain rfl : son = b := by
      cases which <;> cases e <;> exact some.inj fst
    have nearEnd : t.minmax which = .node son := wf.minmax which son (by simp)
    rcases Dir.eq_or_eq_other which e with rfl | rfl
    · simp [setMinmax, setFather, minmax₂, nearEnd]
    · simp [setMinmax, setFather]
  have shd : ∀ first₁, ((mk which false self (mk which true son .leaf
        .leaf) .leaf).walk side ++ [father]).head? = some first₁ →
      (if t.minmax side = .node first₁ then t.setMinmax side (.node son) else t).minmax e =
        .node b := fun first₁ head₁ =>
    minmax_hole _ _ head₁ (by rw [sgl]; cases which <;> cases side <;> rfl)
      wf.represents.distinct wf.minmax fst
  have written₃ : ∀ d, (t₂.setFather son (.node father)).minmax d = t.minmax d :=
    fun d => congrFun minmax₂ d
  simp only [fatherOf, positionOf, written₃]
  rcases Dir.eq_or_eq_other which side with rfl | rfl
  · -- The son hangs on the outer side, so self is no end.
    have notSelf : t.minmax side ≠ .node self := by
      intro atSelf
      have lst := wf.represents.distinct.walk side
      have head := wf.minmax side
      rw [walk_plug] at lst head
      cases front : before side (⟨side, color, father, brother⟩ :: outer) with
      | nil =>
        have same := (head son (by simp [front])).symm.trans atSelf
        simp [front, Ref.node.inj same] at lst
      | cons fst tl =>
        have same := (head fst (by simp [front])).symm.trans atSelf
        simp [front, Ref.node.inj same] at lst
    have kept := shd son (by simp)
    rw [if_neg notSelf, ← kept]
    by_cases atSon : t.minmax side = .node son
    · rcases Dir.eq_or_eq_other side e with rfl | rfl <;>
        simp [atSon, setMinmax, setFather, minmax₂]
    · simp [atSon, setFather, minmax₂]
  · have kept := shd self (by simp)
    rw [← kept]
    by_cases atSelf : t.minmax which.other = .node self <;>
      simp [atSelf, setMinmax, setFather, minmax₂]

end Blackred

end NetBSD.Gen
