import NetBSD.Gen.RbRemove

/-!
Owns the removal of a node with two sons. Its neighbour on the side away from the
father, found by `rb_tree_iterate`, has at most one son; it is taken out of its own
place and put, with its links rewritten, into the place of the removed node.
-/

namespace NetBSD.Gen

open NetBSD.Zipper Option ColorTree RbTree

universe u

variable {α : Type u}

/-! ### The stand-in -/

variable {ctx : List (Frame α)} {x : ColorTree α}

section Standin

variable {t : RbTree α} {w : Dir}

theorem iterateDown_spec (fuel : Nat) {red : Bool} {a : α} {y : ColorTree α}
    (rep : Represents t (plug ctx (mk w red a x y)))
    (suff : (y.walk .left).length < fuel) : ∃ inner color standin son,
      mk w red a x y = plug inner (mk w color standin son .leaf) ∧
      (∀ fr ∈ inner, fr.dir = w.other) ∧ iterateDown t w.other fuel a = some standin := by
  induction fuel generalizing ctx red a x y with
  | zero => omega
  | succ fuel ih =>
    have link : (t.mem a).nodes w.other = y.label? := by rw [rep.record, cell_far]
    cases y with
    | leaf => exact ⟨[], red, a, x, rfl, nofun, by simp [iterateDown, link]⟩
    | node nextRed next left right =>
      obtain ⟨near, far, same⟩ := node_eq_mk w nextRed next left right
      rw [same] at rep suff link ⊢
      rw [← mk_other, ← plug_cons] at rep
      have shorter : (far.walk .left).length < fuel := by
        have total := (walk_mk_perm w nextRed next near far).length_eq
        simp only [List.length_cons, List.length_append] at total
        omega
      obtain ⟨inner, color, standin, son, split, sides, got⟩ :=
        ih rep shorter
      refine ⟨inner ++ [⟨w.other, red, a, x⟩], color, standin, son, ?_, ?_, ?_⟩
      · rw [plug_append, ← split, plug_cons, plug_nil, mk_other]
      · intro fr mem
        rcases List.mem_append.mp mem with lt | last
        · exact sides fr lt
        · rw [List.mem_singleton.mp last]
      · rw [label?_mk] at link
        simp [iterateDown, link, got]

theorem before_eq_nil {inner : List (Frame α)} {d : Dir} (sides : ∀ fr ∈ inner, fr.dir = d) :
    before d inner = [] := by
  induction inner with
  | nil => rfl
  | cons fr inner ih =>
    rw [before, if_pos (sides fr (by simp))]
    exact ih fun next mem => sides next (by simp [mem])

theorem after_eq_nil {inner : List (Frame α)} {d : Dir}
    (sides : ∀ fr ∈ inner, fr.dir = d.other) : after d inner = [] := by
  induction inner with
  | nil => rfl
  | cons fr inner ih =>
    have turned : ¬ fr.dir = d := by
      rw [sides fr (by simp)]
      exact Dir.other_ne d
    rw [after, if_neg turned]
    exact ih fun next mem => sides next (by simp [mem])

end Standin

/-! ### Taking the place of the removed node -/

section Replace

variable [DecidableEq α] {t : RbTree α} {ctx : List (Frame α)} {w : Dir} {red : Bool}
  {self standin top : α} {q : Option α} {x y : ColorTree α}

omit [DecidableEq α] in
theorem Linked.refather {mem mem' : α → RbNode α} {father newFather : Ref α} {pos : Dir}
    (link : Linked mem father pos y) (yTop : y.label? = some top) (dist : y.Distinct)
    (topRecord : mem' top = { mem top with father := newFather })
    (apart : ∀ b ∈ y.walk .left, b ≠ top → mem' b = mem b) :
    Linked mem' newFather pos y := by
  cases y with
  | leaf => trivial
  | node color label left right =>
    obtain rfl : label = top := some.inj yTop
    obtain ⟨leftFresh, rightFresh, -⟩ := distinct_mk (d := .left).mp dist
    refine link.move (d := .left) ?_ (fun b member => ?_) (fun b member => ?_)
    · rw [topRecord, link.1]
      rfl
    · exact apart b (by simp [walk, member]) fun same => leftFresh (same ▸ member)
    · exact apart b (by simp [walk, member]) fun same => rightFresh (same ▸ member)

theorem replaceSelf_records {p : Option α} {father : Ref α} {pos : Dir}
    (apart : self ≠ standin) (topStandin : top ≠ standin) (topSelf : top ≠ self)
    (selfRecord : t.mem self = cell w q (some top) father red pos)
    (near : (t.mem standin).nodes w = p) :
    let t₃ := (((t.setNode standin w.other (some top)).setFather top (.node standin)).copyProperties
      standin self)
    let t₄ := t₃.setFather standin (t₃.mem self).father
    t₄.mem standin = cell w p (some top) father red pos ∧ t₄.mem self = t.mem self ∧
      t₄.mem top = { t.mem top with father := .node standin } ∧
      ∀ b, b ≠ standin → b ≠ top → t₄.mem b = t.mem b := by
  refine ⟨?_, ?_, ?_, ?_⟩
  · simp only [setNode, setFather, copyProperties, modify_mem_same,
      modify_mem_ne apart, modify_mem_ne topStandin.symm, modify_mem_ne topSelf.symm, selfRecord]
    simp only [cell, RbNode.mk.injEq, and_true]
    funext e
    rcases Dir.eq_or_eq_other w e with rfl | rfl
    · simp [near]
    · simp
  · simp only [setNode, setFather, copyProperties, modify_mem_ne apart,
      modify_mem_ne topSelf.symm]
  · simp only [setNode, setFather, copyProperties, modify_mem_same,
      modify_mem_ne topStandin]
  · intro b notStandin notTop
    simp only [setNode, setFather, copyProperties, modify_mem_ne notStandin,
      modify_mem_ne notTop]

/-- The last part of `rb_tree_swap_prune_and_rebalance`: the stand-in takes the place of self. -/
theorem replaceSelf_spec (outer : CtxLinked t ctx (some self))
    (selfRecord : t.mem self = cell w q y.label? (fatherOf ctx) red (positionOf ctx))
    (yLinked : Linked t.mem (.node self) w.other y) (yTop : y.label? = some top)
    (xLinked : Linked t.mem (.node standin) w x) (xLink : (t.mem standin).nodes w = x.label?)
    (dist : (plug ctx (mk w red standin x y)).Distinct)
    (out : self ∉ (plug ctx (mk w red standin x y)).walk .left)
    (notEnd : t.minmax (positionOf ctx) ≠ .node self) :
    ∃ t', replaceSelf t self standin w.other = some t' ∧
      Represents t' (plug ctx (mk w red standin x y)) ∧ t'.minmax = t.minmax := by
  obtain ⟨standinX, standinY, standinCtx, xDistinct, yDistinct, ctxDistinct, sides, xCtx, yCtx⟩ :=
    distinct_focus dist
  have apart : self ≠ standin := fun same => out (by simp [mem_plug, mem_mk, same])
  have selfCtx : self ∉ labels ctx := fun mem => out (by simp [mem_plug, mem])
  have topInside := mem_of_label? yTop
  have topStandin : top ≠ standin := fun same => standinY (same ▸ topInside)
  have topSelf : top ≠ self := fun same => out (by
    simp [mem_plug, mem_mk, same ▸ topInside])
  rw [yTop] at selfRecord
  obtain ⟨standinRecord, selfKept, topRecord, els⟩ :=
    replaceSelf_records apart topStandin topSelf selfRecord xLink
  generalize t₄_eq : ((((t.setNode standin w.other (some top)).setFather top
    (.node standin)).copyProperties standin self).setFather standin
      ((((t.setNode standin w.other (some top)).setFather top (.node standin)).copyProperties
        standin self).mem self).father) = t₄ at standinRecord selfKept topRecord els
  have outer₄ : CtxLinked t₄ ctx (some self) := by
    refine outer.congr (by rw [← t₄_eq]; rfl) fun b mem => els b ?_ ?_
    · exact fun same => standinCtx (same ▸ mem)
    · exact fun same => yCtx (same ▸ topInside) (same ▸ mem)
  obtain ⟨t₅, wrote, outer₅, elsewhere₅, minmax₅⟩ :=
    setChild_hole outer₄ ctxDistinct (some standin)
  have minmaxKept : t₅.minmax = t.minmax := by
    rw [minmax₅, ← t₄_eq]
    rfl
  have position₅ : (t₅.mem self).position = positionOf ctx := by
    rw [elsewhere₅ self selfCtx, selfKept, selfRecord, cell_position]
  refine ⟨t₅.setFather self .null, ?_, Represents.modify ?_ out _, minmaxKept⟩
  · have farLink : (t.mem self).nodes w.other = some top := by rw [selfRecord, cell_far]
    have adopted : ((t.setNode standin w.other (some top)).mem standin).nodes w.other =
        some top := by
      simp [setNode]
    have fatherField : (t₄.mem standin).father = fatherOf ctx := by
      rw [standinRecord, cell_father]
    have positionField : (t₄.mem standin).position = positionOf ctx := by
      rw [standinRecord, cell_position]
    have notEnd₅ : ¬ t₅.minmax (positionOf ctx) = .node self := by
      rw [minmaxKept]
      exact notEnd
    simp only [replaceSelf, farLink, adopted, bind_eq_bind, bind_some, t₄_eq,
      fatherField, positionField, wrote, position₅, if_neg notEnd₅]
  · refine represents_plug.mpr ⟨?_, linked_mk.mpr ⟨?_, ?_, ?_⟩, dist⟩
    · rw [label?_mk]
      exact outer₅
    · rw [elsewhere₅ standin standinCtx, standinRecord, yTop]
    · refine xLinked.congr fun b mem => ?_
      rw [elsewhere₅ b (xCtx mem)]
      exact els b (fun same => standinX (same ▸ mem))
        (fun same => sides mem (same ▸ topInside))
    · refine yLinked.refather yTop yDistinct ?_ fun b mem diff => ?_
      · rw [elsewhere₅ top (yCtx topInside), topRecord]
      · rw [elsewhere₅ b (yCtx mem)]
        exact els b (fun same => standinY (same ▸ mem)) diff

end Replace

/-! ### The son of the stand-in -/

section Son

variable [DecidableEq α] {t : RbTree α} {ctx inner : List (Frame α)} {w : Dir} {red color : Bool}
  {self standin : α} {son y : ColorTree α}

theorem adoptStandinSon_direct (rep : Represents t (plug (⟨w, red, self, y⟩ :: ctx)
      (mk w color standin son .leaf)))
    (only : son.isRed = false → son = .leaf) :
    Represents (adoptStandinSon t self standin son.label?).1
        (plug (⟨w, red, self, y⟩ :: ctx) (mk w color standin son.blacken .leaf)) ∧
      (adoptStandinSon t self standin son.label?).2 = (!color && !son.isRed) ∧
      (adoptStandinSon t self standin son.label?).1.minmax = t.minmax := by
  have rcd := rep.record
  have colorField : (t.mem standin).red = color := by rw [rcd, cell_red]
  have fatherField : (t.mem standin).father = .node self := by
    rw [rcd]
    rfl
  cases sonRed : son.isRed with
  | false =>
    obtain rfl := only sonRed
    simpa [adoptStandinSon, colorField, blacken] using rep
  | true =>
    obtain ⟨b, near, far, rfl⟩ := exists_mk_of_red sonRed w
    have redField : (t.mem b).red = true := by
      have focused : Represents t (plug (⟨w, color, standin, .leaf⟩ :: ⟨w, red, self, y⟩ :: ctx)
          (mk w true b near far)) := rep
      rw [focused.record, cell_red]
    have adopted : adoptStandinSon t self standin (some b) = (t.markBlack b, false) := by
      simp [adoptStandinSon, redField, fatherField]
    rw [label?_mk, adopted, blacken_mk]
    refine ⟨?_, by simp, rfl⟩
    have focused : Represents t (plug (⟨w, color, standin, .leaf⟩ :: ⟨w, red, self, y⟩ :: ctx)
        (mk w true b near far)) := rep
    exact focused.paint false

theorem adoptStandinSon_far
    (rep : Represents t (plug ctx (mk w color standin son .leaf)))
    (apart : fatherOf ctx ≠ .node self) (only : son.isRed = false → son = .leaf) :
    Linked (adoptStandinSon t self standin son.label?).1.mem (fatherOf ctx) (positionOf ctx)
        son.blacken ∧
      (∀ b, b ∉ son.walk .left → (adoptStandinSon t self standin son.label?).1.mem b = t.mem b) ∧
      (adoptStandinSon t self standin son.label?).1.root = t.root ∧
      (adoptStandinSon t self standin son.label?).1.minmax = t.minmax ∧
      (adoptStandinSon t self standin son.label?).2 = (!color && !son.isRed) := by
  have rcd := rep.record
  have colorField : (t.mem standin).red = color := by rw [rcd, cell_red]
  have fatherField : (t.mem standin).father = fatherOf ctx := by rw [rcd, cell_father]
  have positionField : (t.mem standin).position = positionOf ctx := by rw [rcd, cell_position]
  obtain ⟨-, lt, dist⟩ := represents_plug.mp rep
  obtain ⟨-, -, -, sonDistinct, -⟩ := distinct_focus dist
  obtain ⟨-, sonLinked, -⟩ := linked_mk.mp lt
  cases sonRed : son.isRed with
  | false =>
    obtain rfl := only sonRed
    simp [adoptStandinSon, colorField, blacken]
  | true =>
    obtain ⟨b, near, far, rfl⟩ := exists_mk_of_red sonRed w
    obtain ⟨bRecord, -⟩ := linked_mk.mp sonLinked
    obtain ⟨nearFresh, farFresh, -⟩ := distinct_mk.mp sonDistinct
    have adopted : adoptStandinSon t self standin (some b) =
        (((t.markBlack b).setFather b (fatherOf ctx)).setPosition b (positionOf ctx), false) := by
      simp [adoptStandinSon, bRecord, fatherField, positionField, apart]
    have els : ∀ c, c ≠ b → (((t.markBlack b).setFather b (fatherOf ctx)).setPosition b
        (positionOf ctx)).mem c = t.mem c := by
      intro c diff
      rw [setPosition, modify_mem_ne diff, setFather, modify_mem_ne diff,
        markBlack, modify_mem_ne diff]
    rw [label?_mk, adopted, blacken_mk]
    refine ⟨linked_mk.mpr ⟨?_, ?_, ?_⟩, fun c out => els c ?_, rfl, rfl, by simp⟩
    · simp only [setPosition, setFather, markBlack, modify_mem_same, bRecord]
      rfl
    · obtain ⟨-, nearLinked, -⟩ := linked_mk.mp sonLinked
      exact nearLinked.congr fun c mem => els c fun same => nearFresh (same ▸ mem)
    · obtain ⟨-, -, farLinked⟩ := linked_mk.mp sonLinked
      exact farLinked.congr fun c mem => els c fun same => farFresh (same ▸ mem)
    · exact fun same => out (mem_mk.mpr (.inl same))

/-- Taking the stand-in out of a place further down, and giving it the far son of self. -/
theorem severStandin_spec {fr : Frame α} {t₁ : RbTree α} {son' : ColorTree α}
    (rep : Represents t (plug (fr :: inner ++ ⟨w, red, self, y⟩ :: ctx)
      (mk w color standin son .leaf)))
    (side : fr.dir = w.other) (sameRoot : t₁.root = t.root)
    (apart : ∀ b, b ∉ son.walk .left → t₁.mem b = t.mem b)
    (sameWalk : son'.walk .left = son.walk .left) (sameLabel : son'.label? = son.label?)
    (sonLinked : Linked t₁.mem (.node fr.label) w.other son') :
    ∃ t₄, severStandin t₁ self standin (.node fr.label) w.other son.label? = some t₄ ∧
      CtxLinked t₄ ctx (some self) ∧
      t₄.mem self = cell w (plug (fr :: inner) son').label? y.label? (fatherOf ctx) red
        (positionOf ctx) ∧
      Linked t₄.mem (.node self) w.other y ∧
      Linked t₄.mem (.node standin) w (plug (fr :: inner) son') ∧
      (t₄.mem standin).nodes w = (plug (fr :: inner) son').label? ∧
      t₄.minmax = t₁.minmax := by
  obtain ⟨t₂, wrote, rep₂, minmax₂, standinKept⟩ :=
    splice_spec t₁ son' rep sameRoot apart sameWalk sameLabel (by
      simpa [fatherOf, positionOf, side] using sonLinked)
  have standinOutside : standin ∉
      (plug (fr :: inner ++ ⟨w, red, self, y⟩ :: ctx) son').walk .left := by
    obtain ⟨standinSon, -, standinCtx, -⟩ := distinct_focus rep.distinct
    rw [mem_plug, sameWalk]
    exact fun mem => mem.elim standinSon standinCtx
  rw [plug_append, plug_cons] at rep₂ standinOutside
  obtain ⟨top, topLabel⟩ : ∃ top, (plug (fr :: inner) son').label? = some top :=
    label?_plug_mk _ _ _ _ _ _
  generalize plug (fr :: inner) son' = x at rep₂ standinOutside topLabel ⊢
  obtain ⟨outer, lt, dist⟩ := represents_plug.mp rep₂
  obtain ⟨selfX, selfY, selfCtx, xDistinct, -, -, sides, xCtx, yCtx⟩ := distinct_focus dist
  obtain ⟨selfRecord, xLinked, yLinked⟩ := linked_mk.mp lt
  simp only [mem_plug, mem_mk, not_or] at standinOutside
  obtain ⟨⟨standinSelf, standinX, standinY⟩, standinCtx⟩ := standinOutside
  have topX := mem_of_label? topLabel
  have topStandin : top ≠ standin := fun same => standinX (same ▸ topX)
  have topSelf : top ≠ self := fun same => selfX (same ▸ topX)
  have link : (t₂.mem self).nodes w = some top := by rw [selfRecord, cell_near, topLabel]
  have elsewhere₄ : ∀ b, b ≠ standin → b ≠ top →
      ((t₂.setNode standin w (some top)).setFather top (.node standin)).mem b = t₂.mem b := by
    intro b notStandin notTop
    rw [setFather, modify_mem_ne notTop, setNode, modify_mem_ne notStandin]
  refine ⟨(t₂.setNode standin w (some top)).setFather top (.node standin), ?_, ?_, ?_, ?_, ?_, ?_,
    minmax₂⟩
  · have writtenAt : t₁.setChild (.node fr.label) w.other son.label? = some t₂ := by
      simpa [fatherOf, positionOf, side] using wrote
    have adopted : ((t₂.setNode standin w (some top)).mem standin).nodes w = some top := by
      simp [setNode]
    simp only [severStandin, Dir.other_other, writtenAt, bind_eq_bind, bind_some, link,
      adopted]
  · rw [label?_mk] at outer
    refine outer.congr (t := t₂) rfl fun b mem => elsewhere₄ b ?_ ?_
    · exact fun same => standinCtx (same ▸ mem)
    · exact fun same => xCtx (same ▸ topX) (same ▸ mem)
  · rw [elsewhere₄ self (Ne.symm standinSelf) topSelf.symm, selfRecord]
  · refine yLinked.congr fun b mem => elsewhere₄ b ?_ ?_
    · exact fun same => standinY (same ▸ mem)
    · exact fun same => sides (same ▸ topX) (same ▸ mem)
  · refine xLinked.refather topLabel xDistinct ?_ fun b mem diff => elsewhere₄ b ?_ diff
    · rw [setFather, modify_mem_same, setNode, modify_mem_ne topStandin]
    · exact fun same => standinX (same ▸ mem)
  · rw [setFather, modify_mem_ne topStandin.symm, topLabel]
    simp [setNode]

end Son

/-! ### Removing a node with two sons -/

section Swap

variable {cmp : α → α → Int} {t : RbTree α} {ctx inner : List (Frame α)} {w : Dir}
  {red color : Bool} {self standin : α} {son y : ColorTree α}

theorem walk_swap (ctx : List (Frame α)) (red color : Bool) (self standin : α) (son : ColorTree α)
    (sides : ∀ fr ∈ inner, fr.dir = w.other) (yTop : y ≠ .leaf) (e : Dir) :
    ∃ pre back, pre ≠ [] ∧
      (plug ctx (mk w red self (plug inner (mk w color standin son .leaf))
        y)).walk e = pre ++ self :: back ∧
      (plug ctx (mk w red standin (plug inner son.blacken) y)).walk e =
        pre ++ back := by
  rcases Dir.eq_or_eq_other w e with rfl | rfl
  · refine ⟨before e ctx ++ before e inner ++ son.walk e ++ [standin], y.walk e ++ after e ctx,
      by simp, ?_, ?_⟩
    · simp [walk_plug, after_eq_nil sides]
    · simp [walk_plug, after_eq_nil sides]
  refine ⟨before w.other ctx ++ y.walk w.other, standin :: (son.walk w.other ++
    (after w.other inner ++ after w.other ctx)), ?_, ?_, ?_⟩
  · cases y with
    | leaf => exact absurd rfl yTop
    | node yRed label left right =>
      obtain ⟨near, far, same⟩ := node_eq_mk w.other yRed label left right
      simp [same]
  · simp [walk_plug, before_eq_nil sides]
  · simp [walk_plug, before_eq_nil sides]

variable [DecidableEq α]

/-- The links after self is exchanged for the stand-in, with the flag that asks for rebalancing. -/
theorem swap_links (fuel : Nat)
    (wf : WellFormed cmp t (plug ctx (mk w red self
      (plug inner (mk w color standin son .leaf)) y)))
    (sides : ∀ fr ∈ inner, fr.dir = w.other) (yTop : y ≠ .leaf)
    (only : son.isRed = false → son = .leaf) :
    ∃ t₁, rbTreeSwapPruneAndRebalance fuel t self standin = (if !color && !son.isRed then
          rbTreeRemovalRebalance fuel t₁ (fatherOf (inner ++ ⟨w, red, standin, y⟩ :: ctx))
            (positionOf (inner ++ ⟨w, red, standin, y⟩ :: ctx))
        else some t₁) ∧
      Represents t₁ (plug ctx (mk w red standin (plug inner son.blacken) y)) ∧
      t₁.minmax = t.minmax := by
  have rep : Represents t (plug (inner ++ ⟨w, red, self, y⟩ :: ctx)
      (mk w color standin son .leaf)) := by
    rw [plug_append]
    exact wf.represents
  have rcd := rep.record
  obtain ⟨top, topLabel⟩ : ∃ top, y.label? = some top := by
    cases y with
    | leaf => exact absurd rfl yTop
    | node yRed label left right => exact ⟨label, rfl⟩
  have gone := walk_swap ctx red color self standin son sides yTop
  have out : self ∉ (plug ctx (mk w red standin (plug inner son.blacken) y)).walk
      .left := by
    obtain ⟨pre, back, -, whole, tl⟩ := gone .left
    intro mem
    exact ((Removed.mem_iff ⟨pre, back, whole, tl⟩ wf.represents.distinct self).mp
      mem).1 rfl
  have dist : (plug ctx (mk w red standin (plug inner son.blacken) y)).Distinct := by
    obtain ⟨pre, back, -, whole, tl⟩ := gone .left
    exact wf.represents.distinct.sublist (Removed.sublist ⟨pre, back, whole, tl⟩)
  have notEnd : t.minmax (positionOf ctx) ≠ .node self := by
    obtain ⟨pre, back, nonempty, whole, -⟩ := gone (positionOf ctx)
    have lst := wf.represents.distinct.walk (positionOf ctx)
    obtain _ | ⟨head, tl⟩ := pre
    · exact absurd rfl nonempty
    · have atHead := wf.minmax (positionOf ctx) head (by rw [whole]; rfl)
      intro atSelf
      obtain rfl := Ref.node.inj (atHead.symm.trans atSelf)
      rw [whole] at lst
      simp at lst
  obtain _ | ⟨fr, inner⟩ := inner
  · -- The stand-in is a son of self.
    have fatherField : (t.mem standin).father = .node self := by
      rw [rcd]
      rfl
    have positionField : (t.mem standin).position = w := by
      rw [rcd]
      rfl
    have sonLink : (t.mem standin).nodes w = son.label? := by rw [rcd, cell_near]
    obtain ⟨rep₁, flag, minmax₁⟩ := adoptStandinSon_direct rep only
    generalize adopted : adoptStandinSon t self standin son.label? = result at *
    obtain ⟨t₁, rebalance⟩ := result
    obtain ⟨outer, lt, -⟩ := represents_plug.mp (show Represents t₁ (plug ctx _) from rep₁)
    obtain ⟨selfRecord, standinLinked, yLinked⟩ := linked_mk.mp lt
    obtain ⟨standinRecord, sonLinked, -⟩ := linked_mk.mp standinLinked
    rw [label?_mk] at outer
    obtain ⟨t', replaced, rep', minmax'⟩ := replaceSelf_spec outer selfRecord yLinked topLabel
      sonLinked (by rw [standinRecord, cell_near]) dist out (by rwa [minmax₁])
    refine ⟨t', ?_, rep', minmax'.trans minmax₁⟩
    simp only [rbTreeSwapPruneAndRebalance, fatherField, positionField, sonLink, adopted, if_true,
      replaced, bind_eq_bind, bind_some]
    rw [← flag]
    rfl
  -- The stand-in is further down.
  have side : fr.dir = w.other := sides fr (by simp)
  have fatherField : (t.mem standin).father = .node fr.label := by
    rw [rcd]
    rfl
  have positionField : (t.mem standin).position = w.other := by
    rw [rcd]
    exact side
  have sonLink : (t.mem standin).nodes w.other.other = son.label? := by
    rw [Dir.other_other, rcd, cell_near]
  have apart : Ref.node fr.label ≠ .node self := by
    intro same
    refine out (mem_plug.mpr (.inl (mem_mk.mpr (.inr (.inl (mem_plug.mpr
      (.inr ?_)))))))
    simp [labels, Ref.node.inj same]
  obtain ⟨sonLinked, els, sameRoot, minmax₁, flag⟩ :=
    adoptStandinSon_far rep apart only
  generalize adopted : adoptStandinSon t self standin son.label? = result at *
  obtain ⟨t₄, severed, outer, selfRecord, yLinked, xLinked, xLink, minmax₄⟩ :=
    severStandin_spec rep side sameRoot els (son.walk_blacken .left)
      son.label?_blacken (by simpa [fatherOf, positionOf, side] using sonLinked)
  obtain ⟨t', replaced, rep', minmax'⟩ := replaceSelf_spec outer selfRecord yLinked topLabel
    xLinked xLink dist out (by rwa [minmax₄, minmax₁])
  refine ⟨t', ?_, rep', minmax'.trans (minmax₄.trans minmax₁)⟩
  simp only [rbTreeSwapPruneAndRebalance, fatherField, positionField, sonLink, adopted,
    if_neg apart, severed, replaced, bind_eq_bind, bind_some]
  rw [← flag, List.cons_append, fatherOf, positionOf, side]

/-- The stand-in takes over place and colour of the node removed. -/
theorem rbTreeSwapPruneAndRebalance_spec {fuel : Nat}
    (wf : WellFormed cmp t (plug ctx (mk w red self
      (plug inner (mk w color standin son .leaf)) y)))
    (sides : ∀ fr ∈ inner, fr.dir = w.other) (yTop : y ≠ .leaf)
    (suff : ((plug ctx (mk w red self
      (plug inner (mk w color standin son .leaf)) y)).walk .left).length < fuel) :
    ∃ t' tree', rbTreeSwapPruneAndRebalance fuel t self standin = some t' ∧
      WellFormed cmp t' tree' ∧ ∀ b, b ∈ tree'.walk .left ↔
        b ≠ self ∧ b ∈ (plug ctx (mk w red self
          (plug inner (mk w color standin son .leaf)) y)).walk .left := by
  have focused : ∀ (label : α) (s : ColorTree α),
      plug ctx (mk w red label (plug inner s) y) =
        plug (inner ++ ⟨w, red, label, y⟩ :: ctx) s := fun label s => by
    rw [plug_append, plug_cons]
  have balancedBefore := wf.balanced
  rw [focused] at balancedBefore
  obtain ⟨height, valid, ctxValid, topRule⟩ := (balanced_plug_iff _ _).mp balancedBefore
  have ctxValid' : CtxValid height (inner ++ ⟨w, red, standin, y⟩ :: ctx) :=
    (ctxValid_relabel inner red standin).mp ctxValid
  have removed := walk_swap ctx red color self standin son sides yTop
  have only : son.isRed = false → son = .leaf := by
    intro black
    cases color with
    | true =>
      obtain ⟨-, -, sonValid, leafValid⟩ := valid_red.mp valid
      exact Valid.eq_leaf (leafValid ▸ sonValid) black
    | false =>
      obtain ⟨below, -, sonValid, leafValid⟩ := valid_black.mp valid
      exact Valid.eq_leaf (leafValid ▸ sonValid) black
  obtain ⟨t₁, swapped, rep₁, minmax₁⟩ := swap_links fuel wf sides yTop only
  have ends : ∀ e b, ((plug ctx (mk w red standin (plug inner son.blacken)
      y)).walk e).head? = some b → t₁.minmax e = .node b := by
    intro e b fst
    obtain ⟨pre, back, nonempty, whole, tl⟩ := removed e
    rw [minmax₁]
    refine wf.minmax e b ?_
    rw [tl] at fst
    rw [whole]
    cases pre with
    | nil => exact absurd rfl nonempty
    | cons head tail => exact fst
  obtain ⟨pre, back, -, whole, tl⟩ := removed .left
  have removedLeft : Removed self _ _ := ⟨pre, back, whole, tl⟩
  by_cases low : color = false ∧ son.isRed = false
  · -- A black node is gone from the stand-in's old place.
    obtain ⟨rfl, sonBlack⟩ := low
    obtain rfl := only sonBlack
    obtain ⟨below, rfl, leafValid, -⟩ := valid_black.mp valid
    obtain rfl : below = 0 := leafValid
    have bound := length_le_walk (inner ++ ⟨w, red, self, y⟩ :: ctx)
      (mk w false standin .leaf .leaf)
    rw [← focused] at bound
    have rep₂ : Represents t₁ (plug (inner ++ ⟨w, red, standin, y⟩ :: ctx) .leaf) := by
      rw [← focused]
      exact rep₁
    obtain ⟨fr, path, pathEq⟩ : ∃ fr path,
        inner ++ ⟨w, red, standin, y⟩ :: ctx = fr :: path := by
      cases inner with
      | nil | cons => exact ⟨_, _, rfl⟩
    have short : path.length < fuel := by
      have same := congrArg List.length pathEq
      simp only [List.length_append, List.length_cons] at same bound
      omega
    rw [pathEq] at rep₂ ctxValid' swapped
    obtain ⟨t', mended, tree', rep', bal, walks, minmax'⟩ :=
      rbTreeRemovalRebalance_spec fuel rep₂ rfl rfl ctxValid' short
    rw [← pathEq, ← focused] at walks
    refine ⟨t', tree', swapped.trans mended, wf.removed rep' bal ?_ ?_⟩
    · rw [walks]
      exact removedLeft
    · intro e b fst
      rw [minmax']
      exact ends e b (by rwa [walks e] at fst)
  · rw [if_neg (by simpa using low)] at swapped
    refine ⟨t₁, _, swapped, wf.removed rep₁ ?_ removedLeft ends⟩
    rw [focused]
    refine (balanced_plug_iff _ _).mpr ⟨height, ?_, ctxValid', fun _ => ?_⟩
    · cases color with
      | true =>
        obtain ⟨sonBlack, -, -, leafValid⟩ := valid_red.mp valid
        obtain rfl := only sonBlack
        exact leafValid
      | false =>
        obtain ⟨below, rfl, sonValid, -⟩ := valid_black.mp valid
        exact sonValid.blacken (by simpa using low)
    · cases son <;> rfl

end Swap

/-! ### Removal -/

section Remove

variable [DecidableEq α] {cmp : α → α → Int} {t : RbTree α} {self : α} {fuel : Nat}

omit [DecidableEq α] in
theorem one_son {d : Dir} {red : Bool}
    (bal : (plug ctx (mk d red self x .leaf)).Balanced) (nonempty : x ≠ .leaf) :
    red = false ∧ ∃ son, x = mk d true son .leaf .leaf := by
  obtain ⟨height, valid, -⟩ := (balanced_plug_iff _ _).mp bal
  cases red with
  | true =>
    obtain ⟨black, -, xValid, leafValid⟩ := valid_red.mp valid
    exact absurd (Valid.eq_leaf (leafValid ▸ xValid) black) nonempty
  | false =>
    obtain ⟨below, -, xValid, leafValid⟩ := valid_black.mp valid
    obtain rfl : below = 0 := leafValid
    refine ⟨rfl, xValid.eq_single ?_ d⟩
    cases black : x.isRed with
    | true => rfl
    | false => exact absurd (xValid.eq_leaf black) nonempty

theorem remove_between {w : Dir} {red : Bool} {y : ColorTree α}
    (wf : WellFormed cmp t (plug ctx (mk w red self x y)))
    (xTop : x ≠ .leaf) (yTop : y ≠ .leaf)
    (suff : ((plug ctx (mk w red self x y)).walk .left).length < fuel) :
    ∃ standin t' tree', rbTreeIterate fuel t (some self) w = some (some standin) ∧
      rbTreeSwapPruneAndRebalance fuel t self standin = some t' ∧
      WellFormed cmp t' tree' ∧ ∀ b, b ∈ tree'.walk .left ↔
        b ≠ self ∧ b ∈ (plug ctx (mk w red self x y)).walk .left := by
  have link : (t.mem self).nodes w = x.label? := by
    rw [wf.represents.record, cell_near]
  cases x with
  | leaf => exact absurd rfl xTop
  | node topRed top left right =>
    obtain ⟨near, far, same⟩ := node_eq_mk w topRed top left right
    rw [same] at wf suff link ⊢
    have short : (far.walk .left).length < fuel := by
      have total := (walk_plug_perm ctx (mk w red self
        (mk w topRed top near far) y)).length_eq
      have whole := (walk_mk_perm w red self (mk w topRed top near far) y).length_eq
      have part := (walk_mk_perm w topRed top near far).length_eq
      simp only [List.length_append, List.length_cons] at total whole part
      omega
    have focused : Represents t (plug (⟨w, red, self, y⟩ :: ctx)
      (mk w topRed top near far)) := wf.represents
    obtain ⟨inner, color, standin, son, split, sides, got⟩ :=
      iterateDown_spec fuel focused short
    rw [split] at wf suff ⊢
    obtain ⟨t', tree', swapped, tl⟩ :=
      rbTreeSwapPruneAndRebalance_spec wf sides yTop suff
    exact ⟨standin, t', tree', by simp [rbTreeIterate, link, got], swapped, tl⟩

/-- Removal takes `self` out of the set and keeps the tree well formed. -/
theorem rbTreeRemoveNode_spec {tree : ColorTree α} (wf : WellFormed cmp t tree)
    (mem : self ∈ tree.walk .left) (suff : (tree.walk .left).length < fuel) :
    ∃ t' tree', rbTreeRemoveNode fuel t self = some t' ∧ WellFormed cmp t' tree' ∧
      ∀ b, b ∈ tree'.walk .left ↔ b ≠ self ∧ b ∈ tree.walk .left := by
  obtain ⟨ctx, red, left, right, rfl⟩ := exists_plug_of_mem mem
  have rcd : t.mem self = cell .left left.label? right.label? (fatherOf ctx) red
      (positionOf ctx) := wf.represents.record (d := .left)
  have atRoot : t.rootP self = ctx.isEmpty := wf.represents.rootP (d := .left)
  have leftLink : (t.mem self).nodes .left = left.label? := by
    rw [rcd]
    rfl
  have rightLink : (t.mem self).nodes .right = right.label? := by
    rw [rcd]
    rfl
  have redField : (t.mem self).red = red := by rw [rcd, cell_red]
  have positionField : (t.mem self).position = positionOf ctx := by rw [rcd, cell_position]
  by_cases leftEmpty : left = .leaf
  · subst leftEmpty
    by_cases rightEmpty : right = .leaf
    · subst rightEmpty
      obtain ⟨t', tree', pruned, tl⟩ := rbTreePruneNode_spec (d := .left) wf suff
      refine ⟨t', tree', ?_, tl⟩
      simp [rbTreeRemoveNode, leftLink, rightLink, redField, atRoot, pruned]
    · obtain ⟨rfl, son, rfl⟩ := one_son (d := .right) wf.balanced rightEmpty
      obtain ⟨t', tree', pruned, tl⟩ := rbTreePruneBlackredBranch_spec .right wf
      refine ⟨t', tree', ?_, tl⟩
      simp [rbTreeRemoveNode, leftLink, rightLink, pruned]
  by_cases rightEmpty : right = .leaf
  · subst rightEmpty
    obtain ⟨rfl, son, rfl⟩ := one_son (d := .left) wf.balanced leftEmpty
    obtain ⟨t', tree', pruned, tl⟩ := rbTreePruneBlackredBranch_spec .left wf
    refine ⟨t', tree', ?_, tl⟩
    simp [rbTreeRemoveNode, leftLink, rightLink, pruned]
  obtain ⟨x, y, same, xTop, yTop⟩ : ∃ x y, node red self left right =
      mk (positionOf ctx).other red self x y ∧ x ≠ .leaf ∧ y ≠ .leaf := by
    cases (positionOf ctx).other with
    | left => exact ⟨left, right, rfl, leftEmpty, rightEmpty⟩
    | right => exact ⟨right, left, rfl, rightEmpty, leftEmpty⟩
  rw [same] at wf suff ⊢
  obtain ⟨standin, t', tree', fnd, swapped, tl⟩ :=
    remove_between wf xTop yTop suff
  refine ⟨t', tree', ?_, tl⟩
  simp [rbTreeRemoveNode, leftLink, rightLink, leftEmpty, rightEmpty, positionField, fnd, swapped]

end Remove

end NetBSD.Gen
