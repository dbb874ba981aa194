import NetBSD.Gen.Rb
import NetBSD.Zipper.RedBlack

/-!
Owns what it means that the node records in memory represent a tree: child
links, father pointers, colours and position bits are those of the tree, and no
object stands in it twice. The representation is followed into a position of the
tree, so that the effect of a write is stated about the subtree it concerns and
the context it leaves alone.
-/

namespace NetBSD.Gen

open NetBSD.Zipper List ColorTree RbTree

universe u

variable {α : Type u}

/-! ### Node records -/

@[simp] theorem Ref.object_node (a : α) : (Ref.node a).object = some a := rfl

/-- The record of a node with its two links named by a side. -/
def cell (d : Dir) (near far : Option α) (father : Ref α) (red : Bool) (position : Dir) :
    RbNode α :=
  ⟨fun e => if e = d then near else far, father, red, position⟩

section Cell

variable {d : Dir} {near far : Option α} {father : Ref α} {red : Bool} {position : Dir}

@[simp] theorem cell_near : (cell d near far father red position).nodes d = near := by
  simp [cell]

@[simp] theorem cell_far : (cell d near far father red position).nodes d.other = far := by
  simp [cell]

@[simp] theorem cell_father : (cell d near far father red position).father = father := rfl

@[simp] theorem cell_red : (cell d near far father red position).red = red := rfl

@[simp] theorem cell_position : (cell d near far father red position).position = position := rfl

theorem cell_other : cell d.other near far father red position =
    cell d far near father red position := by
  simp only [cell, RbNode.mk.injEq, and_true]
  funext e
  cases d <;> cases e <;> rfl

end Cell

/-! ### Trees and contexts in memory -/

def Linked (mem : α → RbNode α) (father : Ref α) (position : Dir) : ColorTree α → Prop
  | .leaf => True
  | .node red a left right =>
    mem a = cell .left left.label? right.label? father red position ∧
      Linked mem (.node a) .left left ∧ Linked mem (.node a) .right right

/-- The father pointer of the hole of a context. -/
def fatherOf : List (Frame α) → Ref α
  | [] => .anchor
  | frame :: _ => .node frame.label

/-- The position bit of the hole of a context. -/
def positionOf : List (Frame α) → Dir
  | [] => .left
  | frame :: _ => frame.dir

/-- The records of a context around a hole that holds the given link. -/
def CtxLinked (t : RbTree α) : List (Frame α) → Option α → Prop
  | [], hole => t.root = hole
  | frame :: ctx, hole =>
    t.mem frame.label =
        cell frame.dir hole frame.brother.label? (fatherOf ctx) frame.red (positionOf ctx) ∧
      Linked t.mem (.node frame.label) frame.dir.other frame.brother ∧
      CtxLinked t ctx (some frame.label)

/-- The records in memory are those of the tree. -/
structure Represents (t : RbTree α) (tree : ColorTree α) : Prop where
  root : t.root = tree.label?
  linked : Linked t.mem .anchor .left tree
  distinct : tree.Distinct

section Linked

variable {mem mem' : α → RbNode α} {t t' : RbTree α} {father : Ref α} {position d : Dir}
  {red : Bool} {a : α} {near far s : ColorTree α} {ctx : List (Frame α)} {hole : Option α}

@[simp] theorem linked_leaf : Linked mem father position .leaf := trivial

theorem linked_mk : Linked mem father position (ColorTree.mk d red a near far) ↔
      mem a = cell d near.label? far.label? father red position ∧
        Linked mem (.node a) d near ∧ Linked mem (.node a) d.other far := by
  cases d with
  | left => exact Iff.rfl
  | right =>
    have swapped : cell Dir.right near.label? far.label? father red position =
        cell Dir.left far.label? near.label? father red position :=
      cell_other (d := .left)
    rw [swapped]
    exact and_congr Iff.rfl and_comm

theorem Linked.congr (agree : ∀ b ∈ s.walk .left, mem' b = mem b)
    (link : Linked mem father position s) : Linked mem' father position s := by
  induction s generalizing father position with
  | leaf => trivial
  | node red a left right leftHypothesis rightHypothesis =>
    obtain ⟨rcd, leftLinked, rightLinked⟩ := link
    simp only [walk, mem_append, mem_cons] at agree
    exact ⟨(agree a (by simp)).trans rcd,
      leftHypothesis (fun b inL => agree b (.inl inL)) leftLinked,
      rightHypothesis (fun b inR => agree b (.inr (.inr inR))) rightLinked⟩

theorem Linked.move {newFather : Ref α} {newPosition : Dir}
    (link : Linked mem father position (ColorTree.mk d red a near far))
    (top : mem' a = cell d near.label? far.label? newFather red newPosition)
    (agreeNear : ∀ b ∈ near.walk .left, mem' b = mem b)
    (agreeFar : ∀ b ∈ far.walk .left, mem' b = mem b) :
    Linked mem' newFather newPosition (ColorTree.mk d red a near far) := by
  obtain ⟨_, nearLinked, farLinked⟩ := linked_mk.mp link
  exact linked_mk.mpr ⟨top, nearLinked.congr agreeNear, farLinked.congr agreeFar⟩

theorem CtxLinked.congr (sameRoot : t'.root = t.root)
    (agree : ∀ b ∈ labels ctx, t'.mem b = t.mem b) (link : CtxLinked t ctx hole) :
    CtxLinked t' ctx hole := by
  induction ctx generalizing hole with
  | nil => exact sameRoot.trans link
  | cons fr ctx ih =>
    obtain ⟨rcd, brotherLinked, outer⟩ := link
    simp only [labels, mem_cons, mem_append] at agree
    exact ⟨(agree _ (.inl rfl)).trans rcd,
      brotherLinked.congr fun b member => agree b (.inr (.inl member)),
      ih (fun b member => agree b (.inr (.inr member))) outer⟩

theorem linked_plug : t.root = (plug ctx s).label? ∧ Linked t.mem .anchor .left (plug ctx s) ↔
      CtxLinked t ctx s.label? ∧ Linked t.mem (fatherOf ctx) (positionOf ctx) s := by
  induction ctx generalizing s with
  | nil => exact Iff.rfl
  | cons fr ctx ih =>
    rw [plug_cons, ih, linked_mk, label?_mk]
    simp only [CtxLinked, fatherOf, positionOf]
    tauto

theorem represents_plug : Represents t (plug ctx s) ↔
      CtxLinked t ctx s.label? ∧ Linked t.mem (fatherOf ctx) (positionOf ctx) s ∧
        (plug ctx s).Distinct := by
  constructor
  · rintro ⟨root, link, dist⟩
    have focused := linked_plug.mp ⟨root, link⟩
    exact ⟨focused.1, focused.2, dist⟩
  · rintro ⟨outer, inner, dist⟩
    have whole := linked_plug.mpr ⟨outer, inner⟩
    exact ⟨whole.1, whole.2, dist⟩

end Linked

/-! ### Reading a represented tree -/

section Read

variable {t : RbTree α} {ctx : List (Frame α)} {d : Dir} {a : α} {red : Bool}
  {near far s : ColorTree α} {father : Ref α} {position : Dir} {hole : Option α}

theorem Represents.record (rep : Represents t (plug ctx (ColorTree.mk d red a near far))) :
    t.mem a = cell d near.label? far.label? (fatherOf ctx) red (positionOf ctx) :=
  (linked_mk.mp (represents_plug.mp rep).2.1).1

theorem Linked.redP (link : Linked t.mem father position s) : t.redP s.label? = s.isRed := by
  cases s with
  | leaf => rfl
  | node red a left right => simp [redP, link.1]

theorem CtxLinked.root_mem {fr : Frame α} (link : CtxLinked t (fr :: ctx) hole) :
    ∃ b ∈ labels (fr :: ctx), t.root = some b := by
  induction ctx generalizing fr hole with
  | nil => exact ⟨fr.label, by simp [labels], link.2.2⟩
  | cons next ctx ih =>
    obtain ⟨b, member, root⟩ := ih link.2.2
    refine ⟨b, ?_, root⟩
    rw [labels, mem_cons, mem_append]
    exact .inr (.inr member)

theorem Represents.rootP [DecidableEq α]
    (rep : Represents t (plug ctx (ColorTree.mk d red a near far))) :
    t.rootP a = ctx.isEmpty := by
  obtain ⟨outer, -, dist⟩ := represents_plug.mp rep
  obtain ⟨-, -, ctxFresh, -⟩ := distinct_focus dist
  rw [label?_mk] at outer
  cases ctx with
  | nil =>
    have root : t.root = some a := outer
    simp [rootP, root]
  | cons fr ctx =>
    obtain ⟨b, member, root⟩ := outer.root_mem
    have diff : b ≠ a := fun same => ctxFresh (same ▸ member)
    simpa [rootP, root] using diff

end Read

/-! ### Writes -/

section Write

variable [DecidableEq α] {t : RbTree α} {a b : α} {write : RbNode α → RbNode α}
  {ctx : List (Frame α)} {hole : Option α}

@[simp] theorem modify_root : (t.modify a write).root = t.root := rfl

@[simp] theorem modify_minmax : (t.modify a write).minmax = t.minmax := rfl

@[simp] theorem modify_mem_same : (t.modify a write).mem a = write (t.mem a) := by
  simp [RbTree.modify]

theorem modify_mem_ne (diff : b ≠ a) : (t.modify a write).mem b = t.mem b := by
  simp [RbTree.modify, diff]

theorem setChild_hole (link : CtxLinked t ctx hole) (dist : (labels ctx).Nodup)
    (v : Option α) :
    ∃ t', t.setChild (fatherOf ctx) (positionOf ctx) v = some t' ∧ CtxLinked t' ctx v ∧
      (∀ b, b ∉ labels ctx → t'.mem b = t.mem b) ∧ t'.minmax = t.minmax := by
  cases ctx with
  | nil => exact ⟨{ t with root := v }, rfl, rfl, fun _ _ => rfl, rfl⟩
  | cons fr ctx =>
    obtain ⟨rcd, brotherLinked, outer⟩ := link
    simp only [labels, nodup_cons, mem_append, not_or] at dist
    refine ⟨t.setNode fr.label fr.dir v, rfl, ⟨?_, ?_, ?_⟩, ?_, rfl⟩
    · rw [setNode, modify_mem_same, rcd]
      simp only [cell, RbNode.mk.injEq, and_true]
      funext e
      by_cases same : e = fr.dir <;> simp [same]
    · refine brotherLinked.congr fun b member => modify_mem_ne ?_
      rintro rfl
      exact dist.1.1 member
    · refine outer.congr (t := t) rfl fun b member => modify_mem_ne ?_
      rintro rfl
      exact dist.1.2 member
    · intro b out
      refine modify_mem_ne ?_
      rintro rfl
      exact out (by simp [labels])

end Write

/-!
### Painting and rotation

The two writes that keep the order of a tree: painting a node, and the
rotation of `rb_tree_reparent_nodes`, which swaps a node with one of its children
and leaves the colours where they were.
-/

variable [DecidableEq α] {t : RbTree α} {ctx : List (Frame α)} {d : Dir}
  {a : α} {red : Bool} {near far : ColorTree α}

/-! ### Painting -/

/-- The tree with the colour bit of one node rewritten. -/
def paint (t : RbTree α) (a : α)
    (red : Bool) : RbTree α := t.modify a fun n => { n with red := red }

theorem Represents.paint (rep : Represents t (plug ctx (ColorTree.mk d red a near far)))
    (color : Bool) :
    Represents (paint t a color) (plug ctx (ColorTree.mk d color a near far)) := by
  obtain ⟨outer, inner, dist⟩ := represents_plug.mp rep
  obtain ⟨nearFresh, farFresh, ctxFresh, -⟩ := distinct_focus dist
  obtain ⟨rcd, nearLinked, farLinked⟩ := linked_mk.mp inner
  have apart : ∀ b, b ≠ a → (Gen.paint t a color).mem b = t.mem b :=
    fun b diff => modify_mem_ne diff
  refine represents_plug.mpr ⟨?_, linked_mk.mpr ⟨?_, ?_, ?_⟩, ?_⟩
  · rw [label?_mk] at outer ⊢
    exact outer.congr (t := t) rfl fun b member => apart b fun same => ctxFresh (same ▸ member)
  · rw [Gen.paint, modify_mem_same, rcd]
    rfl
  · exact nearLinked.congr fun b member => apart b fun same => nearFresh (same ▸ member)
  · exact farLinked.congr fun b member => apart b fun same => farFresh (same ▸ member)
  · have walks : (plug ctx (ColorTree.mk d color a near far)).walk .left =
        (plug ctx (ColorTree.mk d red a near far)).walk .left := by
      rw [walk_plug, walk_plug]
      cases d <;> rfl
    rw [Distinct, walks]
    exact dist

theorem Represents.markBlackRoot
    (rep : Represents t (plug ctx (ColorTree.mk d red a near far)))
    (black : (plug ctx (ColorTree.mk d red a near far)).isRed = false) :
    ∃ root, t.root = some root ∧
      Represents (t.markBlack root) (plug ctx (ColorTree.mk d red a near far)) := by
  obtain ⟨root, top⟩ := label?_plug_mk ctx d red a near far
  refine ⟨root, rep.root.trans top, ?_⟩
  generalize plug ctx (ColorTree.mk d red a near far) = tree at rep black top
  cases tree with
  | leaf => simp at top
  | node color b left right =>
    obtain rfl : b = root := Option.some.inj top
    obtain rfl : color = false := black
    have focused : Represents t (plug [] (ColorTree.mk .left false b left right)) := rep
    exact focused.paint false

/-! ### Rotation -/

def adopt (t : RbTree α) (father : α) (position : Dir) : Option α → RbTree α
  | none => t
  | some son => (t.setFather son (.node father)).setPosition son position

@[simp] theorem adopt_root (t : RbTree α) (father : α) (position : Dir) (son : Option α) :
    (adopt t father position son).root = t.root := by
  cases son <;> rfl

@[simp] theorem adopt_minmax (t : RbTree α) (father : α) (position : Dir) (son : Option α) :
    (adopt t father position son).minmax = t.minmax := by
  cases son <;> rfl

theorem adopt_mem {son : Option α} {b : α} (diff : son ≠ some b) (father : α)
    (position : Dir) : (adopt t father position son).mem b = t.mem b := by
  cases son with
  | none => rfl
  | some son =>
    have apart : b ≠ son := fun same => diff (same ▸ rfl)
    rw [adopt, setPosition, modify_mem_ne apart, setFather, modify_mem_ne apart]

theorem Linked.adopt {s : ColorTree α} {father : Ref α} {position : Dir}
    (link : Linked t.mem father position s) (dist : s.Distinct) (newFather : α)
    (newPosition : Dir) :
    Linked (adopt t newFather newPosition s.label?).mem (.node newFather) newPosition s := by
  cases s with
  | leaf => trivial
  | node red a left right =>
    obtain ⟨leftFresh, rightFresh, -⟩ := distinct_mk (d := .left).mp dist
    have apart : ∀ b, b ≠ a → (Gen.adopt t newFather newPosition (some a)).mem b = t.mem b :=
      fun b diff => adopt_mem (fun same => diff (Option.some.inj same).symm) _ _
    refine link.move (d := .left) ?_ ?_ ?_
    · simp only [label?, Gen.adopt, setPosition, setFather,
        modify_mem_same, link.1]
      rfl
    · exact fun b member => apart b fun same => leftFresh (same ▸ member)
    · exact fun b member => apart b fun same => rightFresh (same ▸ member)

theorem reparent_records {t : RbTree α} {f g : α} {d : Dir} {x m y : Option α}
    {grandpa : Ref α} {c cc : Bool} {position : Dir} (apart : f ≠ g)
    (fatherRecord : t.mem f = cell d (some g) y grandpa c position)
    (childRecord : t.mem g = cell d x m (.node f) cc d) :
    let t' := ((((((t.setNode f d ((t.mem g).nodes d.other)).setNode g d.other (some f)).setFather
      g grandpa).setFather f (.node g)).swapProperties g f).setPosition f d.other)
    t'.mem f = cell d m y (.node g) cc d.other ∧ t'.mem g = cell d x (some f) grandpa c position ∧
      (∀ b, b ≠ f → b ≠ g → t'.mem b = t.mem b) ∧ t'.root = t.root ∧ t'.minmax = t.minmax := by
  have apart' : g ≠ f := apart.symm
  refine ⟨?_, ?_, ?_, rfl, rfl⟩
  · simp only [setNode, setFather, swapProperties, setPosition,
      modify_mem_same, modify_mem_ne apart, modify_mem_ne apart', fatherRecord, childRecord]
    simp only [cell, RbNode.mk.injEq, and_true]
    funext e
    by_cases same : e = d <;> simp [same]
  · simp only [setNode, setFather, swapProperties, setPosition,
      modify_mem_same, modify_mem_ne apart, modify_mem_ne apart', fatherRecord, childRecord]
    simp only [cell, RbNode.mk.injEq, and_true]
    funext e
    rcases Dir.eq_or_eq_other d e with same | same <;> simp [same]
  · intro b notFather notChild
    simp only [setNode, setFather, swapProperties, setPosition,
      modify_mem_ne notFather, modify_mem_ne notChild]

/-- A rotation turns the two nodes and relinks their three subtrees. -/
theorem rbTreeReparentNodes_spec {c cc : Bool} {f g : α} {x m y : ColorTree α}
    (rep : Represents t (plug ctx (ColorTree.mk d c f (ColorTree.mk d cc g x m) y))) :
    ∃ t', rbTreeReparentNodes t f d = some t' ∧
      Represents t' (plug ctx (ColorTree.mk d c g x (ColorTree.mk d cc f m y))) ∧
      t'.minmax = t.minmax := by
  obtain ⟨outer, inner, dist⟩ := represents_plug.mp rep
  obtain ⟨childFresh, yFresh, fCtx, childDistinct, -, ctxDistinct, childY, childCtx, yCtx⟩ :=
    distinct_focus dist
  obtain ⟨xFresh, mFresh, xDistinct, mDistinct, sides⟩ := distinct_mk.mp childDistinct
  obtain ⟨fatherRecord, childLinked, yLinked⟩ := linked_mk.mp inner
  obtain ⟨childRecord, xLinked, mLinked⟩ := linked_mk.mp childLinked
  have apart : f ≠ g := fun same => childFresh (mem_mk.mpr (.inl same))
  have gCtx : g ∉ labels ctx := fun member => childCtx (mem_mk.mpr (.inl rfl)) member
  have gY : g ∉ y.walk .left := fun member => childY (mem_mk.mpr (.inl rfl)) member
  rw [label?_mk] at fatherRecord outer
  obtain ⟨t₁, wrote, outer₁, elsewhere₁, minmax₁⟩ := setChild_hole outer ctxDistinct (some g)
  obtain ⟨fRecord, gRecord, elsewhere₂, root₂, minmax₂⟩ := reparent_records apart
    ((elsewhere₁ f fCtx).trans fatherRecord) ((elsewhere₁ g gCtx).trans childRecord)
  set t₂ := ((((((t₁.setNode f d ((t₁.mem g).nodes d.other)).setNode g d.other (some f)).setFather
    g (fatherOf ctx)).setFather f (.node g)).swapProperties g f).setPosition f d.other) with t₂_eq
  have adopted : ∀ b, b ∉ m.walk .left → (adopt t₂ f d m.label?).mem b = t₂.mem b :=
    fun b out => adopt_mem (fun top => out (mem_of_label? top)) _ _
  have agree : ∀ b, b ≠ f → b ≠ g → b ∉ labels ctx → t₂.mem b = t.mem b :=
    fun b notF notG out => (elsewhere₂ b notF notG).trans (elsewhere₁ b out)
  refine ⟨adopt t₂ f d m.label?, ?_, represents_plug.mpr ⟨?_, linked_mk.mpr ⟨?_, ?_,
    linked_mk.mpr ⟨?_, ?_, ?_⟩⟩, ?_⟩, ?_⟩
  · simp only [rbTreeReparentNodes, fatherRecord, cell_near, cell_father, cell_position,
      Option.bind_eq_bind, Option.bind_some, wrote, ← t₂_eq, fRecord]
    cases m.label? <;> rfl
  · rw [label?_mk]
    refine outer₁.congr (t := t₁) (by rw [adopt_root, root₂]) fun b member => ?_
    rw [adopted b fun inM => childCtx (by simp [mem_mk, inM]) member]
    exact elsewhere₂ b (fun same => fCtx (same ▸ member)) (fun same => gCtx (same ▸ member))
  · rw [adopted g mFresh, gRecord, label?_mk]
  · refine xLinked.congr fun b inX => ?_
    have inChild : b ∈ (ColorTree.mk d cc g x m).walk .left := by simp [mem_mk, inX]
    rw [adopted b (sides inX)]
    exact agree b (fun same => childFresh (same ▸ inChild)) (fun same => xFresh (same ▸ inX))
      (childCtx inChild)
  · rw [adopted f fun inM => childFresh (by simp [mem_mk, inM]), fRecord]
  · refine Linked.adopt (mLinked.congr fun b inM => ?_) mDistinct f d
    have inChild : b ∈ (ColorTree.mk d cc g x m).walk .left := by simp [mem_mk, inM]
    exact agree b (fun same => childFresh (same ▸ inChild)) (fun same => mFresh (same ▸ inM))
      (childCtx inChild)
  · refine yLinked.congr fun b inY => ?_
    rw [adopted b fun inM => childY (by simp [mem_mk, inM]) inY]
    exact agree b (fun same => yFresh (same ▸ inY)) (fun same => gY (same ▸ inY)) (yCtx inY)
  · rw [Distinct, walk_rotate]
    exact dist
  · rw [adopt_minmax, minmax₂, minmax₁]

/-- A tree with the same order and the same ends, balanced again. -/
def Rebalanced (t : RbTree α) (tree : ColorTree α) (t' : RbTree α) : Prop :=
  ∃ tree', Represents t' tree' ∧ tree'.Balanced ∧ (∀ e, tree'.walk e = tree.walk e) ∧
    t'.minmax = t.minmax

end NetBSD.Gen
