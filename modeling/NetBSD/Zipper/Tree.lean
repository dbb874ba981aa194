import Mathlib.Data.List.Basic
import Mathlib.Data.List.Nodup
import Mathlib.Tactic.Common

/-!
Owns binary trees seen from a position inside them. A tree is written with its
two sides named by a direction, so that one statement covers both mirror images;
a context is the path from a subtree up to the root. `walk` lists the labels
from one end, and splits at every position.
-/

namespace NetBSD.Zipper

open List

universe u

/-- A side of a node, and the end of the tree it leads to. -/
inductive Dir where
  | left
  | right
  deriving DecidableEq, Repr

def Dir.other : Dir → Dir
  | .left => .right
  | .right => .left

@[simp] theorem Dir.other_other (d : Dir) : d.other.other = d := by cases d <;> rfl

@[simp] theorem Dir.other_ne (d : Dir) : d.other ≠ d := by cases d <;> decide

@[simp] theorem Dir.ne_other (d : Dir) : d ≠ d.other := by cases d <;> decide

theorem Dir.eq_or_eq_other (d e : Dir) : e = d ∨ e = d.other := by
  cases d <;> cases e <;> simp [Dir.other]

variable {d : Dir}

theorem Dir.eq_other_of_ne {e : Dir} (diff : e ≠ d) : e = d.other :=
  (Dir.eq_or_eq_other d e).resolve_left diff

/-- Binary trees whose nodes carry a colour and a label. -/
inductive ColorTree (α : Type u) where
  | leaf
  | node (red : Bool) (label : α) (left right : ColorTree α)
  deriving Repr

/-- One step of the path to the root: the side of the father on which the
subtree hangs, the father's colour and label, and the subtree's brother. -/
structure Frame (α : Type u) where
  dir : Dir
  red : Bool
  label : α
  brother : ColorTree α

section Shape

variable {α : Type u}

/-- A node with `near` on the named side and `far` on the other. -/
def ColorTree.mk (d : Dir) (red : Bool) (label : α) (near far : ColorTree α) : ColorTree α :=
  match d with
  | .left => .node red label near far
  | .right => .node red label far near

theorem ColorTree.mk_other (d : Dir) (red : Bool) (label : α) (near far : ColorTree α) :
    ColorTree.mk d.other red label near far = ColorTree.mk d red label far near := by
  cases d <;> rfl

theorem ColorTree.node_eq_mk (d : Dir) (red : Bool) (label : α) (left right : ColorTree α) :
    ∃ near far, ColorTree.node red label left right = ColorTree.mk d red label near far := by
  cases d with
  | left => exact ⟨left, right, rfl⟩
  | right => exact ⟨right, left, rfl⟩

theorem ColorTree.mk_eq_mk (d e : Dir) (red : Bool) (label : α) (near far : ColorTree α) :
    ∃ near' far', ColorTree.mk d red label near far = ColorTree.mk e red label near' far' := by
  cases d <;> exact ColorTree.node_eq_mk e red label _ _

def ColorTree.label? : ColorTree α → Option α
  | .leaf => none
  | .node _ label _ _ => some label

@[simp] theorem ColorTree.label?_leaf : (ColorTree.leaf : ColorTree α).label? = none := rfl

@[simp] theorem ColorTree.label?_node (red : Bool) (label : α) (left right : ColorTree α) :
    (ColorTree.node red label left right).label? = some label := rfl

@[simp] theorem ColorTree.label?_mk (d : Dir) (red : Bool) (label : α) (near far : ColorTree α) :
    (ColorTree.mk d red label near far).label? = some label := by
  cases d <;> rfl

@[simp] theorem ColorTree.label?_eq_none {t : ColorTree α} : t.label? = none ↔ t = .leaf := by
  cases t <;> simp

/-- The colour at the top of a tree; the empty tree is black. -/
def ColorTree.isRed : ColorTree α → Bool
  | .leaf => false
  | .node red _ _ _ => red

@[simp] theorem ColorTree.isRed_leaf : (ColorTree.leaf : ColorTree α).isRed = false := rfl

@[simp] theorem ColorTree.isRed_node (red : Bool) (label : α) (left right : ColorTree α) :
    (ColorTree.node red label left right).isRed = red := rfl

@[simp] theorem ColorTree.isRed_mk (d : Dir) (red : Bool) (label : α) (near far : ColorTree α) :
    (ColorTree.mk d red label near far).isRed = red := by
  cases d <;> rfl

/-- The tree with its top painted black. -/
def ColorTree.blacken : ColorTree α → ColorTree α
  | .leaf => .leaf
  | .node _ label left right => .node false label left right

@[simp] theorem ColorTree.blacken_mk (d : Dir) (red : Bool) (label : α) (near far : ColorTree α) :
    (ColorTree.mk d red label near far).blacken = ColorTree.mk d false label near far := by
  cases d <;> rfl

@[simp] theorem ColorTree.label?_blacken (t : ColorTree α) : t.blacken.label? = t.label? := by
  cases t <;> rfl

/-- The whole tree, from a subtree and its context. -/
def plug : List (Frame α) → ColorTree α → ColorTree α
  | [], t => t
  | frame :: ctx, t => plug ctx (ColorTree.mk frame.dir frame.red frame.label t frame.brother)

@[simp] theorem plug_nil (t : ColorTree α) : plug [] t = t := rfl

theorem plug_cons (d : Dir) (red : Bool) (label : α) (brother : ColorTree α) (ctx : List (Frame α))
    (t : ColorTree α) :
    plug (⟨d, red, label, brother⟩ :: ctx) t = plug ctx (ColorTree.mk d red label t brother) := rfl

theorem plug_append (inner outer : List (Frame α)) (t : ColorTree α) :
    plug (inner ++ outer) t = plug outer (plug inner t) := by
  induction inner generalizing t with
  | nil => rfl
  | cons fr inner ih => exact ih _

theorem label?_plug_mk (ctx : List (Frame α)) (d : Dir) (red : Bool) (label : α)
    (near far : ColorTree α) :
    ∃ top, (plug ctx (ColorTree.mk d red label near far)).label? = some top := by
  induction ctx generalizing d red label near far with
  | nil => exact ⟨label, ColorTree.label?_mk d red label near far⟩
  | cons fr ctx ih => exact ih _ _ _ _ _

end Shape

section Walk

variable {α : Type u}

/-- The labels in order, starting from the named end. -/
def ColorTree.walk (d : Dir) : ColorTree α → List α
  | .leaf => []
  | .node _ label left right =>
    match d with
    | .left => left.walk d ++ label :: right.walk d
    | .right => right.walk d ++ label :: left.walk d

@[simp] theorem ColorTree.walk_leaf (d : Dir) : (ColorTree.leaf : ColorTree α).walk d = [] := rfl

@[simp] theorem ColorTree.walk_mk (d : Dir) (red : Bool) (label : α) (near far : ColorTree α) :
    (ColorTree.mk d red label near far).walk d = near.walk d ++ label :: far.walk d := by
  cases d <;> rfl

@[simp] theorem ColorTree.walk_mk_other (d : Dir) (red : Bool) (label : α) (near far : ColorTree α) :
    (ColorTree.mk d red label near far).walk d.other =
      far.walk d.other ++ label :: near.walk d.other := by
  cases d <;> rfl

theorem ColorTree.walk_other_mk (d : Dir) (red : Bool) (label : α) (near far : ColorTree α) :
    (ColorTree.mk d.other red label near far).walk d = far.walk d ++ label :: near.walk d := by
  cases d <;> rfl

@[simp] theorem ColorTree.walk_blacken (d : Dir) (t : ColorTree α) : t.blacken.walk d = t.walk d := by
  cases t <;> rfl

theorem ColorTree.walk_right (t : ColorTree α) : t.walk .right = (t.walk .left).reverse := by
  induction t with
  | leaf => rfl
  | node red label left right leftHypothesis rightHypothesis =>
    simp [ColorTree.walk, leftHypothesis, rightHypothesis]

theorem ColorTree.mem_walk (d : Dir) (t : ColorTree α) (label : α) :
    label ∈ t.walk d ↔ label ∈ t.walk .left := by
  cases d with
  | left => rfl
  | right => rw [t.walk_right, mem_reverse]

def before (d : Dir) : List (Frame α) → List α
  | [] => []
  | frame :: ctx =>
    if frame.dir = d then before d ctx
    else before d ctx ++ frame.brother.walk d ++ [frame.label]

def after (d : Dir) : List (Frame α) → List α
  | [] => []
  | frame :: ctx =>
    if frame.dir = d then frame.label :: (frame.brother.walk d ++ after d ctx)
    else after d ctx

theorem walk_plug (d : Dir) (ctx : List (Frame α)) (t : ColorTree α) :
    (plug ctx t).walk d = before d ctx ++ t.walk d ++ after d ctx := by
  induction ctx generalizing t with
  | nil => simp [before, after]
  | cons fr ctx ih =>
    obtain ⟨side, red, label, brother⟩ := fr
    rw [plug_cons, ih]
    by_cases same : side = d
    · subst same
      simp [before, after]
    · obtain rfl := Dir.eq_other_of_ne same
      simp [before, after, ColorTree.walk_other_mk]

theorem walk_plug_congr {e : Dir} {s t : ColorTree α} (same : s.walk e = t.walk e)
    (ctx : List (Frame α)) : (plug ctx s).walk e = (plug ctx t).walk e := by
  rw [walk_plug, walk_plug, same]

variable {near far : ColorTree α} {label : α}

theorem ColorTree.walk_mk_congr {e : Dir} {near' far' : ColorTree α}
    (sameNear : near.walk e = near'.walk e) (sameFar : far.walk e = far'.walk e) (red red' : Bool) :
    (ColorTree.mk d red label near far).walk e = (ColorTree.mk d red' label near' far').walk e := by
  rcases Dir.eq_or_eq_other d e with rfl | rfl <;> simp [sameNear, sameFar]

def labels : List (Frame α) → List α
  | [] => []
  | frame :: ctx => frame.label :: (frame.brother.walk .left ++ labels ctx)

/-- The labels of a tree, each once. -/
def ColorTree.Distinct (t : ColorTree α) : Prop := (t.walk .left).Nodup

variable {red : Bool}

theorem ColorTree.mem_mk {b : α} : b ∈ (ColorTree.mk d red label near far).walk .left ↔
      b = label ∨ b ∈ near.walk .left ∨ b ∈ far.walk .left := by
  cases d <;> simp [ColorTree.mk, ColorTree.walk] <;> tauto

theorem walk_mk_perm (d : Dir) (red : Bool) (label : α) (near far : ColorTree α) :
    ((ColorTree.mk d red label near far).walk .left).Perm
      (label :: (near.walk .left ++ far.walk .left)) := by
  cases d with
  | left => exact perm_middle
  | right => exact perm_middle.trans (List.Perm.cons _ perm_append_comm)

theorem walk_plug_perm (ctx : List (Frame α)) (t : ColorTree α) :
    ((plug ctx t).walk .left).Perm (t.walk .left ++ labels ctx) := by
  induction ctx generalizing t with
  | nil => simp [labels]
  | cons fr ctx ih =>
    refine (ih _).trans ?_
    refine ((walk_mk_perm _ _ _ _ _).append_right _).trans ?_
    simp only [cons_append, append_assoc]
    exact perm_middle.symm

theorem mem_plug {ctx : List (Frame α)} {t : ColorTree α} {b : α} :
    b ∈ (plug ctx t).walk .left ↔ b ∈ t.walk .left ∨ b ∈ labels ctx := by
  rw [(walk_plug_perm ctx t).mem_iff, mem_append]

theorem ColorTree.distinct_mk : (ColorTree.mk d red label near far).Distinct ↔
      label ∉ near.walk .left ∧ label ∉ far.walk .left ∧ near.Distinct ∧ far.Distinct ∧
        (near.walk .left).Disjoint (far.walk .left) := by
  rw [ColorTree.Distinct, (walk_mk_perm d red label near far).nodup_iff, nodup_cons,
    mem_append, nodup_append']
  tauto

theorem distinct_plug {ctx : List (Frame α)} {t : ColorTree α} : (plug ctx t).Distinct ↔
      t.Distinct ∧ (labels ctx).Nodup ∧ (t.walk .left).Disjoint (labels ctx) := by
  rw [ColorTree.Distinct, (walk_plug_perm ctx t).nodup_iff, nodup_append']
  exact Iff.rfl

theorem distinct_focus {ctx : List (Frame α)} {a : α}
    (dist : (plug ctx (ColorTree.mk d red a near far)).Distinct) :
    a ∉ near.walk .left ∧ a ∉ far.walk .left ∧ a ∉ labels ctx ∧
      near.Distinct ∧ far.Distinct ∧ (labels ctx).Nodup ∧
      (near.walk .left).Disjoint (far.walk .left) ∧
      (near.walk .left).Disjoint (labels ctx) ∧ (far.walk .left).Disjoint (labels ctx) := by
  obtain ⟨top, ctxDistinct, apart⟩ := distinct_plug.mp dist
  obtain ⟨nearFresh, farFresh, nearDistinct, farDistinct, sides⟩ := ColorTree.distinct_mk.mp top
  refine ⟨nearFresh, farFresh, ?_, nearDistinct, farDistinct, ctxDistinct, sides, ?_, ?_⟩
  · exact fun mem => apart (ColorTree.mem_mk.mpr (.inl rfl)) mem
  · exact fun b inNear mem => apart (ColorTree.mem_mk.mpr (.inr (.inl inNear))) mem
  · exact fun b inFar mem => apart (ColorTree.mem_mk.mpr (.inr (.inr inFar))) mem

theorem walk_rotate (ctx : List (Frame α)) (d e : Dir) (c cc : Bool) (f g : α)
    (x m y : ColorTree α) : (plug ctx (ColorTree.mk d c g x (ColorTree.mk d cc f m y))).walk e =
      (plug ctx (ColorTree.mk d c f (ColorTree.mk d cc g x m) y)).walk e := by
  rw [walk_plug, walk_plug]
  rcases Dir.eq_or_eq_other d e with rfl | rfl <;> simp

theorem ColorTree.mem_of_label? {t : ColorTree α} {b : α} (top : t.label? = some b) :
    b ∈ t.walk .left := by
  cases t with
  | leaf => simp at top
  | node red label left right =>
    obtain rfl : label = b := Option.some.inj top
    simp [ColorTree.walk]

theorem length_le_labels (ctx : List (Frame α)) : ctx.length ≤ (labels ctx).length := by
  induction ctx with
  | nil => simp
  | cons fr ctx ih =>
    simp only [labels, length_cons, length_append]
    omega

theorem length_le_walk (ctx : List (Frame α)) (t : ColorTree α) :
    ctx.length ≤ ((plug ctx t).walk .left).length := by
  have total := (walk_plug_perm ctx t).length_eq
  have bound := length_le_labels ctx
  rw [length_append] at total
  omega

theorem ColorTree.Distinct.walk {t : ColorTree α} (dist : t.Distinct) (d : Dir) :
    (t.walk d).Nodup := by
  cases d with
  | left => exact dist
  | right =>
    rw [ColorTree.walk_right, nodup_reverse]
    exact dist

/-- What the walk passes after an object is what lies ahead of it and what its context passes
after the hole. -/
theorem walk_ahead {w : Dir} {ctx : List (Frame α)} {a : α} {ahead tail : ColorTree α}
    (dist : (plug ctx (ColorTree.mk w red a ahead tail)).Distinct) {pre rest : List α}
    (split : (plug ctx (ColorTree.mk w red a ahead tail)).walk w.other = pre ++ a :: rest) :
    ahead.walk w.other ++ after w.other ctx = rest := by
  have nodup := dist.walk w.other
  rw [walk_plug, ColorTree.walk_mk_other] at split nodup
  simp only [append_assoc] at split nodup
  rw [← append_assoc] at split nodup
  obtain ⟨-, rightNodup, apart⟩ := nodup_append'.mp nodup
  have fresh := (nodup_cons.mp rightNodup).1
  have sameParts := (append_cons_inj_of_notMem
    (fun isIn => apart isIn mem_cons_self) fresh).mp split
  exact sameParts.2.2

theorem exists_plug_of_mem {t : ColorTree α} (mem : label ∈ t.walk .left) :
    ∃ ctx red left right, t = plug ctx (.node red label left right) := by
  induction t with
  | leaf => simp at mem
  | node red top left right leftHypothesis rightHypothesis =>
    simp only [ColorTree.walk, mem_append, mem_cons] at mem
    rcases mem with inLeft | isTop | inRight
    · obtain ⟨ctx, subRed, subLeft, subRight, equal⟩ := leftHypothesis inLeft
      refine ⟨ctx ++ [⟨.left, red, top, right⟩], subRed, subLeft, subRight, ?_⟩
      rw [plug_append, ← equal]
      rfl
    · subst isTop
      exact ⟨[], red, left, right, rfl⟩
    · obtain ⟨ctx, subRed, subLeft, subRight, equal⟩ := rightHypothesis inRight
      refine ⟨ctx ++ [⟨.right, red, top, left⟩], subRed, subLeft, subRight, ?_⟩
      rw [plug_append, ← equal]
      rfl

end Walk

end NetBSD.Zipper
