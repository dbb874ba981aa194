import Mathlib.Algebra.Order.Ring.Nat
import NetBSD.Zipper.Tree

/-!
Owns the balance of red-black trees: no red node has a red child and every path
to a leaf passes the same number of black nodes. Balance of a whole tree splits
into balance of a subtree and of its context, which meet in the black height and
in one condition on the two colours.
-/

namespace NetBSD.Zipper

open ColorTree

universe u

variable {α : Type u}

def ColorTree.Valid : Nat → ColorTree α → Prop
  | height, .leaf => height = 0
  | height, .node true _ left right =>
    left.isRed = false ∧ right.isRed = false ∧ left.Valid height ∧ right.Valid height
  | height, .node false _ left right =>
    ∃ below, height = below + 1 ∧ left.Valid below ∧ right.Valid below

@[simp] theorem ColorTree.valid_leaf (height : Nat) :
    (leaf : ColorTree α).Valid height ↔ height = 0 := Iff.rfl

section Valid

variable {d : Dir} {label : α} {near far t : ColorTree α} {height : Nat}

@[simp] theorem ColorTree.valid_red : (mk d true label near far).Valid height ↔
      near.isRed = false ∧ far.isRed = false ∧ near.Valid height ∧ far.Valid height := by
  cases d
  · rfl
  · simp only [mk, Valid]
    tauto

theorem ColorTree.valid_black : (mk d false label near far).Valid height ↔
      ∃ below, height = below + 1 ∧ near.Valid below ∧ far.Valid below := by
  cases d
  · rfl
  · simp only [mk]
    exact exists_congr fun below => and_congr Iff.rfl and_comm

@[simp] theorem ColorTree.valid_black_succ :
    (mk d false label near far).Valid (height + 1) ↔
      near.Valid height ∧ far.Valid height := by
  rw [valid_black]
  constructor
  · rintro ⟨below, equal, nearValid, farValid⟩
    obtain rfl : height = below := Nat.succ.inj equal
    exact ⟨nearValid, farValid⟩
  · rintro ⟨nearValid, farValid⟩
    exact ⟨height, rfl, nearValid, farValid⟩

theorem ColorTree.Valid.eq_leaf (valid : t.Valid 0) (black : t.isRed = false) : t = .leaf := by
  cases t with
  | leaf => rfl
  | node red label left right =>
    obtain rfl : red = false := black
    obtain ⟨below, equal, _⟩ := valid
    omega

theorem ColorTree.Valid.exists_mk (valid : t.Valid (height + 1)) (d : Dir) :
    ∃ red label near far, t = mk d red label near far := by
  cases t with
  | leaf => simp at valid
  | node red label left right =>
    obtain ⟨near, far, equal⟩ := node_eq_mk d red label left right
    exact ⟨red, label, near, far, equal⟩

theorem ColorTree.exists_mk_of_red (red : t.isRed = true) (d : Dir) :
    ∃ label near far, t = mk d true label near far := by
  cases t with
  | leaf => simp at red
  | node color label left right =>
    obtain rfl : color = true := red
    obtain ⟨near, far, equal⟩ := node_eq_mk d true label left right
    exact ⟨label, near, far, equal⟩

theorem ColorTree.Valid.eq_single (valid : t.Valid 0) (red : t.isRed = true) (d : Dir) :
    ∃ label, t = mk d true label .leaf .leaf := by
  obtain ⟨label, near, far, rfl⟩ := exists_mk_of_red red d
  obtain ⟨nearBlack, farBlack, nearValid, farValid⟩ := valid_red.mp valid
  obtain rfl := nearValid.eq_leaf nearBlack
  obtain rfl := farValid.eq_leaf farBlack
  exact ⟨label, rfl⟩

theorem ColorTree.Valid.blacken (valid : t.Valid height) (red : t.isRed = true) :
    t.blacken.Valid (height + 1) := by
  obtain ⟨label, near, far, rfl⟩ := exists_mk_of_red red .left
  obtain ⟨-, -, nearValid, farValid⟩ := valid_red.mp valid
  rw [blacken_mk, valid_black_succ]
  exact ⟨nearValid, farValid⟩

theorem ColorTree.Valid.two_pow_le (valid : t.Valid height) :
    2 ^ height ≤ (t.walk .left).length + 1 := by
  induction t generalizing height with
  | leaf => simp_all
  | node red label left right ihLeft ihRight =>
    simp only [walk, List.length_append, List.length_cons]
    cases red with
    | true =>
      have := ihLeft valid.2.2.1
      omega
    | false =>
      obtain ⟨below, rfl, leftValid, rightValid⟩ := valid
      have := ihLeft leftValid
      have := ihRight rightValid
      omega

end Valid

/-- Whether the hole of a context must be filled with a black tree. -/
def topRed : List (Frame α) → Bool
  | [] => true
  | frame :: _ => frame.red

@[simp] theorem topRed_nil : topRed ([] : List (Frame α)) = true := rfl

@[simp] theorem topRed_cons (fr : Frame α) (ctx : List (Frame α)) :
    topRed (fr :: ctx) = fr.red := rfl

/-- A context whose hole takes a tree of the given height. -/
def CtxValid : Nat → List (Frame α) → Prop
  | _, [] => True
  | height, frame :: ctx =>
    frame.brother.Valid height ∧ (if frame.red then
        frame.brother.isRed = false ∧ topRed ctx = false ∧ CtxValid height ctx
      else CtxValid (height + 1) ctx)

section Balance

variable {d : Dir} {label : α} {brother : ColorTree α} {ctx : List (Frame α)} {height : Nat}

@[simp] theorem ctxValid_nil : CtxValid height ([] : List (Frame α)) := trivial

@[simp] theorem ctxValid_red : CtxValid height (⟨d, true, label, brother⟩ :: ctx) ↔
      brother.Valid height ∧ brother.isRed = false ∧ topRed ctx = false ∧
        CtxValid height ctx := Iff.rfl

@[simp] theorem ctxValid_black : CtxValid height (⟨d, false, label, brother⟩ :: ctx) ↔
      brother.Valid height ∧ CtxValid (height + 1) ctx := by
  simp [CtxValid]

def ColorTree.Balanced (t : ColorTree α) : Prop := t.isRed = false ∧ ∃ height, t.Valid height

theorem balanced_plug_iff (ctx : List (Frame α)) (t : ColorTree α) : (plug ctx t).Balanced ↔
      ∃ height, t.Valid height ∧ CtxValid height ctx ∧ (topRed ctx = true → t.isRed = false) := by
  induction ctx generalizing t with
  | nil =>
    simp only [plug_nil, ColorTree.Balanced, ctxValid_nil, topRed_nil, true_and, true_imp_iff]
    exact ⟨fun ⟨black, height, valid⟩ => ⟨height, valid, black⟩,
      fun ⟨height, valid, black⟩ => ⟨black, height, valid⟩⟩
  | cons fr ctx ih =>
    obtain ⟨d, red, label, brother⟩ := fr
    rw [plug_cons, ih]
    cases red with
    | true =>
      refine exists_congr fun height => ?_
      simp only [valid_red, ctxValid_red]
      cases topRed ctx
      · simp only [reduceCtorEq]
        tauto
      · simp
    | false =>
      simp only [topRed_cons]
      constructor
      · rintro ⟨_, valid, outer, _⟩
        obtain ⟨below, rfl, tValid, brotherValid⟩ := valid_black.mp valid
        exact ⟨below, tValid, ⟨brotherValid, outer⟩, nofun⟩
      · rintro ⟨below, tValid, ⟨brotherValid, outer⟩, _⟩
        exact ⟨below + 1, valid_black_succ.mpr ⟨tValid, brotherValid⟩, outer, by simp⟩

theorem ctxValid_relabel (inner : List (Frame α)) (red : Bool) (oth : α) :
    CtxValid height (inner ++ ⟨d, red, label, brother⟩ :: ctx) ↔
      CtxValid height (inner ++ ⟨d, red, oth, brother⟩ :: ctx) := by
  have topSame : ∀ tl : List (Frame α), topRed (tl ++ ⟨d, red, label, brother⟩ :: ctx) =
        topRed (tl ++ ⟨d, red, oth, brother⟩ :: ctx) := by
    intro tl
    cases tl <;> rfl
  induction inner generalizing height with
  | nil => exact Iff.rfl
  | cons fr inner ih =>
    obtain ⟨side, color, top, sub⟩ := fr
    cases color <;>
      simp only [List.cons_append, ctxValid_red, ctxValid_black, topSame inner, ih]

end Balance

end NetBSD.Zipper
