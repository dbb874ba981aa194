import NetBSD.Zipper.Tree

/-!
Owns the red-black trees of `common/lib/libc/gen/rb.c` as they lie in memory: the
node records with their child links, their father pointer and their two flag
bits, and the insertion, removal and iteration code on them, in the default
configuration (without `RBSMALL`, `RBDEBUG` and `RBSTATS`). An object is
identified with the node embedded in it.

A function returns `none` where the code would follow a null pointer or read the
tree header as a node, and when a loop has used up its fuel.
-/

namespace NetBSD.Gen

open NetBSD.Zipper (Dir)

universe u

/-- A `struct rb_node *` that may also be `&rbt->rbt_root`, the father of the root:
the code writes the root through `rb_nodes[RB_DIR_LEFT]` of that address. -/
inductive Ref (α : Type u) where
  | null
  | anchor
  | node (object : α)
  deriving DecidableEq, Repr

/-- `struct rb_node`, with `rb_info` split into its pointer and its flags. -/
structure RbNode (α : Type u) where
  nodes : Dir → Option α
  father : Ref α
  red : Bool
  position : Dir

/-- `struct rb_tree`, with the memory its nodes lie in. -/
structure RbTree (α : Type u) where
  root : Option α
  minmax : Dir → Ref α
  mem : α → RbNode α

section Access

variable {α : Type u} [DecidableEq α]

/-- The object a pointer leads to, where it leads to one. -/
def Ref.object : Ref α → Option α
  | .node a => some a
  | _ => none

def RbTree.modify (t : RbTree α) (a : α) (write : RbNode α → RbNode α) : RbTree α :=
  { t with mem := fun b => if b = a then write (t.mem a) else t.mem b }

def RbTree.setNode (t : RbTree α) (a : α) (d : Dir) (v : Option α) : RbTree α :=
  t.modify a fun n => { n with nodes := fun e => if e = d then v else n.nodes e }

def RbTree.setFather (t : RbTree α) (a : α) (father : Ref α) : RbTree α :=
  t.modify a fun n => { n with father := father }

def RbTree.setPosition (t : RbTree α) (a : α) (position : Dir) : RbTree α :=
  t.modify a fun n => { n with position := position }

def RbTree.markRed (t : RbTree α) (a : α) : RbTree α :=
  t.modify a fun n => { n with red := true }

def RbTree.markBlack (t : RbTree α) (a : α) : RbTree α :=
  t.modify a fun n => { n with red := false }

def RbTree.copyProperties (t : RbTree α) (dst src : α) : RbTree α :=
  t.modify dst fun n => { n with red := (t.mem src).red, position := (t.mem src).position }

def RbTree.swapProperties (t : RbTree α) (a b : α) : RbTree α :=
  (t.modify a fun n => { n with red := (t.mem b).red, position := (t.mem b).position }).modify b
    fun n => { n with red := (t.mem a).red, position := (t.mem a).position }

def RbTree.setMinmax (t : RbTree α) (d : Dir) (v : Ref α) : RbTree α :=
  { t with minmax := fun e => if e = d then v else t.minmax e }

def RbTree.child (t : RbTree α) : Ref α → Dir → Option (Option α)
  | .node a, d => some ((t.mem a).nodes d)
  | .anchor, .left => some t.root
  | _, _ => none

/-- `rb->rb_nodes[d] = v` for a pointer that may be the address of the root. -/
def RbTree.setChild (t : RbTree α) (rb : Ref α) (d : Dir) (v : Option α) : Option (RbTree α) :=
  match rb, d with
  | .node a, d => some (t.setNode a d v)
  | .anchor, .left => some { t with root := v }
  | _, _ => none

def RbTree.redP (t : RbTree α) : Option α → Bool
  | none => false
  | some a => (t.mem a).red

def RbTree.rootP (t : RbTree α) (a : α) : Bool := t.root = some a

end Access

section Code

variable {α : Type u} [DecidableEq α]

def rbTreeInit (mem : α → RbNode α) : RbTree α := ⟨none, fun _ => .null, mem⟩

def rbTreeReparentNodes (t : RbTree α) (oldFather : α) (which : Dir) : Option (RbTree α) := do
  let other := which.other
  let grandpa := (t.mem oldFather).father
  let oldChild ← (t.mem oldFather).nodes which
  let newFather := oldChild
  let newChild := oldFather
  -- Exchange descendant linkages.
  let t ← t.setChild grandpa (t.mem oldFather).position (some newFather)
  let t := t.setNode newChild which ((t.mem oldChild).nodes other)
  let t := t.setNode newFather other (some newChild)
  -- Update ancestor linkages.
  let t := t.setFather newFather grandpa
  let t := t.setFather newChild (.node newFather)
  let t := t.swapProperties newFather newChild
  let t := t.setPosition newChild other
  match (t.mem newChild).nodes which with
  | none => some t
  | some son => some ((t.setFather son (.node newChild)).setPosition son which)

def insertRebalanceFinish (t : RbTree α) (self father grandpa : α) (which : Dir) :
    Option (RbTree α) := do
  let other := which.other
  let t ← if (t.mem father).nodes other = some self
    then rbTreeReparentNodes t father other
    else some t
  let t ← rbTreeReparentNodes t grandpa which
  let root ← t.root
  some (t.markBlack root)

/-- The loop of `rb_tree_insert_rebalance`: case 1, a red uncle, moves two levels up. -/
def insertRebalanceLoop : Nat → RbTree α → α → α → Option (RbTree α)
  | 0, _, _, _ => none
  | fuel + 1, t, self, father => do
      let grandpa ← (t.mem father).father.object
      let which := if (t.mem grandpa).nodes .right = some father then Dir.right else Dir.left
      match (t.mem grandpa).nodes which.other with
      | none => insertRebalanceFinish t self father grandpa which
      | some uncle =>
        if (t.mem uncle).red then
          let t := (t.markBlack uncle).markBlack father
          if t.rootP grandpa then some t
          else
            let t := t.markRed grandpa
            let self := grandpa
            let father ← (t.mem self).father.object
            if (t.mem father).red then insertRebalanceLoop fuel t self father
            else some t
        else insertRebalanceFinish t self father grandpa which

def rbTreeInsertRebalance (fuel : Nat) (t : RbTree α) (self : α) : Option (RbTree α) := do
  let father ← (t.mem self).father.object
  insertRebalanceLoop fuel t self father

/-- The search of `rb_tree_insert_node`: an object that compares equal, or the
pointer and the side where the new leaf goes. -/
def insertSearch (compareNodes : α → α → Int) (t : RbTree α) (object : α) :
    Nat → Option α → Ref α → Dir → Option (α ⊕ Ref α × Dir)
  | 0, _, _, _ => none
  | _ + 1, none, parent, position => some (.inr (parent, position))
  | fuel + 1, some tobj, _, _ =>
    let diff := compareNodes tobj object
    if diff = 0 then some (.inl tobj)
    else
      let position := if diff < 0 then Dir.right else Dir.left
      insertSearch compareNodes t object fuel ((t.mem tobj).nodes position) (.node tobj) position

def linkLeaf (t : RbTree α) (parent : Ref α) (position : Dir) (self : α) : Option (RbTree α) := do
  let sentinel ← t.child parent position
  let t := (t.setNode self .left sentinel).setNode self .right sentinel
  t.setChild parent position (some self)

def rbTreeInsertNode (compareNodes : α → α → Int) (fuel : Nat) (t : RbTree α) (self : α) :
    Option (RbTree α × α) := do
  match ← insertSearch compareNodes t self fuel t.root .anchor .left with
  | .inl tobj => some (t, tobj)
  | .inr (parent, position) =>
    let t := (t.setFather self parent).setPosition self position
    match parent with
    | .null => none
    | .anchor =>
      let t := (t.markBlack self).setMinmax .left (.node self)
      let t := t.setMinmax .right (.node self)
      let t ← linkLeaf t parent position self
      some (t, self)
    | .node father =>
      let t := if t.minmax position = parent then t.setMinmax position (.node self) else t
      let t := t.markRed self
      let rebalance := (t.mem father).red
      let t ← linkLeaf t parent position self
      if rebalance then
        let t ← rbTreeInsertRebalance fuel t self
        some (t, self)
      else some (t, self)

def removalRebalanceFinish (t : RbTree α) (parent brother : α) (which : Dir) :
    Option (RbTree α) := do
  let other := which.other
  if (t.mem parent).red && !(t.mem brother).red
      && !t.redP ((t.mem brother).nodes .left) && !t.redP ((t.mem brother).nodes .right) then
    some ((t.markBlack parent).markRed brother)
  else
    let (t, brother) ← if t.redP ((t.mem brother).nodes other) then some (t, brother)
      else do
        -- Case 3: swap our brother with our near nephew.
        let t ← rbTreeReparentNodes t brother which
        let brother ← (t.mem parent).nodes other
        some (t, brother)
    let nephew ← (t.mem brother).nodes other
    rbTreeReparentNodes (t.markBlack nephew) parent other

def rbTreeRemovalRebalance : Nat → RbTree α → Ref α → Dir → Option (RbTree α)
  | 0, _, _, _ => none
  | fuel + 1, t, parent, which => do
      let parent ← parent.object
      if t.redP ((t.mem parent).nodes which) then some t
      else
        let other := which.other
        let brother ← (t.mem parent).nodes other
        if !(t.mem parent).red && !t.redP ((t.mem brother).nodes .left)
            && !t.redP ((t.mem brother).nodes .right) then
          if (t.mem brother).red then
            -- Case 1: swap our red brother with our parent.
            let t ← rbTreeReparentNodes t parent other
            let brother ← (t.mem parent).nodes other
            removalRebalanceFinish t parent brother which
          else
            -- Case 2a: paint our brother red and advance up.
            let t := t.markRed brother
            if t.rootP parent then some t
            else rbTreeRemovalRebalance fuel t (t.mem parent).father (t.mem parent).position
        else removalRebalanceFinish t parent brother which

def rbTreePruneNode (fuel : Nat) (t : RbTree α) (self : α) (rebalance : Bool) :
    Option (RbTree α) := do
  let which := (t.mem self).position
  let father := (t.mem self).father
  let wasRoot := t.rootP self
  let t ← t.setChild father which ((t.mem self).nodes .left)
  let position := (t.mem self).position
  let t := if t.minmax position = .node self then
      let t := t.setMinmax position father
      if wasRoot then t.setMinmax .right father else t
    else t
  let t := t.setFather self .null
  if rebalance then rbTreeRemovalRebalance fuel t father which else some t

def rbTreePruneBlackredBranch (t : RbTree α) (self : α) (which : Dir) : Option (RbTree α) := do
  let father := (t.mem self).father
  let son ← (t.mem self).nodes which
  let wasRoot := t.rootP self
  let t := t.copyProperties son self
  let t ← t.setChild father (t.mem son).position (some son)
  let t := t.setFather son father
  let t := if wasRoot then t.setMinmax which.other (.node son)
    else if t.minmax (t.mem self).position = .node self then
      t.setMinmax (t.mem self).position (.node son)
    else t
  some (t.setFather self .null)

/-- The stand-in's son, where it is red, is painted black and, where the stand-in is no
child of the removed node, moved up; the flag says whether to rebalance. -/
def adoptStandinSon (t : RbTree α) (self standin : α) (standinSon : Option α) : RbTree α × Bool :=
  let standinWhich := (t.mem standin).position
  let standinFather := (t.mem standin).father
  match standinSon with
  | none => (t, !(t.mem standin).red)
  | some son =>
    if (t.mem son).red then
      let t := t.markBlack son
      if standinFather = .node self then (t, false)
      else ((t.setFather son standinFather).setPosition son standinWhich, false)
    else (t, !(t.mem standin).red)

def severStandin (t : RbTree α) (self standin : α) (standinFather : Ref α) (standinWhich : Dir)
    (standinSon : Option α) : Option (RbTree α) := do
  let standinOther := standinWhich.other
  let t ← t.setChild standinFather standinWhich standinSon
  let t := t.setNode standin standinOther ((t.mem self).nodes standinOther)
  let farSon ← (t.mem standin).nodes standinOther
  some (t.setFather farSon (.node standin))

def replaceSelf (t : RbTree α) (self standin : α) (standinOther : Dir) : Option (RbTree α) := do
  let t := t.setNode standin standinOther ((t.mem self).nodes standinOther)
  let son ← (t.mem standin).nodes standinOther
  let t := t.setFather son (.node standin)
  let t := t.copyProperties standin self
  let t := t.setFather standin (t.mem self).father
  let t ← t.setChild (t.mem standin).father (t.mem standin).position (some standin)
  let position := (t.mem self).position
  let t := if t.minmax position = .node self then t.setMinmax position (t.mem self).father else t
  some (t.setFather self .null)

def rbTreeSwapPruneAndRebalance (fuel : Nat) (t : RbTree α) (self standin : α) :
    Option (RbTree α) := do
  let standinWhich := (t.mem standin).position
  let standinOther := standinWhich.other
  let standinFather := (t.mem standin).father
  if standinFather = .node self then
    let (t, rebalance) := adoptStandinSon t self standin ((t.mem standin).nodes standinWhich)
    let t ← replaceSelf t self standin standinOther
    if rebalance then rbTreeRemovalRebalance fuel t (.node standin) standinWhich else some t
  else
    let standinSon := (t.mem standin).nodes standinOther
    let (t, rebalance) := adoptStandinSon t self standin standinSon
    let t ← severStandin t self standin standinFather standinWhich standinSon
    -- Use standin_which in place of standin_other for the son that remains.
    let t ← replaceSelf t self standin standinWhich
    if rebalance then rbTreeRemovalRebalance fuel t standinFather standinWhich else some t

/-- The first loop of `rb_tree_iterate`: up until our parent is in the direction we
want to go. -/
def iterateUp (t : RbTree α) (other : Dir) : Nat → α → Option (Option α)
  | 0, _ => none
  | fuel + 1, self =>
    if t.rootP self then some none
    else do
      let father ← (t.mem self).father.object
      if other = (t.mem self).position then some (some father)
      else iterateUp t other fuel father

def iterateDown (t : RbTree α) (other : Dir) : Nat → α → Option α
  | 0, _ => none
  | fuel + 1, self =>
    match (t.mem self).nodes other with
    | none => some self
    | some next => iterateDown t other fuel next

def rbTreeIterate (fuel : Nat) (t : RbTree α) (object : Option α) (direction : Dir) :
    Option (Option α) :=
  let other := direction.other
  match object with
  | none =>
    if t.root = none then some none
    else do
      let extreme ← (t.minmax direction).object
      some (some extreme)
  | some self =>
    match (t.mem self).nodes direction with
    | none => iterateUp t other fuel self
    | some next => do
        let reached ← iterateDown t other fuel next
        some (some reached)

def rbTreeRemoveNode (fuel : Nat) (t : RbTree α) (self : α) : Option (RbTree α) := do
  let left := (t.mem self).nodes .left
  let right := (t.mem self).nodes .right
  if left = none ∧ right = none then
    rbTreePruneNode fuel t self (!(t.mem self).red && !t.rootP self)
  else if left = none ∨ right = none then
    let which := if left = none then Dir.right else Dir.left
    rbTreePruneBlackredBranch t self which
  else
    -- We prefer to remove from the inside of the tree.
    let which := (t.mem self).position.other
    let standin ← rbTreeIterate fuel t (some self) which
    let standin ← standin
    rbTreeSwapPruneAndRebalance fuel t self standin

end Code

end NetBSD.Gen
