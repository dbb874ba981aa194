import Mathlib.Data.BitVec
import NetBSD.Arith.WordBits

/-!
Owns the radix trees of `common/lib/libc/gen/radixtree.c` without its gang lookups.

Every intermediate node has one parent, so an entry holds what it points to beside
the tag bits that are kept in its two low bits. A `struct radix_tree_path` is the
list of the nodes on the way, the innermost first; a store through one of its
pointers is a change of the entry that the list leads to. The functions return
`none` where an assertion of the code fails or a leaf is taken for a node.
-/

namespace NetBSD.Gen.Radixtree

variable {α : Type}

/-- The bits under `RADIX_TREE_TAG_MASK`. -/
abbrev Tags := BitVec 2

/-- An element of `n_ptrs`, or `t_root`. -/
inductive Entry (α : Type) where
  | null
  | leaf (ptr : α) (tagmask : Tags)
  | node (nPtrs : Fin 16 → Entry α) (nNptrs : Nat) (tagmask : Tags)

def Entry.isNull : Entry α → Bool
  | .null => true
  | _ => false

def Entry.entryTagmask : Entry α → Tags
  | .null => 0
  | .leaf _ tagmask => tagmask
  | .node _ _ tagmask => tagmask

def Entry.entryCompose (entry : Entry α) (tagmask : Tags) : Entry α :=
  match entry with
  | .null => .null
  | .leaf ptr _ => .leaf ptr tagmask
  | .node nPtrs nNptrs _ => .node nPtrs nNptrs tagmask

def tagidToMask (id : Fin 2) : Tags := 1#2 <<< id.val

def anyChildrenTagmask (nPtrs : Fin 16 → Entry α) : Tags :=
  (List.finRange 16).foldl (fun mask i => mask ||| (nPtrs i).entryTagmask) 0

structure RadixTree (α : Type) where
  tRoot : Entry α
  tHeight : Nat

def radixTreeInitTree : RadixTree α := ⟨.null, 0⟩

def radixTreeEmptyTreeP (t : RadixTree α) : Bool := t.tRoot.isNull

def radixTreeEmptyTaggedTreeP (t : RadixTree α) (tagid : Fin 2) : Bool :=
  t.tRoot.entryTagmask &&& tagidToMask tagid = 0

/-! ### Paths -/

/-- A node on the way, with the tag bits of the entry for it and the slot that is followed. -/
structure Frame (α : Type) where
  nPtrs : Fin 16 → Entry α
  nNptrs : Nat
  tagmask : Tags
  slot : Fin 16

/-- The children of the node after a store into the slot. -/
def Frame.stored (frame : Frame α) (entry : Entry α) : Fin 16 → Entry α :=
  Function.update frame.nPtrs frame.slot entry

/-- The entry for the node after a store into the slot. -/
def Frame.plug (frame : Frame α) (entry : Entry α) : Entry α :=
  .node (frame.stored entry) frame.nNptrs frame.tagmask

/-- The root after a store into the innermost slot. -/
def rebuild : List (Frame α) → Entry α → Entry α
  | [], entry => entry
  | frame :: path, entry => rebuild path (frame.plug entry)

/-- `n->n_nptrs++` for the innermost node, if there is one. -/
def bump : List (Frame α) → List (Frame α)
  | [] => []
  | frame :: path => { frame with nNptrs := frame.nNptrs + 1 } :: path

/-! ### Looking up -/

def slot (idx : BitVec 64) (shift : Nat) : Fin 16 := Fin.ofNat 16 (idx >>> shift).toNat

def overRoot (root : Entry α) : Fin 16 → Entry α := Function.update (fun _ => .null) 0 root

/-- The loop of `radix_tree_grow` for so many levels, with so many nodes to be had; no number
stands for `ENOMEM`. -/
def growLoop (tagmask : Tags) : Nat → Nat → RadixTree α → Option Nat × RadixTree α
  | 0, avail, t => (some avail, t)
  | _ + 1, 0, t => (none, t)
  | levels + 1, avail + 1, t =>
    growLoop tagmask levels avail ⟨.node (overRoot t.tRoot) 1 tagmask, t.tHeight + 1⟩

def radixTreeGrow (avail newheight : Nat) (t : RadixTree α) : Option Nat × RadixTree α :=
  if t.tRoot.isNull then (some avail, { t with tHeight := newheight })
  else growLoop t.tRoot.entryTagmask (newheight - t.tHeight) avail t

/-- What `radix_tree_lookup_ptr` returns, with the tree as it stands: a place, or null since the
way ends, since the tree is not high enough, or for want of memory. -/
inductive Lookup (α : Type) where
  | found (height : Nat) (path : List (Frame α)) (entry : Entry α)
  | missing (height : Nat) (path : List (Frame α)) (entry : Entry α)
  | short
  | enomem (height : Nat) (path : List (Frame α)) (entry : Entry α)

/-- The loop of `radix_tree_lookup_ptr` for the shifts below `4 * levels`. `alloc` is set by the
number of nodes to be had. -/
def lookupLoop (idx : BitVec 64) (tagmask : Tags) :
    Nat → Nat → Option Nat → List (Frame α) → Entry α → Option (Lookup α)
  | 0, height, none, path, entry => some (.found height path entry)
  | 0, height, some _, path, entry =>
    if entry.isNull then some (.found height (bump path) entry) else none
  | level + 1, height, alloc, path, entry =>
    let descend (height : Nat) (alloc : Option Nat) (entry : Entry α) : Option (Lookup α) :=
      if entry.isNull ∨ (tagmask ≠ 0 ∧ entry.entryTagmask &&& tagmask = 0) then
        match alloc with
        | none => some (.missing height path entry)
        | some 0 => some (.enomem height path entry)
        | some (avail + 1) =>
          lookupLoop idx tagmask level height (some avail)
            (⟨fun _ => .null, 0, 0, slot idx (4 * level)⟩ :: bump path) .null
      else
        match entry with
        | .node nPtrs nNptrs mask =>
          lookupLoop idx tagmask level height alloc
            (⟨nPtrs, nNptrs, mask, slot idx (4 * level)⟩ :: path)
            (nPtrs (slot idx (4 * level)))
        | _ => none
    if 4 * height ≤ 4 * level then
      if slot idx (4 * level) = 0 then lookupLoop idx tagmask level height alloc path entry
      else
        match alloc with
        | none => some .short
        | some avail =>
          match radixTreeGrow avail (level + 1) ⟨entry, height⟩ with
          | (none, t) => some (.enomem t.tHeight path t.tRoot)
          | (some avail, t) => descend t.tHeight (some avail) t.tRoot
    else descend height alloc entry

def radixTreeLookupPtr (t : RadixTree α) (idx : BitVec 64) (alloc : Option Nat) (tagmask : Tags) :
    Option (Lookup α) :=
  lookupLoop idx tagmask 16 t.tHeight alloc [] t.tRoot

def radixTreeLookupNode (t : RadixTree α) (idx : BitVec 64) : Option (Option α) :=
  match radixTreeLookupPtr t idx none 0 with
  | some (.found _ _ .null) => some none
  | some (.found _ _ (.leaf ptr _)) => some (some ptr)
  | some (.missing _ _ _) => some none
  | some .short => some none
  | _ => none

def radixTreeGetTag (t : RadixTree α) (idx : BitVec 64) (tagid : Fin 2) : Option Bool :=
  match radixTreeLookupPtr t idx none (tagidToMask tagid) with
  | some (.found _ _ entry) =>
    if entry.isNull then none else some (entry.entryTagmask &&& tagidToMask tagid ≠ 0)
  | some (.missing _ _ _) => some false
  | some .short => some false
  | _ => none

/-! ### Changing the tree -/

/-- The error of `radix_tree_insert_node`. -/
inductive Errno where
  | ok
  | enomem
  deriving DecidableEq, Repr

def radixTreeInsertNode (avail : Nat) (t : RadixTree α) (idx : BitVec 64) (p : α) :
    Option (Errno × RadixTree α) :=
  match radixTreeLookupPtr t idx (some avail) 0 with
  | some (.found height path entry) =>
    if entry.isNull then some (.ok, ⟨rebuild path (.leaf p 0), height⟩) else none
  | some (.enomem height path entry) => some (.enomem, ⟨rebuild path entry, height⟩)
  | _ => none

def radixTreeReplaceNode (t : RadixTree α) (idx : BitVec 64) (p : α) : Option (α × RadixTree α) :=
  match radixTreeLookupPtr t idx none 0 with
  | some (.found _ path (.leaf oldp tagmask)) =>
    some (oldp, { t with tRoot := rebuild path (.leaf p tagmask) })
  | _ => none

/-- The loop of `radix_tree_remove_node` that frees nodes, after a null has been stored in the
innermost slot; nothing is left when the root is null. -/
def freeLoop : List (Frame α) → Option (Option (Entry α × List (Frame α)))
  | [] => some none
  | frame :: path =>
    if frame.nNptrs = 0 then none
    else if frame.nNptrs - 1 > 0 then
      some (some (.node (frame.stored .null) (frame.nNptrs - 1) frame.tagmask, path))
    -- `radix_tree_node_clean_p`
    else if ∀ i, (frame.stored .null i).isNull then freeLoop path
    else none

/-- The loop of `radix_tree_remove_node` that updates tags. -/
def retagLoop : List (Frame α) → Entry α → Option (Entry α)
  | path, .node nPtrs nNptrs tagmask =>
    if nNptrs = 0 then none
    else if anyChildrenTagmask nPtrs = tagmask then
      some (rebuild path (.node nPtrs nNptrs tagmask))
    else
      match path with
      | [] => some (.node nPtrs nNptrs (anyChildrenTagmask nPtrs))
      | frame :: path => retagLoop path (frame.plug (.node nPtrs nNptrs (anyChildrenTagmask nPtrs)))
  | _, _ => none

def radixTreeRemoveNode (t : RadixTree α) (idx : BitVec 64) : Option (α × RadixTree α) :=
  match radixTreeLookupPtr t idx none 0 with
  | some (.found _ path (.leaf oldp _)) =>
    if path.length ≠ t.tHeight then none
    else
      (freeLoop path).bind fun
        | none => some (oldp, ⟨.null, 0⟩)
        | some (entry, path) =>
          (retagLoop path entry).map fun root => (oldp, { t with tRoot := root })
  | _ => none

def setTagLoop (tagmask : Tags) : List (Frame α) → Entry α → Entry α
  | path, entry =>
    if entry.entryTagmask &&& tagmask ≠ 0 then rebuild path entry
    else
      match path with
      | [] => entry.entryCompose (entry.entryTagmask ||| tagmask)
      | frame :: path =>
        setTagLoop tagmask path (frame.plug (entry.entryCompose (entry.entryTagmask ||| tagmask)))

def radixTreeSetTag (t : RadixTree α) (idx : BitVec 64) (tagid : Fin 2) : Option (RadixTree α) :=
  match radixTreeLookupPtr t idx none 0 with
  | some (.found _ path entry) =>
    if entry.isNull ∨ path.length ≠ t.tHeight then none
    else some { t with tRoot := setTagLoop (tagidToMask tagid) path entry }
  | _ => none

def clearTagLoop (tagmask : Tags) : List (Frame α) → Entry α → Option (Entry α)
  | path, entry =>
    if entry.entryTagmask &&& tagmask = 0 then none
    else
      match path with
      | [] => some (entry.entryCompose (entry.entryTagmask &&& ~~~tagmask))
      | frame :: path =>
        let cleared := entry.entryCompose (entry.entryTagmask &&& ~~~tagmask)
        if anyChildrenTagmask (frame.stored cleared) &&& tagmask ≠ 0 then
          some (rebuild (frame :: path) cleared)
        else clearTagLoop tagmask path (frame.plug cleared)

def radixTreeClearTag (t : RadixTree α) (idx : BitVec 64) (tagid : Fin 2) : Option (RadixTree α) :=
  match radixTreeLookupPtr t idx none 0 with
  | some (.found _ path entry) =>
    if entry.isNull ∨ path.length ≠ t.tHeight then none
    else if entry.entryTagmask &&& tagidToMask tagid = 0 then some t
    else
      (clearTagLoop (tagidToMask tagid) path entry).map fun root => { t with tRoot := root }
  | _ => none

end NetBSD.Gen.Radixtree
