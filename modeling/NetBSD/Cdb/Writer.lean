import Mathlib.Logic.Function.Basic
import NetBSD.Cdb.Reader

/-!
Owns the index of a constant database as `cdbw.c` writes it: the values that `assign_nodes` gives to
the cells, and the bytes that `print_hash` has for a cell.
-/

namespace NetBSD.Cdb

open NetBSD.Arith Function List

section Model

def maxDataCounter : Nat := 0xcccccccc

structure Edge where
  idx : Nat
  left : Nat
  middle : Nat
  right : Nat
deriving DecidableEq, Repr

def Edge.vertices (e : Edge) : List Nat := [e.left, e.middle, e.right]

structure Nodes where
  g : Nat → Nat
  visited : Nat → Bool

/-- An `uint32_t` of a number. -/
def wrap32 (n : Int) : Int := n % 2 ^ 32

def nodeValue (wrap : Int → Int) (data_entries idx first second : Nat) : Nat :=
  (wrap (2 * data_entries + idx - first - second) % data_entries).toNat

/-- One round of `assign_nodes`, which has its sums from `wrap`. -/
def assignNode (wrap : Int → Int) (data_entries : Nat) (nodes : Nodes) (e : Edge) : Nodes where
  g :=
    if nodes.visited e.left = false then
      update nodes.g e.left (nodeValue wrap data_entries e.idx (nodes.g e.middle) (nodes.g e.right))
    else if nodes.visited e.middle = false then
      update nodes.g e.middle (nodeValue wrap data_entries e.idx (nodes.g e.left) (nodes.g e.right))
    else
      update nodes.g e.right (nodeValue wrap data_entries e.idx (nodes.g e.left) (nodes.g e.middle))
  visited v := nodes.visited v || decide (v ∈ e.vertices)

/-- The edges come as `output_order` has them. -/
def assignNodes (wrap : Int → Int) (data_entries : Nat) (order : List Edge) : Nat → Nat :=
  (order.foldl (assignNode wrap data_entries) ⟨fun _ => 0, fun _ => false⟩).g

/-- The cells that `cdbw_output` takes for a number of keys. -/
def indexEntries (keys : Nat) : Nat :=
  let entries := uint32 (keys + uint32 (keys + 3) / 4)
  if entries < 10 then 10 else entries

def le32enc (value : Nat) : List UInt8 :=
  [UInt8.ofNat value, UInt8.ofNat (value / 256), UInt8.ofNat (value / 65536),
    UInt8.ofNat (value / 16777216)]

/-- A cell as it is read: of the four bytes of its value, those that the next cell leaves. -/
def cell (size value : Nat) : Nat := littleEndian ((le32enc value).take size)

end Model

/-- What `build_graph` has taken apart: an edge for each key, in an order in which each has a vertex
that none before it has. -/
structure Peeled (data_entries entries keys : Nat) (order : List Edge) : Prop where
  length : order.length = keys
  idx : ∀ e ∈ order, e.idx < data_entries
  vertices : ∀ e ∈ order, e.vertices.Nodup ∧ ∀ v ∈ e.vertices, v < entries
  fresh : ∀ i (inside : i < order.length), ∃ v ∈ order[i].vertices,
    ∀ j (before : j < i), v ∉ order[j].vertices

/-- The values are those of exact arithmetic, their cells hold them, and three cells add up. -/
structure CellsExact (data_entries entries : Nat) (order : List Edge) : Prop where
  value : assignNodes wrap32 data_entries order = assignNodes id data_entries order
  cell : ∀ v < entries, cell (widthOf entries) (assignNodes wrap32 data_entries order v) =
    assignNodes wrap32 data_entries order v
  sum : ∀ u < entries, ∀ v < entries, ∀ w < entries,
    Cdb.cell (widthOf entries) (assignNodes wrap32 data_entries order u) +
      Cdb.cell (widthOf entries) (assignNodes wrap32 data_entries order v) +
      Cdb.cell (widthOf entries) (assignNodes wrap32 data_entries order w) < 2 ^ 32

theorem cell_eq (limit v : Nat) : cell (widthOf limit) v = v % 256 ^ widthOf limit := by
  rcases widthOf_cases limit with ⟨isWidth, _⟩ | ⟨isWidth, _⟩ | ⟨isWidth, _⟩ <;> rw [isWidth] <;>
    simp only [cell, le32enc, List.take, littleEndian, UInt8.toNat_ofNat'] <;> omega

section Values

variable {data_entries : Nat}

theorem nodeValue_lt (wrap : Int → Int) (pos : 0 < data_entries) (idx fst snd : Nat) :
    nodeValue wrap data_entries idx fst snd < data_entries := by
  have := Int.emod_lt_of_pos (wrap (2 * data_entries + idx - fst - snd)) (b := data_entries)
  unfold nodeValue
  omega

theorem assignNode_lt (wrap : Int → Int) (pos : 0 < data_entries) {nodes : Nodes}
    (sml : ∀ v, nodes.g v < data_entries) (e : Edge) (v : Nat) :
    (assignNode wrap data_entries nodes e).g v < data_entries := by
  unfold assignNode
  simp only
  split_ifs <;> rw [update_apply] <;> split_ifs <;>
    first | exact nodeValue_lt wrap pos .. | exact sml v

theorem nodeValue_eq (fits : 3 * data_entries ≤ 2 ^ 32) {idx first snd : Nat}
    (isIdx : idx < data_entries) (fst : first < data_entries) (h2 : snd < data_entries) :
    nodeValue wrap32 data_entries idx first snd = nodeValue id data_entries idx first snd := by
  have isSmall : (2 * data_entries + idx - first - snd : Int) % 2 ^ 32 =
      2 * data_entries + idx - first - snd := Int.emod_eq_of_lt (by omega) (by omega)
  rw [nodeValue, wrap32, isSmall, nodeValue, id]

theorem assignNodes_spec (pos : 0 < data_entries) (fits : 3 * data_entries ≤ 2 ^ 32)
    {order : List Edge} (isIdx : ∀ e ∈ order, e.idx < data_entries) {nodes : Nodes}
    (sml : ∀ v, nodes.g v < data_entries) : order.foldl (assignNode wrap32 data_entries) nodes =
        order.foldl (assignNode id data_entries) nodes ∧
      ∀ v, (order.foldl (assignNode wrap32 data_entries) nodes).g v < data_entries := by
  induction order generalizing nodes with
  | nil => exact ⟨rfl, sml⟩
  | cons e order ih =>
    have isEdge := isIdx e (.head _)
    have same : assignNode wrap32 data_entries nodes e = assignNode id data_entries nodes e := by
      unfold assignNode
      rw [nodeValue_eq fits isEdge (sml _) (sml _), nodeValue_eq fits isEdge (sml _) (sml _),
        nodeValue_eq fits isEdge (sml _) (sml _)]
    rw [foldl_cons, foldl_cons, ← same]
    exact ih (fun e isIn => isIdx e (.tail _ isIn)) (assignNode_lt wrap32 pos sml e)

end Values

/-! ### An index whose keys all name the last item -/

def chain (data_entries keys : Nat) : List Edge :=
  (List.range keys).map fun i => ⟨data_entries - 1, i, i + 1, i + 2⟩

variable {data_entries : Nat}

theorem chain_peeled {ents keys : Nat} (pos : 0 < data_entries) (rm : keys + 2 ≤ ents) :
    Peeled data_entries ents keys (chain data_entries keys) where
  length := by simp [chain]
  idx e isIn := by
    obtain ⟨i, -, rfl⟩ := mem_map.mp isIn
    exact Nat.sub_one_lt_of_lt pos
  vertices e isIn := by
    obtain ⟨i, isKey, rfl⟩ := mem_map.mp isIn
    have := mem_range.mp isKey
    simp [Edge.vertices]
    omega
  fresh i inside := by
    refine ⟨i + 2, by simp [chain, Edge.vertices], fun j prev => ?_⟩
    simp [chain, Edge.vertices]
    omega

theorem foldl_assignNode (wrap : Int → Int) (data_entries : Nat) {order : List Edge} {v : Nat}
    (apart : ∀ e ∈ order, v ∉ e.vertices) (nodes : Nodes) :
    (order.foldl (assignNode wrap data_entries) nodes).g v = nodes.g v := by
  induction order generalizing nodes with
  | nil => rfl
  | cons e order ih =>
    have isApart := apart e (.head _)
    simp only [Edge.vertices, mem_cons, not_or] at isApart
    rw [foldl_cons, ih fun e isIn => apart e (.tail _ isIn)]
    unfold assignNode
    split_ifs
    · exact update_of_ne isApart.1 ..
    · exact update_of_ne isApart.2.1 ..
    · exact update_of_ne isApart.2.2.1 ..

theorem assignNodes_chain (wrap : Int → Int) (data_entries keys : Nat) :
    assignNodes wrap data_entries (chain data_entries (keys + 1)) 0 =
      nodeValue wrap data_entries (data_entries - 1) 0 0 := by
  unfold assignNodes chain
  rw [range_succ_eq_map, map_cons, foldl_cons, foldl_assignNode]
  · simp [assignNode]
  · intro e isIn
    simp only [map_map, mem_map] at isIn
    obtain ⟨i, -, rfl⟩ := isIn
    simp [Edge.vertices]

theorem nodeValue_last (pos : 0 < data_entries) :
    nodeValue id data_entries (data_entries - 1) 0 0 = data_entries - 1 := by
  have val : (2 * data_entries + (data_entries - 1 : Nat) - (0 : Nat) - (0 : Nat) : Int) %
      data_entries = (data_entries - 1 : Nat) := by
    rw [show (2 * data_entries + (data_entries - 1 : Nat) - (0 : Nat) - (0 : Nat) : Int) =
      (data_entries - 1 : Nat) + data_entries * 2 by omega, Int.add_mul_emod_self_left]
    exact Int.emod_eq_of_lt (by omega) (by omega)
  rw [nodeValue, id, val, Int.toNat_natCast]

theorem indexEntries_ge {keys : Nat} (fits : keys ≤ maxDataCounter) :
    10 ≤ indexEntries keys ∧ keys + 2 ≤ indexEntries keys := by
  unfold maxDataCounter at fits
  rw [indexEntries, uint32, uint32, Nat.mod_eq_of_lt (a := keys + 3) (by omega),
    Nat.mod_eq_of_lt (by omega)]
  split_ifs <;> omega

/-- The numbers of items and keys for which the index is right whatever the graph is: three items
numbers add up to 32 bits, and a number of an item fits into a cell. -/
theorem cellsExact_iff {keys : Nat} (items : 0 < data_entries) (pos : 0 < keys)
    (fits : keys ≤ maxDataCounter) : (∀ order, Peeled data_entries (indexEntries keys) keys order →
      CellsExact data_entries (indexEntries keys) order) ↔
      3 * data_entries ≤ 2 ^ 32 ∧ data_entries ≤ 256 ^ widthOf (indexEntries keys) := by
  have rm := indexEntries_ge fits
  constructor
  · intro exact
    obtain ⟨value, cell, sum⟩ := exact _ (chain_peeled items rm.2)
    obtain ⟨keys, rfl⟩ : ∃ n, keys = n + 1 := ⟨keys - 1, by omega⟩
    have val := congrFun value 0
    have isCell := cell 0 (by omega)
    have isSum := sum 0 (by omega) 0 (by omega) 0 (by omega)
    rw [assignNodes_chain, assignNodes_chain, nodeValue_last items] at val
    rw [isCell] at isSum
    rw [cell_eq] at isCell
    rw [assignNodes_chain] at isCell isSum
    by_contra isLarge
    -- one item more than 32 bits have room for is the least number whose values are wrong
    obtain rfl : data_entries = 1431655766 := by omega
    exact absurd val (by decide)
  · rintro ⟨isSum, isCell⟩ order peeled
    obtain ⟨same, sml⟩ := @assignNodes_spec _ items isSum _ peeled.idx
      ⟨fun _ => 0, fun _ => false⟩ fun _ => items
    have kept (v : Nat) : cell (widthOf (indexEntries keys)) (assignNodes wrap32 data_entries order v) =
        assignNodes wrap32 data_entries order v := by
      rw [cell_eq]
      exact Nat.mod_eq_of_lt ((sml v).trans_le isCell)
    refine ⟨congrArg Nodes.g same, fun v _ => kept v, fun u _ v _ w _ => ?_⟩
    have := sml u
    have := sml v
    have := sml w
    rw [kept, kept, kept]
    unfold assignNodes
    omega

/-- 256 items with a key each. -/
theorem cellsExact_small : widthOf (indexEntries 256) = 2 ∧ ∀ order,
    Peeled 256 (indexEntries 256) 256 order → CellsExact 256 (indexEntries 256) order :=
  ⟨by decide, (cellsExact_iff (by decide) (by decide) (by decide)).mpr (by decide)⟩

/-- The last of 257 items has the only key, and the cell for it is one byte. -/
theorem cell_truncated : Peeled 257 (indexEntries 1) 1 [⟨256, 0, 1, 2⟩] ∧
    assignNodes wrap32 257 [⟨256, 0, 1, 2⟩] 0 = 256 ∧ cell (widthOf (indexEntries 1)) 256 = 0 ∧
    ¬CellsExact 257 (indexEntries 1) [⟨256, 0, 1, 2⟩] := by
  have val : assignNodes wrap32 257 [⟨256, 0, 1, 2⟩] 0 = 256 := by decide
  have isCell : cell (widthOf (indexEntries 1)) 256 = 0 := by decide
  refine ⟨@chain_peeled _ _ 1 (by decide) (by decide), val, isCell, fun exact => ?_⟩
  have := exact.cell 0 (by decide)
  cases this

end NetBSD.Cdb
