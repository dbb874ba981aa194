import Mathlib.Data.Nat.Bitwise
import NetBSD.Gen.RpstRun

/-!
Owns the three-sided range query of `common/lib/libc/gen/rpst.c`: the iterator, which
goes through the tree by the pointers to children and parents, and the nodes that it
reports. A round of the loop is one step; a report ends a call, and the next call goes
on from the place that the iterator keeps.
-/

namespace NetBSD.Gen

open List Nat

structure RpstBounds where
  it_max_y : BitVec 64
  it_min_x : BitVec 64
  it_max_x : BitVec 64

structure RpstIterator (α : Type) where
  it_cur : α
  it_idx : Nat
  it_level : Nat

/-- The variables of the loop of `rpst_iterate_next`. -/
structure RpstWalk (α : Type) where
  n : α
  idx : Nat
  maxidx : Nat
  level : Nat
  mask : BitVec 64

/-- What a round of the loop does. -/
inductive RpstTurn (α : Type) where
  | next (walk : RpstWalk α)
  | report (n : α) (it : RpstIterator α)
  | done

section Code

variable {α : Type} [DecidableEq α]

def rpstIteratorMatchP (t : RpstTree α) (n : α) (it : RpstBounds) : Bool :=
  if it.it_max_y < (t.mem n).n_y then false
  else if (t.mem n).n_x < it.it_min_x then false
  else if it.it_max_x < (t.mem n).n_x then false
  else true

def rpstNodeOnEdgeP (n_x val mask : BitVec 64) : Bool := (n_x ^^^ val) &&& ((-mask) <<< 1) == 0

def rpstMaxidx (n_x max_x mask : BitVec 64) : Nat :=
  if rpstNodeOnEdgeP n_x max_x mask then (side max_x mask).toNat else 1

def rpstMinidx (n_x min_x mask : BitVec 64) : Nat :=
  if rpstNodeOnEdgeP n_x min_x mask then (side min_x mask).toNat else 0

/-- `where - n->n_children`, for a link of `n`. -/
def Where.index (n : α) : Where α → Option Nat
  | .root => none
  | .child m i => if m = n then some i.toNat else none

/-- The assertions at label `next`. -/
def walkAsserts (t : RpstTree α) (bounds : RpstBounds) (walk : RpstWalk α) : Bool :=
  walk.mask == rpstLevel2mask t walk.level &&
    decide (rpstMinidx (t.mem walk.n).n_x bounds.it_min_x walk.mask ≤ walk.idx) &&
    decide (walk.maxidx = rpstMaxidx (t.mem walk.n).n_x bounds.it_max_x walk.mask) &&
    decide (walk.idx ≤ walk.maxidx + 2)

def rpstAscend (t : RpstTree α) (bounds : RpstBounds) (walk : RpstWalk α) :
    Option (RpstTurn α) := do
  let (at_, next) ← rpstFindPptr t walk.n
  match next with
  | none => if walk.level = 0 ∧ t.t_root = some walk.n ∧ at_ = .root then some .done else none
  | some next =>
    if 0 < walk.level then
      let level := walk.level - 1
      let mask := rpstLevel2mask t level
      let idx ← at_.index next
      some (.next ⟨next, idx + 1, rpstMaxidx (t.mem next).n_x bounds.it_max_x mask, level, mask⟩)
    else none

def rpstDescend (t : RpstTree α) (bounds : RpstBounds) (walk : RpstWalk α) : Option (RpstTurn α) :=
  let past : RpstTurn α := .next { walk with idx := walk.idx + 1 }
  if walk.idx < 2 then
    match (t.mem walk.n).n_children (decide (walk.idx = 1)) with
    | none => some past
    | some next =>
      if bounds.it_max_y < (t.mem next).n_y then some past
      else if (t.mem next).n_parent = some walk.n ∧ (t.mem walk.n).n_y ≤ (t.mem next).n_y then
        let mask := walk.mask >>> 1
        some (.next ⟨next, rpstMinidx (t.mem next).n_x bounds.it_min_x mask,
          rpstMaxidx (t.mem next).n_x bounds.it_max_x mask, walk.level + 1, mask⟩)
      else none
  else none

/-- A round of the loop of `rpst_iterate_next`. -/
def rpstTurn (t : RpstTree α) (bounds : RpstBounds) (walk : RpstWalk α) : Option (RpstTurn α) :=
  if walkAsserts t bounds walk then
    if walk.idx = walk.maxidx + 1 then
      if bounds.it_min_x ≤ (t.mem walk.n).n_x ∧ (t.mem walk.n).n_x ≤ bounds.it_max_x then
        if rpstIteratorMatchP t walk.n bounds then
          some (.report walk.n ⟨walk.n, walk.idx + 1, walk.level⟩)
        else none
      else some (.next { walk with idx := walk.idx + 1 })
    else if walk.idx = walk.maxidx + 2 then rpstAscend t bounds walk
    else rpstDescend t bounds walk
  else none

def rpstWalkLoop (t : RpstTree α) (bounds : RpstBounds) :
    Nat → RpstWalk α → Option (Option (α × RpstIterator α))
  | 0, _ => none
  | fuel + 1, walk => do
      match ← rpstTurn t bounds walk with
      | .next walk => rpstWalkLoop t bounds fuel walk
      | .report n it => some (some (n, it))
      | .done => some none

/-- The variables at the start of a call. -/
def rpstResume (t : RpstTree α) (bounds : RpstBounds) (it : RpstIterator α) : RpstWalk α :=
  let mask := rpstLevel2mask t it.it_level
  ⟨it.it_cur, it.it_idx, rpstMaxidx (t.mem it.it_cur).n_x bounds.it_max_x mask, it.it_level, mask⟩

def rpstIterateNext (fuel : Nat) (t : RpstTree α) (bounds : RpstBounds) (it : RpstIterator α) :
    Option (Option (α × RpstIterator α)) :=
  if t.t_root = some it.it_cur ∨ rpstIteratorMatchP t it.it_cur bounds then
    rpstWalkLoop t bounds fuel (rpstResume t bounds it)
  else none

def rpstIterateFirst (fuel : Nat) (t : RpstTree α) (bounds : RpstBounds) :
    Option (Option (α × RpstIterator α)) :=
  if bounds.it_min_x ≤ bounds.it_max_x then
    match t.t_root with
    | none => some none
    | some n =>
      if bounds.it_max_y < (t.mem n).n_y then some none
      else do
        let max ← rpstHeight2max t.t_height
        if max < bounds.it_min_x then some none
        else
          let mask ← rpstStartmask t
          rpstIterateNext fuel t bounds ⟨n, (side bounds.it_min_x mask).toNat, 0⟩
  else none

def rpstRest (fuel : Nat) (t : RpstTree α) (bounds : RpstBounds) :
    Nat → Option (α × RpstIterator α) → Option (List α)
  | _, none => some []
  | 0, some _ => none
  | calls + 1, some (n, it) => do
      let answer ← rpstIterateNext fuel t bounds it
      let rest ← rpstRest fuel t bounds calls answer
      some (n :: rest)

/-- The loop of `query`: the nodes that it finds. -/
def rpstQuery (fuel calls : Nat) (t : RpstTree α) (bounds : RpstBounds) : Option (List α) := do
  let answer ← rpstIterateFirst fuel t bounds
  rpstRest fuel t bounds calls answer

end Code

/-! ### The nodes that are visited -/

namespace Pst

variable {α : Type}

/-- The walk goes down to a tree whose top is not above the bound. -/
def isOpen (y : α → BitVec 64) (max_y : BitVec 64) (s : Pst α) : Bool :=
  match s.label? with
  | none => false
  | some c => decide (y c ≤ max_y)

/-- The nodes reported below a link, in the order of the walk. -/
def visits (x y : α → BitVec 64) (bounds : RpstBounds) : BitVec 64 → Pst α → List α
  | _, nil => []
  | mask, node a kids =>
    let through (i : Bool) : List α :=
      if rpstMinidx (x a) bounds.it_min_x mask ≤ i.toNat ∧
          i.toNat ≤ rpstMaxidx (x a) bounds.it_max_x mask ∧ isOpen y bounds.it_max_y (kids i) then
        visits x y bounds (mask >>> 1) (kids i)
      else []
    through false ++ (through true ++
      if bounds.it_min_x ≤ x a ∧ x a ≤ bounds.it_max_x then [a] else [])

end Pst

/-- A node inside the bounds. -/
structure InBounds (x y : BitVec 64) (bounds : RpstBounds) : Prop where
  below : y ≤ bounds.it_max_y
  from_ : bounds.it_min_x ≤ x
  upTo : x ≤ bounds.it_max_x

section Edges

variable {x val : BitVec 64} {k : Nat}

theorem allOnes_shift (lt : k < 64) :
    (-(1#64 <<< k)) <<< 1 = (BitVec.allOnes 64) <<< (k + 1) := by
  have all : ∀ h : Fin 64, (-(1#64 <<< h.val)) <<< 1 = (BitVec.allOnes 64) <<< (h.val + 1) := by
    decide
  exact all ⟨k, lt⟩

theorem and_allOnes_shift_iff {j : Nat} :
    x &&& ((BitVec.allOnes 64) <<< j) = 0 ↔ x.toNat / 2 ^ j = 0 := by
  have masked : x &&& ((BitVec.allOnes 64) <<< j) = (x >>> j) <<< j := by
    apply BitVec.eq_of_getLsbD_eq
    intro i lt
    rw [BitVec.getLsbD_and, BitVec.getLsbD_shiftLeft, BitVec.getLsbD_shiftLeft,
      BitVec.getLsbD_ushiftRight]
    by_cases above : i < j
    · simp [above]
    · have back : j + (i - j) = i := by omega
      rw [BitVec.getLsbD_allOnes, back]
      simp [above, lt, show i - j < 64 by omega]
  rw [masked, ← BitVec.toNat_inj, BitVec.toNat_shiftLeft, BitVec.toNat_ushiftRight,
    shiftRight_eq_div_pow, Nat.shiftLeft_eq]
  have sml : x.toNat / 2 ^ j * 2 ^ j < 2 ^ 64 :=
    Nat.lt_of_le_of_lt (div_mul_le_self _ _) x.isLt
  have zero : (0 : BitVec 64).toNat = 0 := rfl
  rw [mod_eq_of_lt sml, zero, Nat.mul_eq_zero, or_iff_left (Nat.ne_of_gt (Nat.two_pow_pos j))]

theorem rpstNodeOnEdgeP_iff (lt : k < 64) : rpstNodeOnEdgeP x val (1#64 <<< k) = true ↔
    x.toNat / 2 ^ (k + 1) = val.toNat / 2 ^ (k + 1) := by
  unfold rpstNodeOnEdgeP
  rw [beq_iff_eq, allOnes_shift lt, and_allOnes_shift_iff, BitVec.toNat_xor,
    ← shiftRight_eq_div_pow, shiftRight_xor_distrib, Nat.xor_eq_zero_iff,
    shiftRight_eq_div_pow, shiftRight_eq_div_pow]

theorem toNat_side (lt : k < 64) : (side x (1#64 <<< k)).toNat = x.toNat / 2 ^ k % 2 := by
  have isBit : side x (1#64 <<< k) = x.getLsbD k := by
    have power : 1#64 <<< k = BitVec.twoPow 64 k := (BitVec.twoPow_eq 64 k).symm
    rw [side, power, BitVec.and_twoPow]
    have pos : BitVec.twoPow 64 k ≠ 0#64 := by
      intro zero
      have bit := congrArg (fun word => word.getLsbD k) zero
      simp [lt] at bit
    cases isSet : x.getLsbD k with
    | true => simp [pos]
    | false => simp
  rw [isBit, BitVec.getLsbD, testBit_eq_decide_div_mod_eq]
  have two := mod_two_eq_zero_or_one (x.toNat / 2 ^ k)
  cases two with
  | inl zero => simp [zero]
  | inr isOne => simp [isOne]

end Edges

section Visits

variable {α : Type} {x y : α → BitVec 64} {bounds : RpstBounds} {mask : BitVec 64} {s : Pst α}
  {a b : α} {kids : Bool → Pst α} {i : Bool}

/-- The bits above the mask are the same in all nodes of a tree. -/
def Prefixed (x : α → BitVec 64) (mask : BitVec 64) (s : Pst α) : Prop :=
  mask = 0 ∨ ∃ k high, k < 64 ∧ mask = 1#64 <<< k ∧ ∀ b ∈ s, (x b).toNat / 2 ^ (k + 1) = high

theorem half_div {v k : Nat} : v / 2 ^ (k + 1) = v / 2 ^ k / 2 := by
  rw [Nat.pow_succ, Nat.div_div_eq_div_mul]

theorem Prefixed.kid (prefixed : Prefixed x mask (.node a kids))
    (fits : ∀ b ∈ kids i, side (x b) mask = i) : Prefixed x (mask >>> 1) (kids i) := by
  cases prefixed with
  | inl eq0 =>
    left
    rw [eq0]
    decide
  | inr isLevel =>
    obtain ⟨k, high, lt, isMask, same⟩ := isLevel
    cases k with
    | zero =>
      left
      rw [isMask]
      decide
    | succ k =>
      right
      refine ⟨k, 2 * high + i.toNat, by omega, ?_, fun b isIn => ?_⟩
      · rw [isMask]
        exact shiftLeft_shiftRight_one lt
      have upper := same b (Pst.mem_node.mpr (.inr ⟨i, isIn⟩))
      have bit := fits b isIn
      rw [isMask] at bit
      have isBit := @toNat_side (x b) (k + 1) lt
      rw [bit] at isBit
      rw [half_div] at upper
      omega

/-- On the edge of the bounds the side of a node below is in the order of its `x`. -/
theorem side_edge {bnd : BitVec 64} (prefixed : Prefixed x mask (.node a kids)) (isIn : b ∈ kids i)
    (onEdge : rpstNodeOnEdgeP (x a) bnd mask = true) :
    (bnd ≤ x b → (side bnd mask).toNat ≤ (side (x b) mask).toNat) ∧
      (x b ≤ bnd → (side (x b) mask).toNat ≤ (side bnd mask).toNat) := by
  cases prefixed with
  | inl zero =>
    have no (v : BitVec 64) : side v mask = false := by simp [side, zero]
    rw [no, no]
    exact ⟨fun _ => le_refl _, fun _ => le_refl _⟩
  | inr isLevel =>
    obtain ⟨k, high, lt, isMask, same⟩ := isLevel
    rw [isMask, rpstNodeOnEdgeP_iff lt, same a (Pst.mem_node.mpr (.inl rfl)),
      ← same b (Pst.mem_node.mpr (.inr ⟨i, isIn⟩)), half_div, half_div] at onEdge
    rw [isMask, toNat_side lt, toNat_side lt]
    constructor <;> intro le
    all_goals
      have ord := Nat.div_le_div_right (c := 2 ^ k) (BitVec.le_def.mp le)
      omega

theorem minidx_le (prefixed : Prefixed x mask (.node a kids)) (isIn : b ∈ kids i)
    (bit : side (x b) mask = i) (above : bounds.it_min_x ≤ x b) :
    rpstMinidx (x a) bounds.it_min_x mask ≤ i.toNat := by
  unfold rpstMinidx
  split
  · rename_i onEdge
    exact bit ▸ (side_edge prefixed isIn onEdge).1 above
  · exact zero_le _

theorem le_maxidx (prefixed : Prefixed x mask (.node a kids)) (isIn : b ∈ kids i)
    (bit : side (x b) mask = i) (below : x b ≤ bounds.it_max_x) :
    i.toNat ≤ rpstMaxidx (x a) bounds.it_max_x mask := by
  unfold rpstMaxidx
  split
  · rename_i onEdge
    exact bit ▸ (side_edge prefixed isIn onEdge).2 below
  · exact Bool.toNat_le i

namespace Pst

theorem mem_through : b ∈ visits x y bounds mask (.node a kids) ↔
    (∃ i : Bool, (rpstMinidx (x a) bounds.it_min_x mask ≤ i.toNat ∧
        i.toNat ≤ rpstMaxidx (x a) bounds.it_max_x mask ∧ isOpen y bounds.it_max_y (kids i)) ∧
        b ∈ visits x y bounds (mask >>> 1) (kids i)) ∨
      (bounds.it_min_x ≤ x a ∧ x a ≤ bounds.it_max_x) ∧ b = a := by
  rw [visits, mem_append, mem_append, Bool.exists_bool, mem_ite_nil_right,
    mem_ite_nil_right, mem_ite_nil_right, mem_singleton, or_assoc]

theorem mem_of_visits (isVisited : b ∈ visits x y bounds mask s) : b ∈ s := by
  induction s generalizing mask with
  | nil => cases isVisited
  | node a kids ih =>
    cases mem_through.mp isVisited with
    | inl below =>
      obtain ⟨i, _, isIn⟩ := below
      exact mem_node.mpr (.inr ⟨i, ih i isIn⟩)
    | inr here => exact mem_node.mpr (.inl here.2)

/-- The walk meets every node in the bounds and no other. -/
theorem mem_visits (ord : s.Ordered x y mask) (prefixed : Prefixed x mask s)
    (isTop : isOpen y bounds.it_max_y s = true) :
    b ∈ visits x y bounds mask s ↔ b ∈ s ∧ InBounds (x b) (y b) bounds := by
  induction s generalizing mask with
  | nil => cases isTop
  | node a kids ih =>
    have topBelow : y a ≤ bounds.it_max_y := of_decide_eq_true isTop
    rw [mem_through, mem_node]
    constructor
    · intro visited
      cases visited with
      | inl below =>
        obtain ⟨i, ⟨_, _, isOpened⟩, isIn⟩ := below
        have fits := (ord i).2.1
        have inner := (ih i (ord i).2.2
          (prefixed.kid fun b isIn => (fits b isIn).2) isOpened).mp isIn
        exact ⟨.inr ⟨i, inner.1⟩, inner.2⟩
      | inr here =>
        obtain ⟨⟨from_, upTo⟩, rfl⟩ := here
        exact ⟨.inl rfl, topBelow, from_, upTo⟩
    intro ⟨isIn, inBounds⟩
    cases isIn with
    | inl isHere =>
      subst isHere
      exact .inr ⟨⟨inBounds.from_, inBounds.upTo⟩, rfl⟩
    | inr below =>
      obtain ⟨i, isIn⟩ := below
      have fits := (ord i).2.1
      obtain ⟨c, label⟩ := exists_label? isIn
      have least := (ord i).2.2.label_le label isIn
      have isOpened : isOpen y bounds.it_max_y (kids i) = true := by
        unfold isOpen
        rw [label]
        exact decide_eq_true (BitVec.le_trans least inBounds.below)
      refine .inl ⟨i, ⟨minidx_le prefixed isIn (fits b isIn).2 inBounds.from_,
        le_maxidx prefixed isIn (fits b isIn).2 inBounds.upTo, isOpened⟩, ?_⟩
      exact (ih i (ord i).2.2
        (prefixed.kid fun b isIn => (fits b isIn).2) isOpened).mpr ⟨isIn, inBounds⟩

theorem nodup_visits (ord : s.Ordered x y mask) : (visits x y bounds mask s).Nodup := by
  induction s generalizing mask with
  | nil => exact nodup_nil
  | node a kids ih =>
    have part (i : Bool) (c : Prop) [Decidable c] :
        (if c then visits x y bounds (mask >>> 1) (kids i) else []).Nodup := by
      split
      · exact ih i (ord i).2.2
      · exact nodup_nil
    have inPart {i : Bool} {c : Prop} [Decidable c] {b : α}
        (isIn : b ∈ if c then visits x y bounds (mask >>> 1) (kids i) else []) : b ∈ kids i :=
      mem_of_visits (mem_ite_nil_right.mp isIn).2
    have top (c : Prop) [Decidable c] : (if c then [a] else []).Nodup := by
      split
      · exact nodup_singleton a
      · exact nodup_nil
    refine (part false _).append ((part true _).append (top _) ?_) ?_
    · intro b isIn isTop
      have same := mem_singleton.mp (mem_ite_nil_right.mp isTop).2
      subst same
      exact (ord true).1 (inPart isIn)
    intro b isIn tl
    cases mem_append.mp tl with
    | inl oth => exact Bool.false_ne_true (ord.side_unique (inPart isIn) (inPart oth))
    | inr isTop =>
      have same := mem_singleton.mp (mem_ite_nil_right.mp isTop).2
      subst same
      exact (ord false).1 (inPart isIn)

end Pst

end Visits

/-! ### The walk through memory -/

section Walks

variable {α : Type} [DecidableEq α] {t : RpstTree α} {bounds : RpstBounds} {fuel calls : Nat}
  {walk walk' walk'' : RpstWalk α} {out out' : List α}

/-- All rounds of all calls, and the nodes reported. -/
def rpstWalkAll (t : RpstTree α) (bounds : RpstBounds) : Nat → RpstWalk α → Option (List α)
  | 0, _ => none
  | fuel + 1, walk =>
    (rpstTurn t bounds walk).bind fun turn =>
      match turn with
      | .next walk => rpstWalkAll t bounds fuel walk
      | .report n it => (rpstWalkAll t bounds fuel (rpstResume t bounds it)).map (n :: ·)
      | .done => some []

theorem rpstWalkAll_next (turn : rpstTurn t bounds walk = some (.next walk')) :
    rpstWalkAll t bounds (fuel + 1) walk = rpstWalkAll t bounds fuel walk' := by
  rw [rpstWalkAll, turn, Option.bind_some]

variable {it : RpstIterator α} {n : α}

theorem rpstWalkAll_report (turn : rpstTurn t bounds walk = some (.report n it)) :
    rpstWalkAll t bounds (fuel + 1) walk =
      (rpstWalkAll t bounds fuel (rpstResume t bounds it)).map (n :: ·) := by
  rw [rpstWalkAll, turn, Option.bind_some]

theorem rpstWalkAll_done (turn : rpstTurn t bounds walk = some .done) :
    rpstWalkAll t bounds (fuel + 1) walk = some [] := by
  rw [rpstWalkAll, turn, Option.bind_some]

theorem rpstAscend_ne_report : rpstAscend t bounds walk ≠ some (.report n it) := by
  unfold rpstAscend
  intro isReport
  cases found : rpstFindPptr t walk.n with
  | none =>
    rw [found] at isReport
    cases isReport
  | some plc =>
    obtain ⟨at_, next⟩ := plc
    rw [found] at isReport
    cases next with
    | none =>
      dsimp only [Option.bind_eq_bind, Option.bind_some] at isReport
      split at isReport <;> cases isReport
    | some next =>
      dsimp only [Option.bind_eq_bind, Option.bind_some] at isReport
      split at isReport
      · cases index : at_.index next with
        | none | some =>
          rw [index] at isReport
          cases isReport
      · cases isReport

theorem rpstDescend_ne_report : rpstDescend t bounds walk ≠ some (.report n it) := by
  unfold rpstDescend
  intro isReport
  split at isReport
  · split at isReport
    · cases isReport
    · split at isReport
      · cases isReport
      · split at isReport <;> cases isReport
  · cases isReport

theorem rpstTurn_report (turn : rpstTurn t bounds walk = some (.report n it)) :
    it.it_cur = n ∧ rpstIteratorMatchP t n bounds = true := by
  unfold rpstTurn at turn
  split at turn
  · split at turn
    · split at turn
      · split at turn
        · rename_i isMatch
          cases turn
          exact ⟨rfl, isMatch⟩
        · cases turn
      · cases turn
    · split at turn
      · exact absurd turn rpstAscend_ne_report
      · exact absurd turn rpstDescend_ne_report
  · cases turn

/-- The iterator's calls, put together, are one walk of the whole tree. -/
theorem rpstRest_of_walkAll {steps : Nat} (all : rpstWalkAll t bounds steps walk = some out) :
    ∀ inner, steps ≤ inner → steps ≤ fuel → steps ≤ calls → ∃ ans,
      rpstWalkLoop t bounds inner walk = some ans ∧
        rpstRest fuel t bounds calls ans = some out := by
  induction steps generalizing walk out calls with
  | zero => cases all
  | succ steps ih =>
    intro inner suff enoughFuel enoughCalls
    obtain ⟨inner, rfl⟩ : ∃ tl, inner = tl + 1 := ⟨inner - 1, by omega⟩
    obtain ⟨calls, rfl⟩ : ∃ tl, calls = tl + 1 := ⟨calls - 1, by omega⟩
    cases turn : rpstTurn t bounds walk with
    | none =>
      rw [rpstWalkAll, turn] at all
      cases all
    | some action =>
      cases action with
      | next walk' =>
        rw [rpstWalkAll_next turn] at all
        obtain ⟨ans, isAnswer, tl⟩ := ih all inner (by omega) (by omega)
          (show steps ≤ calls + 1 by omega)
        refine ⟨ans, ?_, tl⟩
        rw [rpstWalkLoop, turn]
        exact isAnswer
      | report n it =>
        rw [rpstWalkAll_report turn, Option.map_eq_some_iff] at all
        obtain ⟨out, all, rfl⟩ := all
        obtain ⟨ans, isAnswer, tl⟩ := ih all fuel (by omega) (by omega)
          (show steps ≤ calls by omega)
        obtain ⟨isCur, matches_⟩ := rpstTurn_report turn
        refine ⟨some (n, it), ?_, ?_⟩
        · rw [rpstWalkLoop, turn]
          rfl
        have call : rpstIterateNext fuel t bounds it = some ans := by
          rw [rpstIterateNext, isCur, if_pos (.inr matches_)]
          exact isAnswer
        rw [rpstRest, call]
        change (rpstRest fuel t bounds calls ans).bind _ = _
        rw [tl]
        rfl
      | done =>
        rw [rpstWalkAll_done turn] at all
        cases all
        refine ⟨none, ?_, by rw [rpstRest]⟩
        rw [rpstWalkLoop, turn]
        rfl

/-- From one place the walk comes to another, and reports some nodes on the way. -/
def Goes (t : RpstTree α) (bounds : RpstBounds) (walk : RpstWalk α) (out : List α)
    (walk' : RpstWalk α) : Prop :=
  ∃ steps, ∀ fuel, rpstWalkAll t bounds (fuel + steps) walk =
    (rpstWalkAll t bounds fuel walk').map (out ++ ·)

omit [DecidableEq α] in
theorem map_nil_append (tl : Option (List α)) : tl.map ([] ++ ·) = tl := by
  cases tl <;> rfl

theorem Goes.refl (walk : RpstWalk α) : Goes t bounds walk [] walk := by
  refine ⟨0, fun fuel => ?_⟩
  exact (map_nil_append _).symm

theorem Goes.trans (fst : Goes t bounds walk out walk')
    (snd : Goes t bounds walk' out' walk'') : Goes t bounds walk (out ++ out') walk'' := by
  obtain ⟨steps, fst⟩ := fst
  obtain ⟨steps', snd⟩ := snd
  refine ⟨steps' + steps, fun fuel => ?_⟩
  rw [← Nat.add_assoc, fst, snd, Option.map_map]
  congr 1
  funext tl
  exact (append_assoc out out' tl).symm

theorem Goes.next (turn : rpstTurn t bounds walk = some (.next walk')) :
    Goes t bounds walk [] walk' := by
  refine ⟨1, fun fuel => ?_⟩
  rw [rpstWalkAll_next turn]
  exact (map_nil_append _).symm

theorem Goes.report (turn : rpstTurn t bounds walk = some (.report n it)) :
    Goes t bounds walk [n] (rpstResume t bounds it) :=
  ⟨1, fun _ => rpstWalkAll_report turn⟩

end Walks

section Subtrees

variable {α : Type} {t : RpstTree α} {bounds : RpstBounds} {lvl idx : Nat}
  {a c : α} {kids : Bool → Pst α} {parent : Option α} {i : Bool}

def atNode (t : RpstTree α) (bounds : RpstBounds) (a : α) (idx level : Nat) : RpstWalk α :=
  rpstResume t bounds ⟨a, idx, level⟩

def lowIdx (t : RpstTree α) (bounds : RpstBounds) (a : α) (level : Nat) : Nat :=
  rpstMinidx (t.x a) bounds.it_min_x (rpstLevel2mask t level)

def highIdx (t : RpstTree α) (bounds : RpstBounds) (a : α) (level : Nat) : Nat :=
  rpstMaxidx (t.x a) bounds.it_max_x (rpstLevel2mask t level)

theorem lowIdx_le : lowIdx t bounds a lvl ≤ 1 := by
  unfold lowIdx rpstMinidx
  split
  · exact Bool.toNat_le _
  · exact zero_le 1

theorem highIdx_le : highIdx t bounds a lvl ≤ 1 := by
  unfold highIdx rpstMaxidx
  split
  · exact Bool.toNat_le _
  · exact le_refl 1

theorem rpstLevel2mask_succ (sml : t.t_height < 64) :
    rpstLevel2mask t (lvl + 1) = rpstLevel2mask t lvl >>> 1 := by
  unfold rpstLevel2mask
  by_cases deep : t.t_height < lvl
  · rw [if_pos deep, if_pos (by omega)]
    rfl
  rw [if_neg deep]
  by_cases last : t.t_height < lvl + 1
  · have lst : t.t_height - lvl = 0 := by omega
    rw [if_pos last, lst]
    rfl
  · have step : t.t_height - lvl = t.t_height - (lvl + 1) + 1 := by omega
    rw [if_neg last, step, shiftLeft_shiftRight_one (by omega)]

theorem walkAsserts_atNode (from_ : lowIdx t bounds a lvl ≤ idx)
    (upTo : idx ≤ highIdx t bounds a lvl + 2) :
    walkAsserts t bounds (atNode t bounds a idx lvl) = true := by
  unfold walkAsserts
  rw [Bool.and_eq_true, Bool.and_eq_true, Bool.and_eq_true, beq_iff_eq, decide_eq_true_iff,
    decide_eq_true_iff, decide_eq_true_iff]
  exact ⟨⟨⟨rfl, from_⟩, rfl⟩, upTo⟩

variable [DecidableEq α]

theorem goes_visit (top : t.y a ≤ bounds.it_max_y) :
    Goes t bounds (atNode t bounds a (highIdx t bounds a lvl + 1) lvl)
      (if bounds.it_min_x ≤ t.x a ∧ t.x a ≤ bounds.it_max_x then [a] else [])
      (atNode t bounds a (highIdx t bounds a lvl + 2) lvl) := by
  have low := @lowIdx_le α t bounds lvl a
  have asserts := @walkAsserts_atNode α t bounds lvl (highIdx t bounds a lvl + 1) a (by omega)
    (by omega)
  by_cases rng : bounds.it_min_x ≤ t.x a ∧ t.x a ≤ bounds.it_max_x
  · rw [if_pos rng]
    have isMatch : rpstIteratorMatchP t a bounds = true := by
      have notAbove : ¬ bounds.it_max_y < (t.mem a).n_y := BitVec.not_lt.mpr top
      have ge : ¬ (t.mem a).n_x < bounds.it_min_x := BitVec.not_lt.mpr rng.1
      have notBehind : ¬ bounds.it_max_x < (t.mem a).n_x := BitVec.not_lt.mpr rng.2
      rw [rpstIteratorMatchP, if_neg notAbove, if_neg ge, if_neg notBehind]
    apply Goes.report (n := a)
    rw [rpstTurn, if_pos asserts]
    exact (if_pos rfl).trans ((if_pos rng).trans (if_pos isMatch))
  · rw [if_neg rng]
    apply Goes.next
    rw [rpstTurn, if_pos asserts]
    exact (if_pos rfl).trans (if_neg rng)

theorem rpstTurn_descend (from_ : lowIdx t bounds a lvl ≤ idx)
    (upTo : idx ≤ highIdx t bounds a lvl) : rpstTurn t bounds (atNode t bounds a idx lvl) =
      rpstDescend t bounds (atNode t bounds a idx lvl) := by
  rw [rpstTurn, if_pos (walkAsserts_atNode from_ (by omega))]
  have notVisit : ¬ (atNode t bounds a idx lvl).idx = (atNode t bounds a idx lvl).maxidx + 1 := by
    change ¬ idx = highIdx t bounds a lvl + 1
    omega
  have notBack : ¬ (atNode t bounds a idx lvl).idx = (atNode t bounds a idx lvl).maxidx + 2 := by
    change ¬ idx = highIdx t bounds a lvl + 2
    omega
  rw [if_neg notVisit, if_neg notBack]

theorem rpstFindPptr_child {mask : BitVec 64} (link : PstLinked t.mem parent (.node a kids))
    (ord : (Pst.node a kids).Ordered t.x t.y mask) (label : (kids i).label? = some c) :
    rpstFindPptr t c = some (.child a i, some a) := by
  obtain ⟨_, children, below⟩ := link
  have hpar : (t.mem c).n_parent = some a := by
    have kid := below i
    cases isKid : kids i with
    | nil =>
      rw [isKid] at label
      cases label
    | node c' sub =>
      rw [isKid] at label kid
      cases label
      exact kid.1
  have isChild : (t.mem a).n_children i = some c := (children i).trans label
  have index : (!decide ((t.mem a).n_children false = some c)) = i := by
    cases i with
    | false => rw [isChild, decide_eq_true rfl, Bool.not_true]
    | true =>
      have oth : ¬ (t.mem a).n_children false = some c := by
        intro both
        rw [children false] at both
        exact Bool.false_ne_true
          (ord.side_unique (Pst.mem_of_label? both) (Pst.mem_of_label? label))
      rw [decide_eq_false oth, Bool.not_false]
  unfold rpstFindPptr
  rw [hpar]
  dsimp only
  rw [index, if_pos isChild]

theorem goes_ascend {mask : BitVec 64} (link : PstLinked t.mem parent (.node a kids))
    (ord : (Pst.node a kids).Ordered t.x t.y mask) (label : (kids i).label? = some c) :
    Goes t bounds (atNode t bounds c (highIdx t bounds c (lvl + 1) + 2) (lvl + 1)) []
      (atNode t bounds a (i.toNat + 1) lvl) := by
  have low := @lowIdx_le α t bounds (lvl + 1) c
  apply Goes.next
  rw [rpstTurn, if_pos (walkAsserts_atNode (by omega) (le_refl _))]
  have notVisit : ¬ (highIdx t bounds c (lvl + 1) + 2 = highIdx t bounds c (lvl + 1) + 1) := by
    omega
  refine (if_neg notVisit).trans ((if_pos rfl).trans ?_)
  unfold rpstAscend
  have isPptr : rpstFindPptr t (atNode t bounds c (highIdx t bounds c (lvl + 1) + 2)
      (lvl + 1)).n = some (.child a i, some a) := rpstFindPptr_child link ord label
  have index : (Where.child a i).index a = some i.toNat := if_pos rfl
  rw [isPptr]
  dsimp only [Option.bind_eq_bind, Option.bind_some]
  rw [index]
  rfl

theorem goes_past (children : ∀ i, (t.mem a).n_children i = (kids i).label?)
    (closed : Pst.isOpen t.y bounds.it_max_y (kids i) = false)
    (from_ : lowIdx t bounds a lvl ≤ i.toNat) (upTo : i.toNat ≤ highIdx t bounds a lvl) :
    Goes t bounds (atNode t bounds a i.toNat lvl) [] (atNode t bounds a (i.toNat + 1) lvl) := by
  apply Goes.next
  rw [rpstTurn_descend from_ upTo]
  have isBit : decide ((atNode t bounds a i.toNat lvl).idx = 1) = i := by cases i <;> rfl
  have lt : (atNode t bounds a i.toNat lvl).idx < 2 := Bool.toNat_lt i
  unfold rpstDescend
  rw [if_pos lt, isBit]
  unfold Pst.isOpen at closed
  change (match (t.mem a).n_children i with
    | none => _
    | some next => _) = _
  rw [children i]
  cases isLabel : (kids i).label? with
  | none => rfl
  | some c =>
    rw [isLabel] at closed
    have above : bounds.it_max_y < (t.mem c).n_y := BitVec.not_le.mp (of_decide_eq_false closed)
    exact if_pos above

theorem goes_down (sml : t.t_height < 64) (link : PstLinked t.mem parent (.node a kids))
    (ord : (Pst.node a kids).Ordered t.x t.y (rpstLevel2mask t lvl))
    (label : (kids i).label? = some c) (top : t.y c ≤ bounds.it_max_y)
    (from_ : lowIdx t bounds a lvl ≤ i.toNat) (upTo : i.toNat ≤ highIdx t bounds a lvl) :
    Goes t bounds (atNode t bounds a i.toNat lvl) []
      (atNode t bounds c (lowIdx t bounds c (lvl + 1)) (lvl + 1)) := by
  obtain ⟨_, children, below⟩ := link
  apply Goes.next
  rw [rpstTurn_descend from_ upTo]
  have isBit : decide ((atNode t bounds a i.toNat lvl).idx = 1) = i := by cases i <;> rfl
  have lt : (atNode t bounds a i.toNat lvl).idx < 2 := Bool.toNat_lt i
  have isChild : (t.mem (atNode t bounds a i.toNat lvl).n).n_children i = some c :=
    (children i).trans label
  have hpar : (t.mem c).n_parent = some a := by
    have kid := below i
    cases isKid : kids i with
    | nil =>
      rw [isKid] at label
      cases label
    | node c' sub =>
      rw [isKid] at label kid
      cases label
      exact kid.1
  have larger : t.y a ≤ t.y c := ((ord i).2.1 c (Pst.mem_of_label? label)).1
  have notAbove : ¬ bounds.it_max_y < (t.mem c).n_y := BitVec.not_lt.mpr top
  have mask : (atNode t bounds a i.toNat lvl).mask >>> 1 = rpstLevel2mask t (lvl + 1) :=
    (rpstLevel2mask_succ sml).symm
  unfold rpstDescend
  rw [if_pos lt, isBit, isChild]
  dsimp only
  rw [if_neg notAbove, mask]
  exact if_pos ⟨hpar, larger⟩

theorem goes_kids (plc : Nat → RpstWalk α) {low high : Nat} {part : Bool → List α}
    (lowSmall : low ≤ 1) (highSmall : high ≤ 1)
    (thru : ∀ i : Bool, low ≤ i.toNat → i.toNat ≤ high →
      Goes t bounds (plc i.toNat) (part i) (plc (i.toNat + 1)))
    (closed : ∀ i : Bool, ¬ (low ≤ i.toNat ∧ i.toNat ≤ high) → part i = []) :
    Goes t bounds (plc low) (part false ++ part true) (plc (high + 1)) := by
  by_cases isLow : low = 0
  · have beg := thru false (le_of_eq isLow) (zero_le high)
    rw [isLow]
    by_cases hi : high = 0
    · have skip := closed true fun all =>
        not_succ_le_zero 0 (le_trans all.2 (le_of_eq hi))
      rw [hi, skip, append_nil]
      exact beg
    · have isOne : high = 1 := by omega
      rw [isOne]
      exact beg.trans (thru true (by rw [isLow]; exact zero_le 1) (le_of_eq isOne.symm))
  have isOne : low = 1 := by omega
  have skip := closed false fun all => isLow (le_zero.mp all.1)
  rw [skip, isOne]
  by_cases hi : high = 0
  · have skip := closed true fun all =>
      not_succ_le_zero 0 (le_trans all.2 (le_of_eq hi))
    rw [skip, hi]
    exact Goes.refl _
  · have highOne : high = 1 := by omega
    rw [highOne]
    exact thru true (le_of_eq isOne) (le_of_eq highOne.symm)

/-- The walk of a subtree visits what its bounds leave open, then goes on above. -/
theorem goes_below {s : Pst α} (sml : t.t_height < 64) (link : PstLinked t.mem parent s)
    (ord : s.Ordered t.x t.y (rpstLevel2mask t lvl))
    (isOpened : s.isOpen t.y bounds.it_max_y = true) (isLabel : s.label? = some c) :
    Goes t bounds (atNode t bounds c (lowIdx t bounds c lvl) lvl)
      (s.visits t.x t.y bounds (rpstLevel2mask t lvl))
      (atNode t bounds c (highIdx t bounds c lvl + 2) lvl) := by
  induction s generalizing parent lvl c with
  | nil => cases isLabel
  | node a kids ih =>
    cases isLabel
    have top : t.y a ≤ bounds.it_max_y := of_decide_eq_true isOpened
    have thru (i : Bool) (from_ : lowIdx t bounds a lvl ≤ i.toNat)
        (upTo : i.toNat ≤ highIdx t bounds a lvl) :
        Goes t bounds (atNode t bounds a i.toNat lvl)
          (if lowIdx t bounds a lvl ≤ i.toNat ∧ i.toNat ≤ highIdx t bounds a lvl ∧
              (kids i).isOpen t.y bounds.it_max_y then
            (kids i).visits t.x t.y bounds (rpstLevel2mask t lvl >>> 1) else [])
          (atNode t bounds a (i.toNat + 1) lvl) := by
      cases opened : (kids i).isOpen t.y bounds.it_max_y with
      | false =>
        rw [if_neg fun all => Bool.false_ne_true all.2.2]
        exact goes_past link.2.1 opened from_ upTo
      | true =>
        rw [if_pos ⟨from_, upTo, rfl⟩]
        obtain ⟨c, isLabel, small'⟩ : ∃ c, (kids i).label? = some c ∧ t.y c ≤ bounds.it_max_y := by
          unfold Pst.isOpen at opened
          cases label : (kids i).label? with
          | none =>
            rw [label] at opened
            cases opened
          | some c =>
            rw [label] at opened
            exact ⟨c, rfl, of_decide_eq_true opened⟩
        have mask := @rpstLevel2mask_succ α t lvl sml
        have below := ih i (link.2.2 i) (mask ▸ (ord i).2.2) opened isLabel
        rw [mask] at below
        have whole := ((goes_down sml link ord isLabel small' from_ upTo).trans
          below).trans (goes_ascend link ord isLabel)
        rwa [nil_append, append_nil] at whole
    have closed (i : Bool) (out : ¬ (lowIdx t bounds a lvl ≤ i.toNat ∧
        i.toNat ≤ highIdx t bounds a lvl)) :
        (if lowIdx t bounds a lvl ≤ i.toNat ∧ i.toNat ≤ highIdx t bounds a lvl ∧
            (kids i).isOpen t.y bounds.it_max_y then
          (kids i).visits t.x t.y bounds (rpstLevel2mask t lvl >>> 1) else []) = [] :=
      if_neg fun all => out ⟨all.1, all.2.1⟩
    have kidsDone := goes_kids (fun idx => atNode t bounds a idx lvl) lowIdx_le highIdx_le
      thru closed
    have whole := kidsDone.trans (@goes_visit α t bounds lvl a _ top)
    rwa [append_assoc] at whole

end Subtrees

section Whole

variable {α : Type} {t : RpstTree α} {tree : Pst α} {bounds : RpstBounds} {a : α}
  {kids : Bool → Pst α}

theorem rpstLevel2mask_zero : rpstLevel2mask t 0 = 1#64 <<< t.t_height := by
  rw [rpstLevel2mask, if_neg (Nat.not_lt_zero _), Nat.sub_zero]

theorem PstHolds.prefixed (holds : PstHolds t tree) : Prefixed t.x (rpstLevel2mask t 0) tree := by
  right
  exact ⟨t.t_height, 0, holds.height, rpstLevel2mask_zero,
    fun b isIn => div_eq_of_lt (holds.fits b isIn)⟩

theorem lowIdx_root (holds : PstHolds t tree) (isIn : a ∈ tree)
    (rm : bounds.it_min_x.toNat < 2 ^ (t.t_height + 1)) :
    lowIdx t bounds a 0 = (side bounds.it_min_x (1#64 <<< t.t_height)).toNat := by
  have onEdge : rpstNodeOnEdgeP (t.x a) bounds.it_min_x (1#64 <<< t.t_height) = true := by
    rw [rpstNodeOnEdgeP_iff holds.height, div_eq_of_lt (holds.fits a isIn),
      div_eq_of_lt rm]
  rw [lowIdx, rpstLevel2mask_zero, rpstMinidx, if_pos onEdge]

variable [DecidableEq α]

theorem rpstTurn_done (holds : PstHolds t (.node a kids)) :
    rpstTurn t bounds (atNode t bounds a (highIdx t bounds a 0 + 2) 0) = some .done := by
  have low := @lowIdx_le α t bounds 0 a
  rw [rpstTurn, if_pos (walkAsserts_atNode (by omega) (le_refl _))]
  have notVisit : ¬ (highIdx t bounds a 0 + 2 = highIdx t bounds a 0 + 1) := by omega
  refine (if_neg notVisit).trans ((if_pos rfl).trans ?_)
  have isPptr : rpstFindPptr t a = some (.root, none) := by
    rw [rpstFindPptr, holds.linked.1]
  change (rpstFindPptr t a).bind _ = _
  rw [isPptr]
  exact if_pos ⟨rfl, holds.root, rfl⟩

theorem rpstWalkAll_root (holds : PstHolds t (.node a kids)) (top : t.y a ≤ bounds.it_max_y) :
    ∃ steps, rpstWalkAll t bounds steps (atNode t bounds a (lowIdx t bounds a 0) 0) =
      some ((Pst.node a kids).visits t.x t.y bounds (rpstLevel2mask t 0)) := by
  obtain ⟨steps, goes⟩ := goes_below holds.height holds.linked (rpstLevel2mask_zero ▸ holds.ordered)
    (decide_eq_true top) rfl
  refine ⟨1 + steps, ?_⟩
  rw [goes 1, rpstWalkAll_done (rpstTurn_done holds), Option.map_some, append_nil]

theorem rpstQuery_of_none {fuel calls : Nat} (fst : rpstIterateFirst fuel t bounds = some none) :
    rpstQuery fuel calls t bounds = some [] := by
  rw [rpstQuery, fst]
  change rpstRest fuel t bounds calls none = some []
  rw [rpstRest]

theorem rpstQuery_root (holds : PstHolds t (.node a kids))
    (inOrder : bounds.it_min_x ≤ bounds.it_max_x) (top : t.y a ≤ bounds.it_max_y)
    (rm : bounds.it_min_x.toNat < 2 ^ (t.t_height + 1)) :
    ∃ steps, ∀ fuel calls, steps ≤ fuel → steps ≤ calls → rpstQuery fuel calls t bounds =
      some ((Pst.node a kids).visits t.x t.y bounds (rpstLevel2mask t 0)) := by
  obtain ⟨max, isMax, maxValue, _⟩ := rpstHeight2max_eq holds.height
  obtain ⟨steps, all⟩ := rpstWalkAll_root holds top
  refine ⟨steps, fun fuel calls enoughFuel enoughCalls => ?_⟩
  obtain ⟨ans, isAnswer, tl⟩ :=
    rpstRest_of_walkAll all fuel enoughFuel enoughFuel enoughCalls
  have isRoot : t.t_root = some a := holds.root
  have notAbove : ¬ bounds.it_max_y < (t.mem a).n_y := BitVec.not_lt.mpr top
  have notBehind : ¬ max < bounds.it_min_x := by
    rw [BitVec.lt_def]
    omega
  have beg := lowIdx_root holds (Pst.mem_node.mpr (.inl rfl)) rm
  have fst : rpstIterateFirst fuel t bounds = some ans := by
    unfold rpstIterateFirst
    rw [if_pos inOrder, isRoot]
    refine (if_neg notAbove).trans ?_
    rw [isMax, rpstStartmask_eq holds]
    refine (if_neg notBehind).trans ?_
    change rpstIterateNext fuel t bounds ⟨a, (side bounds.it_min_x (1#64 <<< t.t_height)).toNat, 0⟩
      = some ans
    rw [rpstIterateNext, if_pos (.inl isRoot), ← beg]
    exact isAnswer
  rw [rpstQuery, fst]
  exact tl

/-- The query reports the nodes inside the bounds, each once. -/
theorem rpstQuery_spec {α : Type} [DecidableEq α] (t : RpstTree α) (tree : Pst α)
    (bounds : RpstBounds) (holds : PstHolds t tree) (inOrder : bounds.it_min_x ≤ bounds.it_max_x) :
    ∃ out steps, (∀ fuel calls, steps ≤ fuel → steps ≤ calls →
        rpstQuery fuel calls t bounds = some out) ∧
      out.Nodup ∧ ∀ b, b ∈ out ↔ b ∈ tree ∧ InBounds (t.x b) (t.y b) bounds := by
  have nothing (fst : ∀ fuel, rpstIterateFirst fuel t bounds = some none)
      (outside : ∀ b ∈ tree, ¬ InBounds (t.x b) (t.y b) bounds) : ∃ out steps,
      (∀ fuel calls, steps ≤ fuel → steps ≤ calls → rpstQuery fuel calls t bounds = some out) ∧
        out.Nodup ∧ ∀ b, b ∈ out ↔ b ∈ tree ∧ InBounds (t.x b) (t.y b) bounds := by
    refine ⟨[], 0, fun fuel calls _ _ => rpstQuery_of_none (fst fuel), nodup_nil, ?_⟩
    intro b
    exact iff_of_false (not_mem_nil) fun both => outside b both.1 both.2
  cases tree with
  | nil =>
    have noRoot : t.t_root = none := holds.root
    apply nothing
    · intro fuel
      rw [rpstIterateFirst, if_pos inOrder, noRoot]
    · intro b isIn
      cases isIn
  | node a kids =>
    have isRoot : t.t_root = some a := holds.root
    by_cases top : t.y a ≤ bounds.it_max_y
    · by_cases rm : bounds.it_min_x.toNat < 2 ^ (t.t_height + 1)
      · obtain ⟨steps, query⟩ := rpstQuery_root holds inOrder top rm
        have ord := holds.ordered
        exact ⟨_, steps, query, Pst.nodup_visits ord,
          fun b => Pst.mem_visits ord holds.prefixed (decide_eq_true top)⟩
      obtain ⟨max, isMax, maxValue, _⟩ := rpstHeight2max_eq holds.height
      have tail : max < bounds.it_min_x := by
        rw [BitVec.lt_def]
        omega
      apply nothing
      · intro fuel
        have notAbove : ¬ bounds.it_max_y < (t.mem a).n_y := BitVec.not_lt.mpr top
        unfold rpstIterateFirst
        rw [if_pos inOrder, isRoot]
        refine (if_neg notAbove).trans ?_
        rw [isMax]
        exact if_pos tail
      · intro b isIn inBounds
        have sml := holds.fits b isIn
        have from_ := BitVec.le_def.mp inBounds.from_
        omega
    · have above : bounds.it_max_y < (t.mem a).n_y := BitVec.not_le.mp top
      apply nothing
      · intro fuel
        rw [rpstIterateFirst, if_pos inOrder, isRoot]
        exact if_pos above
      · intro b isIn inBounds
        have least := holds.ordered.label_le rfl isIn
        exact top (BitVec.le_trans least inBounds.below)

end Whole

/-- The node (1, 1) below the node (0, 0). -/
def twoPoints : RpstTree Bool where
  t_root := some false
  t_height := 0
  mem n := if n then ⟨some false, fun _ => none, 1, 1⟩
    else ⟨none, fun i => if i then some true else none, 0, 0⟩

/-- Two nodes, one inside the bounds. -/
theorem rpstQuery_pair : ∃ out steps, (∀ fuel calls, steps ≤ fuel → steps ≤ calls →
      rpstQuery fuel calls twoPoints ⟨1, 1, 1⟩ = some out) ∧
    out.Nodup ∧ true ∈ out ∧ false ∉ out := by
  have holds : PstHolds twoPoints (.node false fun i => if i then .node true fun _ => .nil else .nil) :=
    ⟨rfl, by simp [twoPoints, PstLinked, Pst.label?],
      by simp [twoPoints, Pst.Ordered, side, RpstTree.x, RpstTree.y], by decide,
      by simp [twoPoints, RpstTree.x]⟩
  obtain ⟨out, steps, query, once, members⟩ := rpstQuery_spec twoPoints _ ⟨1, 1, 1⟩ holds (by decide)
  refine ⟨out, steps, query, once, (members true).mpr ⟨?_, ?_⟩, ?_⟩
  · exact Pst.mem_node.mpr (.inr ⟨true, Pst.mem_node.mpr (.inl rfl)⟩)
  · exact ⟨by decide, by decide, by decide⟩
  · intro isIn
    have from_ := ((members false).mp isIn).2.from_
    exact absurd from_ (by decide)

end NetBSD.Gen
