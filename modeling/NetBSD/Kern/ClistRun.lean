import NetBSD.Kern.Clist
import NetBSD.Machine.Trace

/-!
Owns what a character list is: a queue of at most so many characters with their quote bits. The
held cells are those of the ring from `c_cf` on.
-/

namespace NetBSD.Kern

open NetBSD.Machine Function Nat BitVec Clist

section Bits

variable {a cp : QuoteMap} {i n off len : Nat}

theorem getLsbD_bit {k : Nat}
    (lt : k < 8) : (BitVec.ofNat 8 (2 ^ n)).getLsbD k = decide (n = k) := by
  rw [getLsbD_ofNat, decide_eq_true lt, Bool.true_and, testBit_two_pow]

theorem isset_setbit : isset (setbit a n) i = (isset a i || decide (i = n)) := by
  unfold isset setbit
  by_cases sameByte : i / 8 = n / 8
  · rw [sameByte, update_self, getLsbD_or, getLsbD_bit (mod_lt i (by decide))]
    congr 2
    rw [eq_iff_iff]
    omega
  · rw [update_of_ne sameByte]
    have ne : i ≠ n := fun same => sameByte (by rw [same])
    rw [decide_eq_false ne, Bool.or_false]

theorem isset_mask {byte : Nat} {mask : BitVec 8} (isByte : i / 8 = byte) :
    isset (update cp byte (cp byte &&& ~~~mask)) i =
      (isset cp i && !mask.getLsbD (i % 8)) := by
  unfold isset
  rw [isByte, update_self, getLsbD_and, getLsbD_not,
    decide_eq_true (mod_lt i (by decide)), Bool.true_and]

theorem isset_update_of_ne {byte : Nat} {v : BitVec 8} (oth : i / 8 ≠ byte) :
    isset (update cp byte v) i = isset cp i := by
  unfold isset
  rw [update_of_ne oth]

theorem isset_clrbit : isset (clrbit a n) i = (isset a i && !decide (i = n)) := by
  unfold clrbit
  by_cases sameByte : i / 8 = n / 8
  · rw [isset_mask sameByte, getLsbD_bit (mod_lt i (by decide))]
    congr 3
    rw [eq_iff_iff]
    omega
  · rw [isset_update_of_ne sameByte]
    have ne : i ≠ n := fun same => sameByte (by rw [same])
    rw [decide_eq_false ne, Bool.not_false, Bool.and_true]

theorem isset_clearBytes (cnt scp : Nat) : isset (clearBytes cp scp cnt) i =
      (isset cp i && !decide (scp ≤ i / 8 ∧ i / 8 < scp + cnt)) := by
  induction cnt generalizing cp scp with
  | zero =>
    rw [clearBytes, decide_eq_false (by omega), Bool.not_false, Bool.and_true]
  | succ cnt ih =>
    rw [clearBytes, ih]
    by_cases fst : i / 8 = scp
    · have eq0 : isset (update cp scp 0) i = false := by
        unfold isset
        rw [fst, update_self]
        exact getLsbD_zero
      rw [eq0, Bool.false_and, decide_eq_true (by omega), Bool.not_true, Bool.and_false]
    · rw [isset_update_of_ne fst]
      congr 2
      rw [decide_eq_decide]
      omega

theorem getLsbD_low {k : Nat} (lt : k < 8) :
    (BitVec.ofNat 8 (2 ^ n - 1)).getLsbD k = decide (k < n) := by
  rw [getLsbD_ofNat, decide_eq_true lt, Bool.true_and, testBit_two_pow_sub_one]

theorem getLsbD_between {k : Nat} (lt : k < 8) :
    (BitVec.ofNat 8 ((2 ^ len - 1) * 2 ^ n)).getLsbD k = decide (n ≤ k ∧ k < n + len) := by
  rw [getLsbD_ofNat, decide_eq_true lt, Bool.true_and, Nat.mul_comm,
    testBit_two_pow_mul, testBit_two_pow_sub_one]
  by_cases isBelow : n ≤ k
  · rw [decide_eq_true isBelow, Bool.true_and, decide_eq_decide]
    omega
  · rw [decide_eq_false isBelow, Bool.false_and, decide_eq_false fun both => isBelow both.1]

/-- `clrbits` clears the bits of its range and no others. -/
theorem isset_clrbits : isset (clrbits cp off len) i =
    (isset cp i && !decide (off ≤ i ∧ i < off + len)) := by
  unfold clrbits
  have lt := mod_lt i (show 0 < 8 by decide)
  by_cases sgl : off / 8 ≥ (off + len + 8 - 1) / 8 - 1
  · rw [if_pos sgl]
    by_cases isByte : i / 8 = off / 8
    · rw [isset_mask isByte, getLsbD_between lt]
      congr 2
      rw [decide_eq_decide]
      omega
    · rw [isset_update_of_ne isByte, decide_eq_false (by omega), Bool.not_false, Bool.and_true]
  rw [if_neg sgl, isset_clearBytes]
  by_cases last : i / 8 = (off + len + 8 - 1) / 8 - 1
  · rw [isset_mask last, getLsbD_low lt, isset_update_of_ne (by omega), Bool.and_assoc,
      ← Bool.not_or]
    congr 2
    rw [← Bool.decide_or, decide_eq_decide]
    omega
  rw [isset_update_of_ne last]
  by_cases fst : i / 8 = off / 8
  · have kept : isset (update cp (off / 8)
        (cp (off / 8) &&& BitVec.ofNat 8 (2 ^ (off % 8) - 1))) i =
          (isset cp i && decide (i % 8 < off % 8)) := by
      unfold isset
      rw [fst, update_self, getLsbD_and, getLsbD_low lt]
    have notBehind : ¬ (off / 8 + 1 ≤ i / 8 ∧
        i / 8 < off / 8 + 1 + ((off + len + 8 - 1) / 8 - 1 - (off / 8 + 1))) := by omega
    rw [kept, decide_eq_false notBehind, Bool.not_false, Bool.and_true]
    congr 1
    rw [← decide_not, decide_eq_decide]
    omega
  · rw [isset_update_of_ne fst]
    congr 2
    rw [decide_eq_decide]
    omega

end Bits

section Queue

/-- A character with its quote bit as an `int`. -/
def code (entry : UInt8 × Bool) : UInt32 :=
  if entry.2 then entry.1.toUInt32 ||| ttyQuote else entry.1.toUInt32

def Clist.cell (clp : Clist) (p : Nat) : UInt8 × Bool :=
  (clp.c_cs p, clp.c_cq.elim false fun c_cq => isset c_cq p)

inductive ClistCall where
  | getc
  | qToB (count : Int)
  | ndflush (count : Int)
  | putc (c : UInt32)
  | bToQ (cp : List UInt8)
  | unputc

inductive ClistAnswer where
  | character (c : UInt32)
  | bytes (p : List UInt8)
  | left (count : Nat)
  | done
deriving DecidableEq, Repr

def clistStep (clp : Clist) : ClistCall → Option (Clist × ClistAnswer)
  | .getc => (getc clp).map fun (clp, c) => (clp, .character c)
  | .qToB count => (qToB clp count).map fun (clp, p) => (clp, .bytes p)
  | .ndflush count => (ndflush clp count).map fun clp => (clp, .done)
  | .putc c => (putc c clp).map fun (clp, result) => (clp, .character result)
  | .bToQ cp => (bToQ cp clp).map fun (clp, count) => (clp, .left count)
  | .unputc => (unputc clp).map fun (clp, c) => (clp, .character c)

def queueStep (size : Nat) (quot : Bool) (contents : List (UInt8 × Bool)) :
    ClistCall → List (UInt8 × Bool) × ClistAnswer
  | .getc => (contents.drop 1, .character (contents.head?.elim minusOne code))
  | .qToB count => (contents.drop count.toNat, .bytes ((contents.take count.toNat).map Prod.fst))
  | .ndflush count => (contents.drop count.toNat, .done)
  | .putc c =>
    if contents.length = size then (contents, .character minusOne)
    else (contents ++ [(c.toUInt8, quot && decide (c &&& ttyQuote ≠ 0))], .character 0)
  | .bToQ cp =>
    (contents ++ (cp.take (size - contents.length)).map fun c => (c, false),
      .left (cp.length - (size - contents.length)))
  | .unputc => (contents.dropLast, .character (contents.getLast?.elim minusOne code))

/-- The cells from `f` on hold a queue, and `c_cl` is behind them. -/
structure Rings (size : Nat) (quot : Bool) (f : Nat) (clp : Clist) (contents : List (UInt8 × Bool)) :
    Prop where
  c_cn : clp.c_cn = size
  quoted : clp.c_cq.isSome = quot
  c_cc : clp.c_cc = contents.length
  within : contents.length ≤ size
  firstBelow : f < size
  c_cf : clp.c_cf = some f
  c_cl : clp.c_cl = some ((f + contents.length) % size)
  cells : ring clp.cell size f contents.length = contents

/-- A list that holds a queue; without anything in it the pointers are null. -/
def Holds (size : Nat) (quot : Bool) (clp : Clist) (contents : List (UInt8 × Bool)) : Prop :=
  if contents = [] then
    clp.c_cn = size ∧ clp.c_cq.isSome = quot ∧ clp.c_cc = 0 ∧ clp.c_cf = none ∧ clp.c_cl = none
  else ∃ f, Rings size quot f clp contents

variable {size f : Nat} {quot : Bool} {clp : Clist} {contents : List (UInt8 × Bool)}

theorem charAt_eq (clp : Clist) (p : Nat) : clp.charAt p = code (clp.cell p) := by
  unfold charAt code cell
  cases clp.c_cq with
  | none => rfl
  | some c_cq => rfl

theorem wrap_eq {p : Nat} (hsz : clp.c_cn = size) (le : p ≤ size) :
    clp.wrap p = p % size := by
  unfold wrap
  rw [hsz]
  by_cases isEnd : p = size
  · rw [if_pos isEnd, isEnd, mod_self]
  · rw [if_neg isEnd, mod_eq_of_lt (by omega)]

theorem Rings.holds (rings : Rings size quot f clp contents) :
    Holds size quot clp.clearEmpty contents := by
  unfold Holds Clist.clearEmpty
  by_cases empty : contents = []
  · have zero : clp.c_cc = 0 := by
      rw [rings.c_cc, empty]
      rfl
    rw [if_pos empty, if_pos zero]
    exact ⟨rings.c_cn, rings.quoted, zero, rfl, rfl⟩
  · have nz : clp.c_cc ≠ 0 := by
      rw [rings.c_cc]
      exact fun zero => empty (List.length_eq_zero_iff.mp zero)
    rw [if_neg empty, if_neg nz]
    exact ⟨f, rings⟩

theorem Holds.start (holds : Holds size quot clp contents) (pos : 0 < size) :
    ∃ f, Rings size quot f clp.startEmpty contents := by
  unfold Holds at holds
  unfold startEmpty
  by_cases empty : contents = []
  · rw [if_pos empty] at holds
    obtain ⟨c_cn, quoted, c_cc, _, _⟩ := holds
    rw [if_pos c_cc, empty]
    exact ⟨0, c_cn, quoted, c_cc, zero_le size, pos, rfl, rfl, rfl⟩
  rw [if_neg empty] at holds
  obtain ⟨f, rings⟩ := holds
  have nz : clp.c_cc ≠ 0 := by
    rw [rings.c_cc]
    exact fun zero => empty (List.length_eq_zero_iff.mp zero)
  rw [if_neg nz]
  exact ⟨f, rings⟩

theorem Holds.count (holds : Holds size quot clp contents) :
    clp.c_cn = size ∧ clp.c_cc = contents.length ∧ contents.length ≤ size := by
  unfold Holds at holds
  by_cases empty : contents = []
  · rw [if_pos empty] at holds
    rw [empty]
    exact ⟨holds.1, holds.2.2.1, zero_le size⟩
  · rw [if_neg empty] at holds
    obtain ⟨f, rings⟩ := holds
    exact ⟨rings.c_cn, rings.c_cc, rings.within⟩

theorem Holds.rings (holds : Holds size quot clp contents) (ne : contents ≠ []) :
    ∃ f, Rings size quot f clp contents := by
  unfold Holds at holds
  rwa [if_neg ne] at holds

variable {cnt : Nat}

theorem Rings.drop (rings : Rings size quot f clp contents) (le : cnt ≤ contents.length)
    (bnd : f + cnt ≤ size) : Rings size quot ((f + cnt) % size)
      { clp with c_cc := clp.c_cc - cnt, c_cf := some (clp.wrap (f + cnt)) }
      (contents.drop cnt) ∧
    span clp.c_cs f cnt = (contents.take cnt).map Prod.fst := by
  have pos : 0 < size := Nat.lt_of_le_of_lt (Nat.zero_le f) rings.firstBelow
  have split := @ring_append _ clp.cell size f cnt (contents.length - cnt)
  rw [Nat.add_sub_cancel' le, rings.cells, ring_eq_span bnd] at split
  have isDrop : contents.drop cnt =
      ring clp.cell size ((f + cnt) % size) (contents.length - cnt) := by
    conv_lhs => rw [split]
    exact List.drop_left' length_span
  have isTake : contents.take cnt = span clp.cell f cnt := by
    conv_lhs => rw [split]
    exact List.take_left' length_span
  refine ⟨⟨rings.c_cn, rings.quoted, ?_, ?_, mod_lt _ pos, ?_, ?_, ?_⟩, ?_⟩
  · rw [List.length_drop, ← rings.c_cc]
  · rw [List.length_drop]
    exact le_trans (sub_le _ _) rings.within
  · exact congrArg some (wrap_eq rings.c_cn bnd)
  · rw [List.length_drop, mod_add_mod, Nat.add_assoc, Nat.add_sub_cancel' le]
    exact rings.c_cl
  · rw [List.length_drop]
    exact isDrop.symm
  · rw [isTake]
    unfold span
    rw [List.map_map]
    rfl

theorem Rings.append {c_cs : Nat → UInt8} {c_cq : Option QuoteMap} {values : List (UInt8 × Bool)}
    {l : Nat} (rings : Rings size quot f clp contents) (isEnd : l = (f + contents.length) % size)
    (bnd : l + values.length ≤ size) (rm : contents.length + values.length ≤ size)
    (quoted : c_cq.isSome = quot)
    (out : ∀ i, i < l ∨ l + values.length ≤ i → cell { clp with c_cs, c_cq } i = clp.cell i)
    (lt : span (cell { clp with c_cs, c_cq }) l values.length = values) :
    Rings size quot f { clp with
        c_cs
        c_cq
        c_cc := clp.c_cc + values.length
        c_cl := some (clp.wrap (l + values.length)) } (contents ++ values) := by
  subst isEnd
  refine ⟨rings.c_cn, quoted, ?_, ?_, rings.firstBelow, rings.c_cf, ?_, ?_⟩
  · rw [List.length_append, ← rings.c_cc]
  · rw [List.length_append]
    exact rm
  · have isWrap := wrap_eq rings.c_cn bnd
    rw [mod_add_mod] at isWrap
    rw [List.length_append, ← add_assoc]
    exact congrArg some isWrap
  · rw [List.length_append]
    have wrote := ring_write_back rings.firstBelow bnd rm out
    rw [rings.cells, lt] at wrote
    exact wrote

theorem Holds.clearEmpty (holds : Holds size quot clp []) :
    clp.c_cc = 0 ∧ Holds size quot clp.clearEmpty [] := by
  obtain ⟨c_cn, quoted, c_cc, _, _⟩ := holds
  unfold Holds Clist.clearEmpty
  rw [if_pos c_cc]
  exact ⟨c_cc, c_cn, quoted, c_cc, rfl, rfl⟩

theorem Rings.contiguous (rings : Rings size quot f clp contents) (ne : 0 < contents.length)
    (pos : 0 < cnt) : 0 < clp.contiguous f ((f + contents.length) % size) cnt ∧
      clp.contiguous f ((f + contents.length) % size) cnt ≤ contents.length ∧
      clp.contiguous f ((f + contents.length) % size) cnt ≤ cnt ∧
      f + clp.contiguous f ((f + contents.length) % size) cnt ≤ size := by
  have below := rings.firstBelow
  have bnd := rings.within
  unfold Clist.contiguous
  rw [rings.c_cn]
  by_cases wraps : f + contents.length < size
  · rw [mod_eq_of_lt wraps, if_neg (by omega)]
    omega
  · rw [mod_eq_sub_mod (by omega), mod_eq_of_lt (by omega), if_pos (by omega)]
    omega

variable {rounds : Nat} {p : List UInt8}

theorem qToBLoop_step {l : Nat} (fst : clp.c_cf = some f) (last : clp.c_cl = some l)
    (more : cnt > 0 ∧ clp.c_cc > 0) :
    qToBLoop (rounds + 1) clp cnt p = qToBLoop rounds { clp with
        c_cc := clp.c_cc - clp.contiguous f l cnt
        c_cf := some (clp.wrap (f + clp.contiguous f l cnt)) }
      (cnt - clp.contiguous f l cnt) (p ++ span clp.c_cs f (clp.contiguous f l cnt)) := by
  rw [qToBLoop, if_pos more]
  cases clp
  cases fst
  cases last
  rfl

/-- The loop takes the first `cnt` characters over the end of the ring. -/
theorem qToBLoop_spec (p : List UInt8) (rings : Rings size quot f clp contents)
    (suff : contents.length < rounds) : ∃ s',
    qToBLoop rounds clp cnt p = some (s', p ++ (contents.take cnt).map Prod.fst) ∧
      Holds size quot s' (contents.drop cnt) := by
  induction rounds generalizing f clp contents cnt p with
  | zero => exact absurd suff (not_lt_zero _)
  | succ rounds ih =>
    by_cases more : cnt > 0 ∧ clp.c_cc > 0
    · rw [qToBLoop_step rings.c_cf rings.c_cl more]
      have ne : 0 < contents.length := by
        rw [← rings.c_cc]
        exact more.2
      obtain ⟨some_, le, atMostCount, bnd⟩ := rings.contiguous ne more.1
      generalize clp.contiguous f ((f + contents.length) % size) cnt = cc at *
      obtain ⟨tl, isSpan⟩ := rings.drop le bnd
      have fewer : (contents.drop cc).length < rounds := by
        rw [List.length_drop]
        omega
      obtain ⟨left, isCount⟩ : ∃ left, cnt = cc + left := ⟨cnt - cc, by omega⟩
      rw [isCount, Nat.add_sub_cancel_left]
      obtain ⟨s', isLoop, holds⟩ :=
        @ih _ _ _ left (p ++ span clp.c_cs f cc) tl fewer
      refine ⟨s', ?_, ?_⟩
      · rw [isLoop, isSpan, List.append_assoc, ← List.map_append, ← List.take_add]
      · rw [← List.drop_drop]
        exact holds
    · rw [qToBLoop, if_neg more]
      have isOver : contents.take cnt = [] ∧ contents.drop cnt = contents := by
        rw [rings.c_cc] at more
        by_cases eq0 : cnt = 0
        · rw [eq0]
          exact ⟨rfl, rfl⟩
        · have empty : contents = [] := List.length_eq_zero_iff.mp (by omega)
          rw [empty, List.take_nil, List.drop_nil]
          exact ⟨rfl, rfl⟩
      rw [isOver.1, isOver.2, List.map_nil, List.append_nil]
      exact ⟨_, rfl, rings.holds⟩

theorem qToB_spec (holds : Holds size quot clp contents) (cnt : Int) : ∃ s',
    qToB clp cnt = some (s', (contents.take cnt.toNat).map Prod.fst) ∧
      Holds size quot s' (contents.drop cnt.toNat) := by
  unfold qToB
  by_cases empty : contents = []
  · subst empty
    obtain ⟨c_cc, clrd⟩ := holds.clearEmpty
    rw [qToBLoop, if_neg (by rw [c_cc]; omega), List.take_nil, List.drop_nil]
    exact ⟨_, rfl, clrd⟩
  · obtain ⟨f, rings⟩ := holds.rings empty
    exact qToBLoop_spec [] rings (by rw [rings.c_cc]; exact lt_succ_self _)

theorem ndflushLoop_eq (rounds cnt : Nat) (p : List UInt8) :
    ndflushLoop rounds clp cnt = (qToBLoop rounds clp cnt p).map Prod.fst := by
  induction rounds generalizing clp cnt p with
  | zero => rfl
  | succ rounds ih =>
    rw [ndflushLoop, qToBLoop]
    split
    · cases clp.c_cf with
      | none => rfl
      | some f =>
        cases clp.c_cl with
        | none => rfl
        | some l => exact ih _ _
    · rfl

theorem ndflush_spec (holds : Holds size quot clp contents) (cnt : Int) : ∃ s',
    ndflush clp cnt = some s' ∧ Holds size quot s' (contents.drop cnt.toNat) := by
  unfold ndflush
  by_cases isAll : cnt = clp.c_cc
  · rw [if_pos isAll]
    have empty : contents.drop cnt.toNat = [] := by
      rw [isAll, holds.count.2.1, Int.toNat_natCast, List.drop_length]
    rw [empty]
    refine ⟨_, rfl, ?_⟩
    have quoted : clp.c_cq.isSome = quot := by
      unfold Holds at holds
      split at holds
      · exact holds.2.1
      · exact holds.choose_spec.quoted
    exact ⟨holds.count.1, quoted, rfl, rfl, rfl⟩
  · rw [if_neg isAll, ndflushLoop_eq _ _ []]
    obtain ⟨s', isMoved, tl⟩ := qToB_spec holds cnt
    unfold qToB at isMoved
    rw [isMoved]
    exact ⟨s', rfl, tl⟩

theorem Rings.congr {c_cs : Nat → UInt8} {hole : Nat} (rings : Rings size quot f clp contents)
    (same : ∀ i, i ≠ hole → c_cs i = clp.c_cs i)
    (notHeld : ∀ i < contents.length, (f + i) % size ≠ hole) :
    Rings size quot f { clp with c_cs } contents := by
  refine { rings with cells := ?_ }
  rw [← rings.cells, length_ring]
  apply ring_congr
  intro i below
  exact congrArg (fun c => (c, _)) (same _ (notHeld i below))

theorem Rings.holds_of_ne (rings : Rings size quot f clp contents) (ne : contents ≠ []) :
    Holds size quot clp contents := by
  unfold Holds
  rw [if_neg ne]
  exact ⟨f, rings⟩

/-- `getc` takes the first character, quote bit and all, or answers -1. -/
theorem getc_spec (holds : Holds size quot clp contents) : ∃ s',
    getc clp = some (s', contents.head?.elim minusOne code) ∧
      Holds size quot s' (contents.drop 1) := by
  unfold getc
  cases isContents : contents with
  | nil =>
    subst isContents
    rw [if_pos holds.clearEmpty.1]
    exact ⟨clp, rfl, holds⟩
  | cons head tail =>
    have notEmpty : contents ≠ [] := by
      rw [isContents]
      exact List.cons_ne_nil head tail
    obtain ⟨f, rings⟩ := holds.rings notEmpty
    have hlen : contents.length = tail.length + 1 := by
      rw [isContents]
      rfl
    have below := rings.firstBelow
    have bnd := rings.within
    have hd : clp.cell f = head := by
      have cells := rings.cells
      rw [hlen, ring_cons, isContents, mod_eq_of_lt below] at cells
      exact (List.cons.inj cells).1
    obtain ⟨tl, _⟩ := rings.drop (show 1 ≤ contents.length by omega) (by omega)
    have notHeld : ∀ i < (contents.drop 1).length, ((f + 1) % size + i) % size ≠ f := by
      intro i lt
      rw [List.length_drop] at lt
      rw [mod_add_mod]
      by_cases wraps : f + 1 + i < size
      · rw [mod_eq_of_lt wraps]
        omega
      · rw [mod_eq_sub_mod (by omega), mod_eq_of_lt (by omega)]
        omega
    have isWiped : ∀ i, i ≠ f → update clp.c_cs f 0 i = clp.c_cs i :=
      fun i ne => update_of_ne ne 0 clp.c_cs
    have wiped := tl.congr isWiped notHeld
    rw [if_neg (by rw [rings.c_cc]; omega), rings.c_cf, isContents.symm]
    refine ⟨_, ?_, wiped.holds⟩
    have isChar : clp.charAt f = contents.head?.elim minusOne code := by
      rw [charAt_eq, hd, isContents]
      rfl
    rw [← isChar]
    rfl

/-- `unputc` takes back the last character put. -/
theorem unputc_spec (holds : Holds size quot clp contents) : ∃ s',
    unputc clp = some (s', contents.getLast?.elim minusOne code) ∧
      Holds size quot s' contents.dropLast := by
  unfold unputc
  by_cases empty : contents = []
  · subst empty
    rw [if_pos holds.clearEmpty.1]
    exact ⟨clp, rfl, holds⟩
  obtain ⟨f, rings⟩ := holds.rings empty
  obtain ⟨cnt, isCount⟩ : ∃ cnt, contents.length = cnt + 1 :=
    ⟨contents.length - 1, by have := List.length_pos_iff.mpr empty; omega⟩
  have below := rings.firstBelow
  have bnd := rings.within
  have cells := rings.cells
  rw [isCount, ring_succ] at cells
  have isBack : (if (f + contents.length) % size = 0 then clp.c_cn - 1
      else (f + contents.length) % size - 1) = (f + cnt) % size := by
    rw [rings.c_cn, isCount]
    by_cases wraps : f + cnt < size
    · rw [mod_eq_of_lt wraps]
      by_cases isEnd : f + (cnt + 1) = size
      · rw [isEnd, mod_self, if_pos rfl]
        omega
      · rw [mod_eq_of_lt (by omega), if_neg (by omega)]
        omega
    · rw [mod_eq_sub_mod (show size ≤ f + cnt by omega),
        mod_eq_sub_mod (show size ≤ f + (cnt + 1) by omega),
        mod_eq_of_lt (show f + (cnt + 1) - size < size by omega),
        mod_eq_of_lt (show f + cnt - size < size by omega), if_neg (by omega)]
      omega
  rw [if_neg (by rw [rings.c_cc]; omega), rings.c_cl]
  have last : contents.getLast? = some (clp.cell ((f + cnt) % size)) := by
    rw [← cells, List.getLast?_concat]
  have isFront : contents.dropLast = ring clp.cell size f cnt := by
    rw [← cells, List.dropLast_concat]
  have tl : Rings size quot f { clp with c_cl := some ((f + cnt) % size), c_cc := clp.c_cc - 1 }
      contents.dropLast := by
    have hlen : contents.dropLast.length = cnt := by
      rw [isFront, length_ring]
    refine ⟨rings.c_cn, rings.quoted, ?_, by omega, below, rings.c_cf, ?_, ?_⟩
    · rw [hlen, rings.c_cc, isCount]
      rfl
    · rw [hlen]
    · rw [hlen]
      exact isFront.symm
  refine ⟨_, ?_, tl.holds⟩
  rw [last, ← isBack]
  exact congrArg (fun c => some (_, c)) (charAt_eq _ _)

/-- `putc` appends where the ring has room. -/
theorem putc_spec (holds : Holds size quot clp contents) (pos : 0 < size) (c : UInt32)
    (rm : contents.length ≠ size) : ∃ s', putc c clp = some (s', 0) ∧
      Holds size quot s' (contents ++ [(c.toUInt8, quot && decide (c &&& ttyQuote ≠ 0))]) := by
  obtain ⟨c_cn, c_cc, bnd⟩ := holds.count
  obtain ⟨f, rings⟩ := holds.start pos
  unfold putc
  rw [if_neg (by rw [c_cn, c_cc]; exact rm)]
  generalize clp.startEmpty = started at rings
  have lt : (f + contents.length) % size < size := mod_lt _ pos
  generalize isEnd : (f + contents.length) % size = l at lt
  have c_cl : started.c_cl = some l := by
    rw [rings.c_cl, isEnd]
  have quoted := rings.quoted
  have appended := @Rings.append size f quot started contents
    (update started.c_cs l c.toUInt8)
    (started.c_cq.map fun c_cq => if c &&& ttyQuote ≠ 0 then setbit c_cq l else clrbit c_cq l)
    [(c.toUInt8, quot && decide (c &&& ttyQuote ≠ 0))] l rings isEnd.symm lt
    (by rw [List.length_singleton]; omega) (by rw [Option.isSome_map, quoted])
  refine ⟨_, ?_, (appended ?_ ?_).holds_of_ne (List.append_ne_nil_of_right_ne_nil _
    (List.cons_ne_nil _ _))⟩
  · cases started
    cases c_cl
    rfl
  · intro i apart
    have ne : i ≠ l := by
      rw [List.length_singleton] at apart
      omega
    unfold cell
    dsimp only
    rw [update_of_ne ne]
    cases started.c_cq with
    | none => rfl
    | some c_cq =>
      show (_, isset (if _ then _ else _) i) = (_, isset c_cq i)
      split
      · rw [isset_setbit, decide_eq_false ne, Bool.or_false]
      · rw [isset_clrbit, decide_eq_false ne, Bool.not_false, Bool.and_true]
  · show [cell _ (l + 0)] = _
    unfold cell
    dsimp only
    rw [add_zero, update_self, ← quoted]
    cases started.c_cq with
    | none => rfl
    | some c_cq =>
      show [(_, isset (if _ then _ else _) l)] = [(_, true && _)]
      rw [Bool.true_and]
      split
      · rename_i isQuote
        rw [isset_setbit, decide_eq_true rfl, Bool.or_true, decide_eq_true isQuote]
      · rename_i notQuote
        rw [isset_clrbit, decide_eq_true rfl, Bool.not_true, Bool.and_false,
          decide_eq_false notQuote]

theorem bToQLoop_step {l cc : Nat} (fst : clp.c_cf = some f) (last : clp.c_cl = some l)
    (more : p.length > 0 ∧ clp.c_cc < clp.c_cn)
    (isCount : min (if f > l then f - l else clp.c_cn - l) p.length = cc) :
    bToQLoop (rounds + 1) p clp = bToQLoop rounds (p.drop cc) { clp with
        c_cs := fill clp.c_cs l (p.take cc)
        c_cq := clp.c_cq.map fun c_cq => clrbits c_cq l cc
        c_cc := clp.c_cc + cc
        c_cl := some (clp.wrap (l + cc)) } := by
  rw [bToQLoop, if_pos more]
  cases clp
  cases fst
  cases last
  cases isCount
  rfl

theorem Rings.write {l : Nat} {p : List UInt8} (rings : Rings size quot f clp contents)
    (isEnd : (f + contents.length) % size = l) (bnd : l + p.length ≤ size)
    (rm : contents.length + p.length ≤ size) : Rings size quot f { clp with
        c_cs := fill clp.c_cs l p
        c_cq := clp.c_cq.map fun c_cq => clrbits c_cq l p.length
        c_cc := clp.c_cc + p.length
        c_cl := some (clp.wrap (l + p.length)) } (contents ++ p.map fun c => (c, false)) := by
  have hlen : (p.map fun c => (c, false)).length = p.length := List.length_map _
  have appended := @Rings.append size f quot clp contents (fill clp.c_cs l p)
    (clp.c_cq.map fun c_cq => clrbits c_cq l p.length)
    (p.map fun c => (c, false)) l rings isEnd.symm
  rw [hlen] at appended
  apply appended bnd rm
  · rw [Option.isSome_map, rings.quoted]
  · intro i apart
    have isChar : fill clp.c_cs l p i = clp.c_cs i := by
      rcases apart with lt | isAbove
      · exact fill_of_lt lt
      · exact fill_of_ge isAbove
    unfold cell
    dsimp only
    rw [isChar]
    cases clp.c_cq with
    | none => rfl
    | some c_cq =>
      show (_, isset (clrbits c_cq l p.length) i) = (_, isset c_cq i)
      rw [isset_clrbits, decide_eq_false (by omega), Bool.not_false, Bool.and_true]
  · have isSpan := @span_fill _ clp.c_cs l p
    have isMap : p.map (fun c => (c, false)) =
        (span (fill clp.c_cs l p) l p.length).map fun c => (c, false) := by
      rw [isSpan]
    rw [isMap]
    unfold span
    rw [List.map_map]
    apply List.map_congr_left
    intro i isIn
    have below := List.mem_range.mp isIn
    cases clp.c_cq with
    | none => rfl
    | some c_cq =>
      show (_, isset (clrbits c_cq l p.length) (l + i)) = (_, false)
      rw [isset_clrbits, decide_eq_true (by omega), Bool.not_true, Bool.and_false]

/-- A block goes in up to the room left, and the rest is counted. -/
theorem bToQLoop_spec (rings : Rings size quot f clp contents) (suff : p.length < rounds) :
    ∃ s',
    bToQLoop rounds p clp = some (s', p.length - (size - contents.length)) ∧
      Rings size quot f s'
        (contents ++ (p.take (size - contents.length)).map fun c => (c, false)) := by
  induction rounds generalizing clp contents p with
  | zero => exact absurd suff (not_lt_zero _)
  | succ rounds ih =>
    have below := rings.firstBelow
    have c_cc := rings.c_cc
    have c_cn := rings.c_cn
    by_cases more : p.length > 0 ∧ clp.c_cc < clp.c_cn
    · obtain ⟨cc, isCount⟩ : ∃ cc, min (if f > (f + contents.length) % size then
        f - (f + contents.length) % size else clp.c_cn - (f + contents.length) % size) p.length =
          cc := ⟨_, rfl⟩
      obtain ⟨some_, le, fits, rm⟩ : 0 < cc ∧ cc ≤ p.length ∧
          (f + contents.length) % size + cc ≤ size ∧ contents.length + cc ≤ size := by
        rw [← isCount]
        by_cases wraps : f + contents.length < size
        · rw [mod_eq_of_lt wraps, if_neg (by omega)]
          omega
        · rw [mod_eq_sub_mod (by omega), mod_eq_of_lt (by omega), if_pos (by omega)]
          omega
      have hlen : (p.take cc).length = cc := List.length_take_of_le le
      have wrote := @Rings.write size f quot clp contents _ (p.take cc) rings rfl
        (by rw [hlen]; exact fits) (by rw [hlen]; exact rm)
      have fewer : (p.drop cc).length < rounds := by
        rw [List.length_drop]
        omega
      rw [bToQLoop_step rings.c_cf rings.c_cl more isCount]
      rw [hlen] at wrote
      obtain ⟨s', isLoop, tl⟩ := ih wrote fewer
      have isRoom : size - (contents ++ (p.take cc).map fun c => (c, false)).length =
          size - contents.length - cc := by
        rw [List.length_append, List.length_map]
        omega
      rw [isRoom] at isLoop tl
      refine ⟨s', ?_, ?_⟩
      · rw [isLoop, List.length_drop]
        congr 2
        omega
      · rw [List.append_assoc, ← List.map_append, ← List.take_add,
          show cc + (size - contents.length - cc) = size - contents.length by omega] at tl
        exact tl
    · rw [bToQLoop, if_neg more]
      have isOver : p.take (size - contents.length) = [] := by
        by_cases empty : p.length = 0
        · rw [List.length_eq_zero_iff.mp empty, List.take_nil]
        · rw [show size - contents.length = 0 by omega, List.take_zero]
      rw [isOver, List.map_nil, List.append_nil]
      refine ⟨clp, ?_, rings⟩
      congr 2
      omega

theorem bToQ_spec (holds : Holds size quot clp contents) (pos : 0 < size) (cp : List UInt8) :
    ∃ s', bToQ cp clp = some (s', cp.length - (size - contents.length)) ∧
      Holds size quot s'
        (contents ++ (cp.take (size - contents.length)).map fun c => (c, false)) := by
  obtain ⟨c_cn, c_cc, bnd⟩ := holds.count
  unfold bToQ
  by_cases empty : cp.length = 0
  · rw [if_pos empty, List.length_eq_zero_iff.mp empty, List.take_nil, List.map_nil,
      List.append_nil, List.length_nil, Nat.zero_sub]
    exact ⟨clp, rfl, holds⟩
  rw [if_neg empty]
  by_cases isFull : clp.c_cc = clp.c_cn
  · rw [if_pos isFull, show size - contents.length = 0 by omega, List.take_zero, List.map_nil,
      List.append_nil, Nat.sub_zero]
    exact ⟨clp, rfl, holds⟩
  rw [if_neg isFull]
  obtain ⟨f, rings⟩ := holds.start pos
  obtain ⟨s', isLoop, wrote⟩ := bToQLoop_spec rings (lt_succ_self cp.length)
  refine ⟨s', isLoop, wrote.holds_of_ne ?_⟩
  apply List.append_ne_nil_of_right_ne_nil
  intro isNil
  have hlen := congrArg List.length isNil
  rw [List.length_map, List.length_take, List.length_nil] at hlen
  omega

/-- Stepping from a cell reads what is left of the queue. -/
theorem nextcs_spec {calls i cc : Nat} (rings : Rings size quot f clp contents)
    (lt : i < contents.length) (isCount : i = 0 ∨ cc = contents.length - i)
    (suff : contents.length - i ≤ calls) :
    nextcs clp calls cc (some ((f + i) % size)) = some ((contents.drop (i + 1)).map code) := by
  induction calls generalizing i cc with
  | zero => omega
  | succ calls ih =>
    have below := rings.firstBelow
    have bnd := rings.within
    have isEffective : (if clp.c_cf = some ((f + i) % size) then clp.c_cc else cc) =
        contents.length - i := by
      rw [rings.c_cf, rings.c_cc]
      rcases isCount with rfl | isLeft
      · rw [Nat.add_zero, mod_eq_of_lt below, if_pos rfl, Nat.sub_zero]
      by_cases eq0 : i = 0
      · rw [eq0, Nat.add_zero, mod_eq_of_lt below, if_pos rfl, Nat.sub_zero]
      have ne : f ≠ (f + i) % size := by
        by_cases wraps : f + i < size
        · rw [mod_eq_of_lt wraps]
          omega
        · rw [mod_eq_sub_mod (by omega), mod_eq_of_lt (by omega)]
          omega
      rw [if_neg fun same => ne (Option.some.inj same)]
      exact isLeft
    unfold nextcs nextc
    dsimp only
    rw [isEffective]
    by_cases last : contents.length - i = 0 ∨ contents.length - i - 1 = 0
    · rw [if_pos last, List.drop_eq_nil_of_le (by omega)]
      rfl
    rw [if_neg last]
    have le : (f + i) % size + 1 ≤ size := mod_lt _ (by omega)
    have next' : clp.wrap ((f + i) % size + 1) = (f + (i + 1)) % size := by
      rw [wrap_eq rings.c_cn le, mod_add_mod, add_assoc]
    have isBelow : i + 1 < contents.length := by omega
    have isCell : clp.cell ((f + (i + 1)) % size) = contents[i + 1] := by
      have same : contents[i + 1]? = some (clp.cell ((f + (i + 1)) % size)) := by
        conv_lhs => rw [← rings.cells]
        unfold ring
        rw [List.getElem?_map, List.getElem?_range isBelow]
        rfl
      rw [List.getElem?_eq_getElem isBelow] at same
      exact (Option.some.inj same).symm
    dsimp only
    rw [next', ih isBelow (.inr (by omega)) (by omega), charAt_eq, isCell,
      List.drop_eq_getElem_cons isBelow]
    rfl

theorem enumerate_spec (holds : Holds size quot clp contents) :
    enumerate clp = some (contents.map code) := by
  obtain ⟨c_cn, c_cc, bnd⟩ := holds.count
  unfold enumerate firstc
  cases isContents : contents with
  | nil =>
    subst isContents
    rw [if_pos holds.clearEmpty.1]
    rfl
  | cons head tail =>
    have ne : contents ≠ [] := by
      rw [isContents]
      exact List.cons_ne_nil head tail
    obtain ⟨f, rings⟩ := holds.rings ne
    have some_ : 0 < contents.length := List.length_pos_iff.mpr ne
    have below := rings.firstBelow
    have hd : clp.cell f = head := by
      have cells := rings.cells
      rw [isContents, List.length_cons, ring_cons, mod_eq_of_lt below] at cells
      exact (List.cons.inj cells).1
    have tl := @nextcs_spec size f quot clp contents (clp.c_cn + 1) 0 clp.c_cc rings some_
      (.inl rfl) (by omega)
    have fst : (f + 0) % size = f := mod_eq_of_lt below
    rw [fst, isContents] at tl
    rw [if_neg (by omega), rings.c_cf]
    show (nextcs clp (clp.c_cn + 1) clp.c_cc (some f)).map _ = _
    rw [tl, charAt_eq, hd]
    rfl

/-- One call on the ring is one step of the queue. -/
theorem clistStep_spec (holds : Holds size quot clp contents) (pos : 0 < size) (call : ClistCall) :
    ∃ s' ans, clistStep clp call = some (s', ans) ∧
      Holds size quot s' (queueStep size quot contents call).1 ∧
      ans = (queueStep size quot contents call).2 := by
  cases call with
  | getc =>
    obtain ⟨s', cl, tl⟩ := getc_spec holds
    exact ⟨s', _, by rw [clistStep, cl]; rfl, tl, rfl⟩
  | qToB cnt =>
    obtain ⟨s', cl, tl⟩ := qToB_spec holds cnt
    exact ⟨s', _, by rw [clistStep, cl]; rfl, tl, rfl⟩
  | ndflush cnt =>
    obtain ⟨s', cl, tl⟩ := ndflush_spec holds cnt
    exact ⟨s', _, by rw [clistStep, cl]; rfl, tl, rfl⟩
  | putc c =>
    by_cases isFull : contents.length = size
    · have cl : putc c clp = some (clp, minusOne) := by
        unfold putc
        rw [if_pos (by rw [holds.count.1, holds.count.2.1]; exact isFull)]
      have isStep : queueStep size quot contents (.putc c) = (contents, .character minusOne) :=
        if_pos isFull
      rw [isStep]
      exact ⟨clp, _, by rw [clistStep, cl]; rfl, holds, rfl⟩
    · obtain ⟨s', cl, added⟩ := putc_spec holds pos c isFull
      have isStep : queueStep size quot contents (.putc c) =
          (contents ++ [(c.toUInt8, quot && decide (c &&& ttyQuote ≠ 0))], .character 0) :=
        if_neg isFull
      rw [isStep]
      exact ⟨s', _, by rw [clistStep, cl]; rfl, added, rfl⟩
  | bToQ cp =>
    obtain ⟨s', cl, added⟩ := bToQ_spec holds pos cp
    exact ⟨s', _, by rw [clistStep, cl]; rfl, added, rfl⟩
  | unputc =>
    obtain ⟨s', cl, tl⟩ := unputc_spec holds
    exact ⟨s', _, by rw [clistStep, cl]; rfl, tl, rfl⟩

theorem clalloc_holds (size : Nat) (quot : Bool) : Holds size quot (clalloc size quot) [] := by
  cases quot with
  | true | false => exact ⟨rfl, rfl, rfl, rfl, rfl⟩

/-- A list answers every sequence of calls as a queue of at most `size` characters does, `firstc`
and `nextc` give what the queue holds, and `c_cc` is its length. `clrbits` clears the bits from an
offset on, as many as the length. -/
theorem clist_queue (size : Nat) (quot : Bool) (pos : 0 < size) :
    (∀ calls : List ClistCall, ∃ reached, ∃ contents : List (UInt8 × Bool),
      produce clistStep calls (clalloc size quot) =
        some (reached, (answers (queueStep size quot) calls []).2) ∧
      contents = (answers (queueStep size quot) calls []).1 ∧
      enumerate reached = some (contents.map code) ∧ reached.c_cc = contents.length ∧
      contents.length ≤ size) ∧
    ∀ cp off len i, isset (clrbits cp off len) i =
      (isset cp i && !decide (off ≤ i ∧ i < off + len)) := by
  constructor
  · intro calls
    obtain ⟨reached, given, produced, holds, same⟩ := produce_simulates (Holds size quot) Eq
      (fun st ideal input related => clistStep_spec related pos input) calls
      (clalloc_holds size quot)
    rw [List.forall₂_eq_eq_eq.le _ _ same] at produced
    exact ⟨reached, _, produced, rfl, enumerate_spec holds, holds.count.2.1, holds.count.2.2⟩
  · exact fun cp off len i => isset_clrbits

theorem clist_queue_three : (∀ calls : List ClistCall, ∃ reached, ∃ contents : List (UInt8 × Bool),
      produce clistStep calls (clalloc 3 true) =
        some (reached, (answers (queueStep 3 true) calls []).2) ∧
      contents = (answers (queueStep 3 true) calls []).1 ∧
      enumerate reached = some (contents.map code) ∧ reached.c_cc = contents.length ∧
      contents.length ≤ 3) ∧
    ∀ cp off len i, isset (clrbits cp off len) i =
      (isset cp i && !decide (off ≤ i ∧ i < off + len)) := clist_queue 3 true (by decide)

/-- Five characters into a ring of three, and three out of it. -/
example : (produce clistStep [.putc 0x161, .bToQ [98, 99, 100], .getc, .putc 0x165, .qToB 2, .unputc]
    (clalloc 3 true)).map Prod.snd = some [.character 0, .left 1, .character 0x161, .character 0,
      .bytes [98, 99], .character 0x165] := by decide

end Queue

end NetBSD.Kern
