import NetBSD.Kern.ClistRun

/-!
Owns `ndqb`: how many characters lie side by side at the front of a character list, up to the first
one with a bit of the flag.
-/

namespace NetBSD.Kern

open NetBSD.Machine Clist

section Model

/-- `QMEM`. -/
def qmem (n : Nat) : Nat := (n - 1) / 8 + 1

/-- `isset` of the bitmap, where `outside` is what lies behind its last byte. -/
def Clist.quoteAt (clp : Clist) (outside : Bool) (c_cq : QuoteMap) (i : Nat) : Bool :=
  if i / 8 < qmem clp.c_cn then isset c_cq i else outside

/-- The loops of `ndqb`, which differ in the test of the character at an index. -/
def ndqbLoop (c_cn : Nat) (stops : Nat → Bool) : Nat → Nat → Nat
  | 0, _ => 0
  | cc + 1, i =>
    if stops i then 0
    else if i + 1 = c_cn then 1
    else ndqbLoop c_cn stops cc (i + 1) + 1

/-- Whether the cell has a bit of the flag other than the quote bit. -/
def Clist.flagged (clp : Clist) (flag : UInt32) (i : Nat) : Bool :=
  decide ((clp.c_cs i).toUInt32 &&& (flag &&& ~~~ttyQuote) ≠ 0)

def ndqb (outside : Bool) (clp : Clist) (flag : UInt32) : Option Nat :=
  if clp.c_cc = 0 then some 0
  else
    clp.c_cf.bind fun f =>
      if flag = 0 then clp.c_cl.map fun l => if l ≤ f then clp.c_cn - f else l - f
      else if flag &&& ttyQuote ≠ 0 then
        -- the index is already that of the next cell when the quote bit is tested
        clp.c_cq.map fun c_cq =>
          ndqbLoop clp.c_cn (fun i => clp.flagged flag i || clp.quoteAt outside c_cq (i + 1))
            clp.c_cc f
      else
        some (ndqbLoop clp.c_cn (fun i => decide ((clp.c_cs i).toUInt32 &&& flag ≠ 0)) clp.c_cc f)

/-- The characters side by side in memory at the front. -/
def Clist.front (clp : Clist) : List UInt32 :=
  clp.c_cf.elim [] fun f => span clp.charAt f (min clp.c_cc (clp.c_cn - f))

/-- The longest prefix of these without a bit of the flag. -/
def Clist.frontRun (clp : Clist) (flag : UInt32) : Nat :=
  (clp.front.takeWhile fun c => decide (c &&& flag = 0)).length

/-- Where the quote bits are asked for: the first character, when it is quoted, stops the count by
another bit or by the quote bit of the next cell, and when it is not, some character with another
bit comes before each cell with a quote bit, up to the cell behind the front. -/
def QuotesHidden (outside : Bool) (clp : Clist) (flag : UInt32) : Prop :=
  flag &&& ttyQuote = 0 ∨ ∀ f c_cq, clp.c_cf = some f → clp.c_cq = some c_cq →
    if clp.quoteAt outside c_cq f = true then
      (clp.flagged flag f || clp.quoteAt outside c_cq (f + 1)) = true
    else ∀ k, 1 ≤ k → k ≤ clp.front.length → clp.quoteAt outside c_cq (f + k) = true →
      ∃ j < k, clp.flagged flag (f + j) = true

end Model

section Counting

variable {stops low quote : Nat → Bool} {n i : Nat}

/-- How many of `n` cells from `i` on come before the first one that stops. -/
def countFrom (stops : Nat → Bool) : Nat → Nat → Nat
  | 0, _ => 0
  | n + 1, i => if stops i then 0 else countFrom stops n (i + 1) + 1

theorem countFrom_congr {stops' : Nat → Bool} (same : ∀ j, i ≤ j → j < i + n → stops' j = stops j) :
    countFrom stops' n i = countFrom stops n i := by
  induction n generalizing i with
  | zero => rfl
  | succ n ih =>
    rw [countFrom, countFrom, same i (le_refl i) (by omega),
      ih fun j above below => same j (by omega) (by omega)]

theorem ndqbLoop_eq {c_cn : Nat} (cc : Nat) (lt : i < c_cn) :
    ndqbLoop c_cn stops cc i = countFrom stops (min cc (c_cn - i)) i := by
  induction cc generalizing i with
  | zero => rw [zero_min, ndqbLoop, countFrom]
  | succ cc ih =>
    rw [ndqbLoop, show min (cc + 1) (c_cn - i) = min cc (c_cn - (i + 1)) + 1 by omega, countFrom]
    by_cases last : i + 1 = c_cn
    · rw [if_pos last, last, Nat.sub_self, Nat.min_zero, countFrom]
    · rw [if_neg last, ih (by omega)]

theorem length_takeWhile_span (p : UInt32 → Bool) (cell : Nat → UInt32) (n i : Nat) :
    ((span cell i n).takeWhile p).length = countFrom (fun j => !p (cell j)) n i := by
  induction n generalizing i with
  | zero => rfl
  | succ n ih =>
    have isCons : span cell i (n + 1) = cell i :: span cell (i + 1) n := by
      unfold span
      rw [List.range_succ_eq_map, List.map_cons, List.map_map]
      refine congrArg _ (List.map_congr_left fun k _ => ?_)
      rw [Function.comp, Nat.succ_eq_add_one, Nat.add_comm k, Nat.add_assoc]
    rw [isCons, List.takeWhile_cons, countFrom]
    cases p (cell i) with
    | true => exact congrArg (· + 1) (ih (i + 1))
    | false => rfl

/-- Looking at the quote bit of the next cell instead of the own one. -/
theorem countFrom_shift (unquoted : quote i = false) :
    countFrom (fun j => low j || quote (j + 1)) n i = countFrom (fun j => low j || quote j) n i ↔
      ∀ k, 1 ≤ k → k ≤ n → quote (i + k) = true → ∃ j < k, low (i + j) = true := by
  induction n generalizing i with
  | zero => exact iff_of_true rfl fun k above le => absurd above (by omega)
  | succ n ih =>
    rw [countFrom, countFrom, unquoted, Bool.or_false]
    by_cases isLow : low i = true
    · rw [isLow, if_pos rfl]
      exact iff_of_true rfl fun k above _ _ => ⟨0, above, isLow⟩
    rw [Bool.eq_false_iff.mpr isLow, Bool.false_or, if_neg Bool.false_ne_true]
    cases isNext : quote (i + 1) with
    | true =>
      rw [if_pos rfl]
      refine iff_of_false (by omega) fun hidden => ?_
      obtain ⟨j, less, isSet⟩ := hidden 1 (le_refl 1) (by omega) isNext
      rw [show i + j = i by omega] at isSet
      exact isLow isSet
    | false =>
      rw [if_neg Bool.false_ne_true, Nat.succ_inj, ih isNext]
      constructor
      · intro hidden k above le isSet
        have notFirst : k ≠ 1 := fun isOne => by simp [isOne, isNext] at isSet
        obtain ⟨j, less, isSet⟩ := hidden (k - 1) (by omega) (by omega)
          (by rwa [show i + 1 + (k - 1) = i + k by omega])
        exact ⟨j + 1, by omega, by rwa [show i + (j + 1) = i + 1 + j by omega]⟩
      · intro hidden k above le isSet
        obtain ⟨j, less, isSet⟩ := hidden (k + 1) (by omega) (by omega)
          (by rwa [show i + (k + 1) = i + 1 + k by omega])
        have notFirst : j ≠ 0 := fun eq0 => by simp [eq0, isLow] at isSet
        exact ⟨j - 1, by omega, by rwa [show i + 1 + (j - 1) = i + j by omega]⟩

end Counting

section Flags

variable {flag : UInt32} {clp : Clist}

/-- A byte has no quote bit. -/
theorem byte_and_flag (c : UInt8) :
    c.toUInt32 &&& (flag &&& ~~~ttyQuote) = c.toUInt32 &&& flag := by
  apply UInt32.eq_of_toBitVec_eq
  apply BitVec.eq_of_getLsbD_eq
  intro i inWord
  change (c.toBitVec.setWidth 32 &&& (flag.toBitVec &&& ~~~BitVec.twoPow 32 8)).getLsbD i =
    (c.toBitVec.setWidth 32 &&& flag.toBitVec).getLsbD i
  rw [BitVec.getLsbD_and, BitVec.getLsbD_and, BitVec.getLsbD_and, BitVec.getLsbD_setWidth,
    BitVec.getLsbD_not, BitVec.getLsbD_twoPow]
  by_cases isLow : i < 8
  · have ne : ¬ 8 = i := by omega
    simp [inWord, ne]
  · rw [BitVec.getLsbD_of_ge _ _ (Nat.not_lt.mp isLow)]
    simp

theorem code_and_flag (e : UInt8 × Bool) : code e &&& flag = 0 ↔
    e.1.toUInt32 &&& flag = 0 ∧ (e.2 = true → ttyQuote &&& flag = 0) := by
  unfold code
  cases e.2 with
  | false => simp
  | true =>
    simp only [if_true, forall_const, ← UInt32.toBitVec_inj, UInt32.toBitVec_and,
      UInt32.toBitVec_or, UInt32.toBitVec_zero]
    rw [BitVec.and_or_distrib_right]
    exact BitVec.or_eq_zero_iff

/-- What the character at a cell tells, when the flag has no quote bit and when it has one. -/
theorem charAt_and_flag (i : Nat) (noQuote : flag &&& ttyQuote = 0) :
    clp.charAt i &&& flag = 0 ↔ (clp.c_cs i).toUInt32 &&& flag = 0 := by
  rw [charAt_eq, code_and_flag, UInt32.and_comm ttyQuote]
  exact ⟨And.left, fun clear => ⟨clear, fun _ => noQuote⟩⟩

theorem charAt_and_quote {i : Nat} {c_cq : QuoteMap} (outside : Bool) (isMap : clp.c_cq = some c_cq)
    (lt : i < clp.c_cn) (asked : ¬ flag &&& ttyQuote = 0) :
    (!decide (clp.charAt i &&& flag = 0)) = (clp.flagged flag i || clp.quoteAt outside c_cq i) := by
  have inMap : i / 8 < qmem clp.c_cn := by
    unfold qmem
    omega
  have isQuote : (clp.cell i).2 = clp.quoteAt outside c_cq i := by
    rw [quoteAt, if_pos inMap, cell, isMap]
    rfl
  rw [← isQuote, flagged, byte_and_flag, ← decide_not, Bool.eq_iff_iff, Bool.or_eq_true,
    decide_eq_true_iff, decide_eq_true_iff, charAt_eq, code_and_flag, UInt32.and_comm ttyQuote,
    not_and_or]
  simp only [asked, imp_false, not_not]
  rfl

end Flags

section Counted

variable {size f : Nat} {clp : Clist} {contents : List (UInt8 × Bool)} {flag : UInt32}
  {outside : Bool}

theorem Rings.frontRun_eq {quot : Bool} (rings : Rings size quot f clp contents) :
    clp.frontRun flag = countFrom (fun i => !decide (clp.charAt i &&& flag = 0))
      (min clp.c_cc (clp.c_cn - f)) f := by
  rw [frontRun, front, rings.c_cf]
  exact length_takeWhile_span _ clp.charAt _ f

/-- The count is the run before the first flagged character unless quotes are hidden. -/
theorem Rings.ndqb_iff (rings : Rings size true f clp contents) (ne : 0 < contents.length) :
    ndqb outside clp flag = some (clp.frontRun flag) ↔ QuotesHidden outside clp flag := by
  have below := rings.firstBelow
  have bnd := rings.within
  have notNone : ¬ clp.c_cc = 0 := by
    rw [rings.c_cc]
    omega
  have lt : f < clp.c_cn := by rwa [rings.c_cn]
  obtain ⟨c_cq, isMap⟩ := Option.isSome_iff_exists.mp rings.quoted
  rw [ndqb, if_neg notNone, rings.c_cf, Option.bind_some, rings.frontRun_eq]
  by_cases eq0 : flag = 0
  · rw [eq0, rings.c_cl, rings.c_cc, rings.c_cn]
    refine iff_of_true (congrArg some ?_) (.inl UInt32.zero_and)
    have all (n i : Nat) : countFrom (fun i => !decide (clp.charAt i &&& 0 = 0)) n i = n := by
      induction n generalizing i with
      | zero => rfl
      | succ n ih => rw [countFrom, if_neg (by simp), ih]
    rw [all]
    dsimp only
    by_cases wraps : f + contents.length < size
    · rw [Nat.mod_eq_of_lt wraps, if_neg (by omega)]
      omega
    · rw [Nat.mod_eq_sub_mod (by omega), Nat.mod_eq_of_lt (by omega), if_pos (by omega)]
      omega
  rw [if_neg eq0]
  by_cases noQuote : flag &&& ttyQuote = 0
  · rw [if_neg (not_not.mpr noQuote), ndqbLoop_eq _ lt]
    refine iff_of_true (congrArg some (countFrom_congr fun j _ _ => ?_)) (.inl noQuote)
    rw [← decide_not, decide_eq_decide, charAt_and_flag j noQuote]
  rw [if_pos noQuote, isMap, Option.map_some, ndqbLoop_eq _ lt, Option.some.injEq,
    countFrom_congr (i := f) fun j _ above =>
      charAt_and_quote outside isMap (by omega) noQuote]
  have len : clp.front.length = min clp.c_cc (clp.c_cn - f) := by
    rw [front, rings.c_cf]
    exact length_span
  have isHidden : QuotesHidden outside clp flag ↔ if clp.quoteAt outside c_cq f = true then
        (clp.flagged flag f || clp.quoteAt outside c_cq (f + 1)) = true
      else ∀ k, 1 ≤ k → k ≤ clp.front.length → clp.quoteAt outside c_cq (f + k) = true →
        ∃ j < k, clp.flagged flag (f + j) = true := by
    simp [QuotesHidden, noQuote, rings.c_cf, isMap]
  rw [isHidden, len]
  cases isQuoted : clp.quoteAt outside c_cq f with
  | false => exact countFrom_shift isQuoted
  | true =>
    obtain ⟨more, isMore⟩ : ∃ more, min clp.c_cc (clp.c_cn - f) = more + 1 :=
      ⟨min clp.c_cc (clp.c_cn - f) - 1, by omega⟩
    rw [isMore, countFrom, countFrom, isQuoted, Bool.or_true]
    by_cases stop : (clp.flagged flag f || clp.quoteAt outside c_cq (f + 1)) = true
    · rw [if_pos stop]
      exact iff_of_true rfl stop
    · rw [if_neg stop]
      exact iff_of_false (Nat.succ_ne_zero _) stop

end Counted

/-- Any calls in any order on a new list with quote bits: `ndqb` counts the characters side by side
at the front without a bit of the flag just if no quote bit misleads it. -/
theorem ndqb_exact_iff (size : Nat) (pos : 0 < size) (calls : List ClistCall) {reached : Clist}
    {given : List ClistAnswer}
    (produced : produce clistStep calls (clalloc size true) = some (reached, given))
    (outside : Bool) (flag : UInt32) :
    ndqb outside reached flag = some (reached.frontRun flag) ↔
      QuotesHidden outside reached flag := by
  obtain ⟨reached', given', produced', holds, _⟩ := produce_simulates (Holds size true) Eq
    (fun st ideal input related => clistStep_spec related pos input) calls
    (clalloc_holds size true)
  rw [produced] at produced'
  cases produced'
  by_cases empty : (answers (queueStep size true) calls []).1 = []
  · rw [empty] at holds
    obtain ⟨_, _, noneLeft, noFirst, _⟩ := (if_pos rfl).mp holds
    refine iff_of_true ?_ (.inr fun f c_cq fst =>
      absurd (noFirst.symm.trans fst) (Option.some_ne_none f).symm)
    rw [ndqb, if_pos noneLeft, frontRun, front, noFirst]
    rfl
  · obtain ⟨f, rings⟩ := holds.rings empty
    exact rings.ndqb_iff (List.length_pos_iff.mpr empty)

theorem ndqb_exact_plain : ∃ reached, produce clistStep [.putc 97, .putc 98] (clalloc 3 true) =
      some (reached, [.character 0, .character 0]) ∧
    (ndqb false reached ttyQuote = some (reached.frontRun ttyQuote) ↔
      QuotesHidden false reached ttyQuote) :=
  ⟨_, rfl, ndqb_exact_iff 3 (by decide) [.putc 97, .putc 98] rfl false ttyQuote⟩

/-- Behind one plain character comes a quoted one, and the plain one is not counted. -/
theorem ndqb_misses_plain : ∃ reached, produce clistStep [.putc 97, .putc 0x162] (clalloc 3 true) =
      some (reached, [.character 0, .character 0]) ∧
    ndqb false reached ttyQuote = some 0 ∧ reached.frontRun ttyQuote = 1 :=
  ⟨_, rfl, by decide, by decide⟩

end NetBSD.Kern
