import NetBSD.Net.Bpf.Jit

/-!
Owns what the first pass of `optimize` computes: which instructions it reaches,
and which registers and words it takes as unwritten there. The interpreter's
reads of what a path has not written are compared with the bits of `initmask`.
-/

namespace NetBSD.Net.Bpf

open Function List Option Nat Op

universe u

/-! ### Registers and words -/

/-- A register, or a scratch word. -/
inductive Cell where
  | a
  | x
  | mem (k : Nat)
deriving DecidableEq, Repr

/-- `BJ_INIT_ABIT`, `BJ_INIT_XBIT` or `BJ_INIT_MBIT(k)`. -/
def Cell.bit : Cell → Nat
  | .a => 30
  | .x => 31
  | .mem k => k

/-- Scratch words of the context only. -/
def Cell.Within (memwords : Nat) : Cell → Prop
  | .mem k => k < memwords
  | _ => True

/-- What a `case` of `bpf_filter_ext` reads. -/
def Op.reads (k : UInt32) : Op → List Cell
  | .retA | .st | .jmp _ .k | .alu _ .k | .neg | .tax | .cop => [.a]
  | .jmp _ .x | .alu _ .x | .copx => [.a, .x]
  | .ldInd _ | .stx | .txa => [.x]
  | .ldMem | .ldxMem => [.mem k.toNat]
  | _ => []

/-- What a `case` of `bpf_filter_ext` writes. -/
def Op.writes (k : UInt32) : Op → List Cell
  | .ldAbs _ | .ldInd _ | .ldLen | .ldImm | .ldMem | .alu _ _ | .neg | .txa | .cop | .copx => [.a]
  | .ldxLen | .ldxMsh | .ldxImm | .ldxMem | .tax => [.x]
  | .st | .stx => [.mem k.toNat]
  | _ => []

def Op.isJump : Op → Bool
  | .ja | .jmp _ _ => true
  | _ => false

def ReadsCell (insn : BpfInsn) (cell : Cell) : Prop :=
  ∃ op, Op.decode insn.code = some op ∧ cell ∈ op.reads insn.k

def WritesCell (insn : BpfInsn) (cell : Cell) : Prop :=
  ∃ op, Op.decode insn.code = some op ∧ cell ∈ op.writes insn.k

section Bits

variable {memwords : Nat} {insn : BpfInsn} {op : Op} {cell : Cell} {w : Nat}

theorem wordBit_abit (below : w < 32) : wordBit bjInitAbit w = decide (w = 30) :=
  wordBit_memwordInit (by decide) below

theorem wordBit_xbit (below : w < 32) : wordBit bjInitXbit w = decide (w = 31) :=
  wordBit_memwordInit (by decide) below

theorem Cell.Within.bit_lt (sml : memwords ≤ 30) (bnd : cell.Within memwords) :
    cell.bit < 32 := by
  cases cell with
  | a | x => decide
  | mem k => exact lt_trans (lt_of_lt_of_le bnd sml) (by decide)

theorem Cell.Within.eq_of_bit (sml : memwords ≤ 30) (bnd : cell.Within memwords) {oth : Cell}
    (within' : oth.Within memwords) (same : cell.bit = oth.bit) : cell = oth := by
  cases cell with
  | a =>
    cases oth with
    | a => rfl
    | x => cases same
    | mem k =>
      change k < memwords at within'
      change 30 = k at same
      omega
  | x =>
    cases oth with
    | a => cases same
    | x => rfl
    | mem k =>
      change k < memwords at within'
      change 31 = k at same
      omega
  | mem j =>
    change j < memwords at bnd
    cases oth with
    | a =>
      change j = 30 at same
      omega
    | x =>
      change j = 31 at same
      omega
    | mem k => exact congrArg Cell.mem same

/-- `pass1Reads` on the opcodes of the interpreter. -/
def Op.markedReads (memwords : Nat) (k : UInt32) : Op → UInt32
  | .retA | .st | .ja | .jmp _ .k | .alu _ .k | .neg | .tax | .cop | .copx => bjInitAbit
  | .jmp _ .x | .alu _ .x => bjInitAbit ||| bjInitXbit
  | .ldInd _ | .stx | .txa => bjInitXbit
  | .ldMem | .ldxMem => if k.toNat < memwords then bpfMemwordInit k else 0
  | _ => 0

/-- `pass1Writes` on the opcodes of the interpreter. -/
def Op.clearedWrites (memwords : Nat) (k : UInt32) : Op → UInt32
  | .ldAbs _ | .ldInd _ | .ldLen | .ldImm | .ldMem | .alu _ _ | .neg | .txa | .cop | .copx =>
    bjInitAbit
  | .ldxLen | .ldxMsh | .ldxImm | .ldxMem | .tax => bjInitXbit
  | .st | .stx => if k.toNat < memwords then bpfMemwordInit k else 0
  | _ => 0

theorem pass1Reads_of_decode (dec : decode insn.code = some op) :
    pass1Reads memwords insn = op.markedReads memwords insn.k := by
  have code := code_of_decode dec
  unfold pass1Reads
  rw [← code]
  cases op with
  | ldAbs size | ldInd size =>
    cases size <;> simp +decide only [markedReads, ↓reduceIte, false_and]
  | jmp op src => cases op <;> cases src <;> simp +decide only [markedReads, ↓reduceIte]
  | alu op src => cases op <;> cases src <;> simp +decide only [markedReads, ↓reduceIte]
  | ldMem | ldxMem =>
    simp +decide only [markedReads, ↓reduceIte, true_and, UInt32.zero_or]
  | _ => simp +decide only [markedReads, ↓reduceIte, false_and]

theorem pass1Writes_of_decode (dec : decode insn.code = some op) :
    pass1Writes memwords insn = op.clearedWrites memwords insn.k := by
  have code := code_of_decode dec
  unfold pass1Writes
  rw [← code]
  cases op with
  | ldAbs size | ldInd size => cases size <;> simp +decide only [clearedWrites, ↓reduceIte]
  | jmp op src => cases op <;> cases src <;> simp +decide only [clearedWrites, ↓reduceIte]
  | alu op src => cases op <;> cases src <;> simp +decide only [clearedWrites, ↓reduceIte]
  | _ => simp +decide only [clearedWrites, ↓reduceIte]

theorem wordBit_pass1Reads (sml : memwords ≤ 30) (reads : ReadsCell insn cell)
    (bnd : cell.Within memwords)
    (marked : ¬ (decode insn.code = some .copx ∧ cell = .x)) :
    wordBit (pass1Reads memwords insn) cell.bit = true := by
  obtain ⟨op, dec, hread⟩ := reads
  have abit : wordBit bjInitAbit 30 = true := by decide
  have xbit : wordBit bjInitXbit 31 = true := by decide
  rw [pass1Reads_of_decode dec]
  cases op with
  | ldMem | ldxMem =>
    obtain rfl := mem_singleton.mp hread
    change insn.k.toNat < memwords at bnd
    rw [markedReads, if_pos bnd, Cell.bit, wordBit_memwordInit (by omega) (by omega)]
    exact decide_eq_true rfl
  | copx =>
    obtain rfl | tl := mem_cons.mp hread
    · exact abit
    · exact absurd ⟨dec, mem_singleton.mp tl⟩ marked
  | jmp op src | alu op src =>
    cases src with
    | k =>
      obtain rfl := mem_singleton.mp hread
      exact abit
    | x =>
      rw [markedReads, wordBit_or]
      obtain rfl | tl := mem_cons.mp hread
      · rw [Cell.bit, abit, Bool.true_or]
      · obtain rfl := mem_singleton.mp tl
        rw [Cell.bit, xbit, Bool.or_true]
  | retA | st | neg | tax | cop =>
    obtain rfl := mem_singleton.mp hread
    exact abit
  | ldInd _ | stx | txa =>
    obtain rfl := mem_singleton.mp hread
    exact xbit
  | _ => cases hread

theorem wordBit_pass1Writes (sml : memwords ≤ 30) (dec : decode insn.code = some op)
    (notWritten : ¬ WritesCell insn cell) (bnd : cell.Within memwords) :
    wordBit (pass1Writes memwords insn) cell.bit = false := by
  have clear : cell ∉ op.writes insn.k := fun isWritten => notWritten ⟨op, dec, isWritten⟩
  have below := bnd.bit_lt sml
  have notA : cell ≠ .a → wordBit bjInitAbit cell.bit = false := by
    intro oth
    rw [wordBit_abit below]
    exact decide_eq_false fun same => oth (bnd.eq_of_bit sml trivial same)
  have notX : cell ≠ .x → wordBit bjInitXbit cell.bit = false := by
    intro oth
    rw [wordBit_xbit below]
    exact decide_eq_false fun same => oth (bnd.eq_of_bit sml trivial same)
  rw [pass1Writes_of_decode dec]
  cases op with
  | st | stx =>
    rw [clearedWrites]
    split
    · rename_i lt
      rw [wordBit_memwordInit (by omega) below]
      refine decide_eq_false fun same => clear (mem_singleton.mpr ?_)
      exact @Cell.Within.eq_of_bit _ _ sml bnd (.mem insn.k.toNat) lt same
    · exact wordBit_zero _
  | ldAbs _ | ldInd _ | ldLen | ldImm | ldMem | alu _ _ | neg | txa | cop | copx =>
    exact notA fun same => clear (mem_singleton.mpr same)
  | ldxLen | ldxMsh | ldxImm | ldxMem | tax =>
    exact notX fun same => clear (mem_singleton.mpr same)
  | _ => exact wordBit_zero _

end Bits

/-! ### What the pass reaches -/

section Scan

variable (f : List BpfInsn) (memwords : Nat)

/-- A jump that the pass takes to lead from `l` to `j`. -/
def JumpsTo (l j : Nat) : Prop :=
  ∃ insn, f[l]? = some insn ∧ isJmp insn = true ∧ j ∈ jumpTargets insn l

/-- The instruction behind `l` stays reachable. -/
def FallsFrom (l : Nat) : Prop := ∃ insn, f[l]? = some insn ∧ stops insn = false

/-- An instruction that is no jump leaves bit `b` in `invalid`. -/
def Keeps (b l : Nat) : Prop :=
  ∃ insn, f[l]? = some insn ∧ isJmp insn = false ∧ wordBit (pass1Writes memwords insn) b = false

/-- An instruction adds bit `b` of `invalid` to `initmask`. -/
def Marks (b l : Nat) : Prop :=
  ∃ insn, f[l]? = some insn ∧ wordBit (pass1Reads memwords insn) b = true

/-- The instructions that the pass reaches. -/
inductive Scanned : Nat → Prop where
  | start : 0 < f.length → Scanned 0
  | next {l : Nat} : Scanned l → FallsFrom f l → Scanned (l + 1)
  | jump {l j : Nat} : Scanned l → JumpsTo f l j → l < j → Scanned j

/-- The instructions that the pass reaches with bit `b` in `invalid`: along jumps, and in the order
of the text over what it does not reach. -/
inductive Dirty (b : Nat) : Nat → Prop where
  | start : 0 < f.length → Dirty b 0
  | fall {l j : Nat} : Dirty b l → Keeps f memwords b l → l < j → Scanned f j →
      (∀ m, l < m → m < j → ¬ Scanned f m) → Dirty b j
  | jump {l j : Nat} : Dirty b l → JumpsTo f l j → l < j → Dirty b j

end Scan

section Loop

variable {f : List BpfInsn} {memwords : Nat} {dat : Nat → InsnData} {insn : BpfInsn} {i j b : Nat}

theorem Dirty.scanned (dirty : Dirty f memwords b i) : Scanned f i := by
  induction dirty with
  | start pos => exact .start pos
  | fall _ _ _ scan _ _ => exact scan
  | jump _ jumps ahead ih => exact .jump ih jumps ahead

theorem scanned_iff (pos : 0 < f.length) :
    Scanned f j ↔ (j = 0 ∨ ∃ l, j = l + 1 ∧ Scanned f l ∧ FallsFrom f l) ∨
      ∃ l, l < j ∧ Scanned f l ∧ JumpsTo f l j := by
  constructor
  · intro scan
    cases scan with
    | start _ => exact .inl (.inl rfl)
    | next prev falls => exact .inl (.inr ⟨_, rfl, prev, falls⟩)
    | jump prev jumps ahead => exact .inr ⟨_, ahead, prev, jumps⟩
  · rintro ((rfl | ⟨l, rfl, prev, falls⟩) | ⟨l, ahead, prev, jumps⟩)
    · exact .start pos
    · exact .next prev falls
    · exact .jump prev jumps ahead

/-- What the pass holds after its first `i` iterations. -/
structure Pass1Inv (f : List BpfInsn) (memwords i : Nat) (st : Pass1) : Prop where
  linked : ∀ l j, l ∈ (st.dat j).bjumps ↔ l < i ∧ Scanned f l ∧ JumpsTo f l j
  falls : st.unreachable = false ↔ i = 0 ∨ ∃ l, i = l + 1 ∧ Scanned f l ∧ FallsFrom f l
  reached : ∀ l < i, (st.dat l).unreachable = false ↔ Scanned f l
  lengths : ∀ l < i, Scanned f l → (∃ j, JumpsTo f l j) → (st.dat l).jdata.abc_length = maxAbcLength
  marked : ∀ b < 32, ∀ j, i ≤ j → (wordBit (st.dat j).invalid b = true ↔
    ∃ l < i, Dirty f memwords b l ∧ JumpsTo f l j)
  carried : ∀ b < 32, (wordBit st.invalid b = true ↔
    i = 0 ∨ ∃ l < i, Dirty f memwords b l ∧ Keeps f memwords b l ∧
      ∀ m, l < m → m < i → ¬ Scanned f m)
  masked : ∀ b < 32, (wordBit st.initmask b = true ↔
    ∃ l < i, Dirty f memwords b l ∧ Marks f memwords b l)

theorem pass1Inv_start (dat : Nat → InsnData) :
    Pass1Inv f memwords 0 ⟨optimizeInit dat, 0, ~~~0, false⟩ where
  linked := fun l j => iff_of_false nofun fun is => not_lt_zero _ is.1
  falls := iff_of_true rfl (.inl rfl)
  reached := nofun
  lengths := nofun
  marked := fun b _ j _ => iff_of_false (by simp [optimizeInit]) nofun
  carried := fun b below => iff_of_true (by rw [wordBit_not _ below, wordBit_zero]; rfl) (.inl rfl)
  masked := fun b _ => iff_of_false (by simp) nofun

/-! ### One iteration -/

theorem jumpsTo_iff (fnd : f[i]? = some insn) :
    JumpsTo f i j ↔ isJmp insn = true ∧ j ∈ jumpTargets insn i := by
  constructor
  · rintro ⟨oth, hit', jumps⟩
    obtain rfl := some.inj (fnd.symm.trans hit')
    exact jumps
  · exact fun jumps => ⟨insn, fnd, jumps⟩

theorem exists_lt_succ {P : Nat → Prop} : (∃ l < i + 1, P l) ↔ (∃ l < i, P l) ∨ P i := by
  simp only [Nat.lt_succ_iff_lt_or_eq, or_and_right, exists_or, exists_eq_left]

section Unreachable

variable {unreachable : Bool}

@[simp] theorem setUnreachable_bjumps :
    (setUnreachable dat i unreachable j).bjumps = (dat j).bjumps := by
  unfold setUnreachable
  grind [update]

@[simp] theorem setUnreachable_invalid :
    (setUnreachable dat i unreachable j).invalid = (dat j).invalid := by
  unfold setUnreachable
  grind [update]

@[simp] theorem setUnreachable_jdata :
    (setUnreachable dat i unreachable j).jdata = (dat j).jdata := by
  unfold setUnreachable
  grind [update]

theorem setUnreachable_unreachable : (setUnreachable dat i unreachable j).unreachable =
      if j = i then unreachable else (dat j).unreachable := by
  unfold setUnreachable
  grind [update]

end Unreachable

section Jump

variable {invalid : UInt32}

theorem mem_jumpTargets : j ∈ jumpTargets insn i ↔
    j = jumpIndex i (jumpOffsets insn).1 ∨ j = jumpIndex i (jumpOffsets insn).2 := by
  simp only [jumpTargets, mem_cons, not_mem_nil, or_false]

theorem pass1Jump_bjumps (l : Nat) : l ∈ (pass1Jump dat invalid i insn j).bjumps ↔
      l ∈ (dat j).bjumps ∨ l = i ∧ j ∈ jumpTargets insn i := by
  rw [mem_jumpTargets]
  unfold pass1Jump markInvalid linkJump
  grind [update]

theorem pass1Jump_invalid (b : Nat) : wordBit (pass1Jump dat invalid i insn j).invalid b = true ↔
      wordBit (dat j).invalid b = true ∨ wordBit invalid b = true ∧ j ∈ jumpTargets insn i := by
  rw [mem_jumpTargets]
  unfold pass1Jump markInvalid linkJump
  grind [update, wordBit_or]

theorem pass1Jump_unreachable :
    (pass1Jump dat invalid i insn j).unreachable = (dat j).unreachable := by
  unfold pass1Jump markInvalid linkJump
  grind [update]

theorem pass1Jump_abcLength : (pass1Jump dat invalid i insn j).jdata.abc_length =
      if j = i then maxAbcLength else (dat j).jdata.abc_length := by
  unfold pass1Jump markInvalid linkJump
  grind [update]

end Jump

section Step

variable {st s' : Pass1}

section

variable (inv : Pass1Inv f memwords i st)

include inv

theorem Pass1Inv.scanned_iff (fnd : f[i]? = some insn) :
    ((st.dat i).bjumps.isEmpty && st.unreachable) = false ↔ Scanned f i := by
  have pos : 0 < f.length := zero_lt_of_lt (List.getElem?_eq_some_iff.mp fnd).1
  have jumped : (st.dat i).bjumps.isEmpty = false ↔ ∃ l, l < i ∧ Scanned f l ∧ JumpsTo f l i := by
    rw [isEmpty_eq_false_iff_exists_mem]
    exact exists_congr fun l => inv.linked l i
  rw [NetBSD.Net.Bpf.scanned_iff pos, ← inv.falls, ← jumped, Bool.and_eq_false_iff]
  exact or_comm

theorem Pass1Inv.dirty_iff (scan : Scanned f i) (fnd : f[i]? = some insn) (below : b < 32) :
    wordBit (st.invalid ||| (st.dat i).invalid) b = true ↔ Dirty f memwords b i := by
  have pos : 0 < f.length := zero_lt_of_lt (List.getElem?_eq_some_iff.mp fnd).1
  rw [wordBit_or, Bool.or_eq_true, inv.carried b below, inv.marked b below i (Nat.le_refl i)]
  constructor
  · rintro ((rfl | ⟨l, prev, dirty, keeps, mid⟩) | ⟨l, prev, dirty, jumps⟩)
    · exact .start pos
    · exact .fall dirty keeps prev scan mid
    · exact .jump dirty jumps prev
  · intro dirty
    cases dirty with
    | start _ => exact .inl (.inl rfl)
    | fall dirty keeps prev _ mid => exact .inl (.inr ⟨_, prev, dirty, keeps, mid⟩)
    | jump dirty jumps prev => exact .inr ⟨_, prev, dirty, jumps⟩

theorem Pass1Inv.reached_succ {unreachable : Bool}
    (isHere : unreachable = false ↔ Scanned f i) {l : Nat} (below : l < i + 1) :
    (setUnreachable st.dat i unreachable l).unreachable = false ↔ Scanned f l := by
  rw [setUnreachable_unreachable]
  by_cases same : l = i
  · rw [if_pos same, same]
    exact isHere
  · rw [if_neg same]
    exact inv.reached l (by omega)

/-- An unreachable instruction adds nothing. -/
theorem Pass1Inv.skip (fnd : f[i]? = some insn) (unscanned : ¬ Scanned f i) :
    Pass1Inv f memwords (i + 1) ⟨setUnreachable st.dat i true, st.initmask, st.invalid, true⟩ := by
  have clean : ∀ b, ¬ Dirty f memwords b i := fun b dirty => unscanned dirty.scanned
  have pos : 0 < f.length := zero_lt_of_lt (List.getElem?_eq_some_iff.mp fnd).1
  have later : i ≠ 0 := by
    rintro rfl
    exact unscanned (.start pos)
  have prev : ∀ l, Scanned f l → l < i + 1 → l < i := by
    intro l scan below
    have oth : l ≠ i := fun same => unscanned (same ▸ scan)
    omega
  have notReached : true = false ↔ Scanned f i := iff_of_false nofun unscanned
  exact {
    linked := by
      intro l j
      rw [setUnreachable_bjumps, inv.linked l j]
      exact ⟨fun is => ⟨lt_succ_of_lt is.1, is.2⟩, fun is => ⟨prev l is.2.1 is.1, is.2⟩⟩
    falls := by
      refine iff_of_false nofun ?_
      rintro (zero | ⟨l, same, scan, _⟩)
      · omega
      · obtain rfl : i = l := Nat.succ.inj same
        exact unscanned scan
    reached := fun l below => inv.reached_succ notReached below
    lengths := by
      intro l below scan jumps
      rw [setUnreachable_jdata]
      exact inv.lengths l (prev l scan below) scan jumps
    marked := by
      intro b below j ahead
      rw [exists_lt_succ, setUnreachable_invalid, inv.marked b below j (by omega)]
      exact (or_iff_left fun is => clean b is.1).symm
    carried := by
      intro b below
      rw [exists_lt_succ, inv.carried b below]
      constructor
      · rintro (zero | ⟨l, hbef, dirty, keeps, mid⟩)
        · exact absurd zero later
        · refine .inr (.inl ⟨l, hbef, dirty, keeps, fun m above lt scan => ?_⟩)
          exact mid m above (prev m scan lt) scan
      · rintro (zero | ⟨l, hbef, dirty, keeps, mid⟩ | is)
        · omega
        · exact .inr ⟨l, hbef, dirty, keeps, fun m above lt =>
            mid m above (lt_succ_of_lt lt)⟩
        · exact absurd is.1 (clean b)
    masked := by
      intro b below
      rw [exists_lt_succ, inv.masked b below]
      exact (or_iff_left fun is => clean b is.1).symm }

section Reached

variable (fnd : f[i]? = some insn) (scan : Scanned f i)

include fnd scan

omit inv in
theorem stops_iff : stops insn = false ↔
    i + 1 = 0 ∨ ∃ l, i + 1 = l + 1 ∧ Scanned f l ∧ FallsFrom f l := by
  constructor
  · exact fun falls => .inr ⟨i, rfl, scan, insn, fnd, falls⟩
  · rintro (zero | ⟨l, same, _, oth, hit', falls⟩)
    · omega
    · obtain rfl : i = l := Nat.succ.inj same
      rwa [some.inj (fnd.symm.trans hit')]

theorem Pass1Inv.masked_succ (b : Nat) (below : b < 32) :
    wordBit (st.initmask ||| ((st.invalid ||| (st.dat i).invalid) &&& pass1Reads memwords insn)) b =
        true ↔ ∃ l < i + 1, Dirty f memwords b l ∧ Marks f memwords b l := by
  have marksHere : Marks f memwords b i ↔ wordBit (pass1Reads memwords insn) b = true := by
    constructor
    · rintro ⟨oth, hit', marks⟩
      rwa [some.inj (fnd.symm.trans hit')]
    · exact fun marks => ⟨insn, fnd, marks⟩
  rw [wordBit_or, wordBit_and, Bool.or_eq_true, Bool.and_eq_true, exists_lt_succ,
    inv.masked b below, inv.dirty_iff scan fnd below, marksHere]

omit inv fnd in
/-- Only this instruction can be the last one reached before the next. -/
theorem carried_iff (b : Nat) : (i + 1 = 0 ∨ ∃ l < i + 1, Dirty f memwords b l ∧
    Keeps f memwords b l ∧ ∀ m, l < m → m < i + 1 → ¬ Scanned f m) ↔
      Dirty f memwords b i ∧ Keeps f memwords b i := by
  constructor
  · rintro (zero | ⟨l, prev, dirty, keeps, mid⟩)
    · omega
    · have here : l = i := by
        by_contra oth
        exact mid i (by omega) (lt_succ_self i) scan
      rw [← here]
      exact ⟨dirty, keeps⟩
  · rintro ⟨dirty, keeps⟩
    exact .inr ⟨i, lt_succ_self i, dirty, keeps, fun m above below => by omega⟩

/-- A jump hands what may be unset to both its targets. -/
theorem Pass1Inv.jump (jumps : isJmp insn = true) :
    Pass1Inv f memwords (i + 1) ⟨pass1Jump (setUnreachable st.dat i false)
      (st.invalid ||| (setUnreachable st.dat i false i).invalid) i insn,
      st.initmask ||| ((st.invalid ||| (setUnreachable st.dat i false i).invalid) &&&
        pass1Reads memwords insn), 0, stops insn⟩ where
  linked := by
    intro l j
    rw [pass1Jump_bjumps, setUnreachable_bjumps, inv.linked l j]
    constructor
    · rintro (⟨prev, hscn, isJump⟩ | ⟨rfl, tgt⟩)
      · exact ⟨lt_succ_of_lt prev, hscn, isJump⟩
      · exact ⟨lt_succ_self l, scan, insn, fnd, jumps, tgt⟩
    · rintro ⟨prev, hscn, isJump⟩
      by_cases same : l = i
      · subst same
        exact .inr ⟨rfl, ((jumpsTo_iff fnd).mp isJump).2⟩
      · exact .inl ⟨by omega, hscn, isJump⟩
  falls := stops_iff fnd scan
  reached := by
    intro l below
    rw [pass1Jump_unreachable]
    exact inv.reached_succ (iff_of_true rfl scan) below
  lengths := by
    intro l below hscn isJump
    rw [pass1Jump_abcLength, setUnreachable_jdata]
    by_cases same : l = i
    · rw [if_pos same]
    · rw [if_neg same]
      exact inv.lengths l (by omega) hscn isJump
  marked := by
    intro b below j ahead
    rw [pass1Jump_invalid, setUnreachable_invalid, exists_lt_succ,
      inv.marked b below j (by omega), jumpsTo_iff fnd]
    rw [setUnreachable_invalid, inv.dirty_iff scan fnd below]
    exact or_congr Iff.rfl (and_congr Iff.rfl ⟨fun tgt => ⟨jumps, tgt⟩, And.right⟩)
  carried := by
    intro b below
    rw [carried_iff scan b]
    refine iff_of_false (by simp) ?_
    rintro ⟨_, oth, hit', noJump, _⟩
    rw [← some.inj (fnd.symm.trans hit'), jumps] at noJump
    cases noJump
  masked := by
    intro b below
    rw [← inv.masked_succ fnd scan b below, setUnreachable_invalid]

/-- Any other instruction marks what it reads and clears what it writes. -/
theorem Pass1Inv.plain (noJump : isJmp insn = false) :
    Pass1Inv f memwords (i + 1) ⟨setUnreachable st.dat i false,
      st.initmask ||| ((st.invalid ||| (setUnreachable st.dat i false i).invalid) &&&
        pass1Reads memwords insn),
      (st.invalid ||| (setUnreachable st.dat i false i).invalid) &&& ~~~pass1Writes memwords insn,
      stops insn⟩ := by
  have noTarget : ∀ j, ¬ JumpsTo f i j := fun j isJump => by
    rw [((jumpsTo_iff fnd).mp isJump).1] at noJump
    cases noJump
  exact {
    linked := by
      intro l j
      rw [setUnreachable_bjumps, inv.linked l j]
      constructor
      · exact fun is => ⟨lt_succ_of_lt is.1, is.2⟩
      · rintro ⟨prev, hscn, isJump⟩
        have oth : l ≠ i := fun same => noTarget j (same ▸ isJump)
        exact ⟨by omega, hscn, isJump⟩
    falls := stops_iff fnd scan
    reached := fun l below => inv.reached_succ (iff_of_true rfl scan) below
    lengths := by
      intro l below hscn isJump
      obtain ⟨j, tgt⟩ := isJump
      have oth : l ≠ i := fun same => noTarget j (same ▸ tgt)
      rw [setUnreachable_jdata]
      exact inv.lengths l (by omega) hscn ⟨j, tgt⟩
    marked := by
      intro b below j ahead
      rw [exists_lt_succ, setUnreachable_invalid, inv.marked b below j (by omega)]
      exact (or_iff_left fun is => noTarget j is.2).symm
    carried := by
      intro b below
      have keepsHere : Keeps f memwords b i ↔ wordBit (pass1Writes memwords insn) b = false := by
        constructor
        · rintro ⟨oth, hit', _, keeps⟩
          rwa [some.inj (fnd.symm.trans hit')]
        · exact fun keeps => ⟨insn, fnd, noJump, keeps⟩
      rw [carried_iff scan b, keepsHere, ← inv.dirty_iff scan fnd below, wordBit_and,
        wordBit_not _ below, Bool.and_eq_true, Bool.not_eq_true', setUnreachable_invalid]
    masked := by
      intro b below
      rw [← inv.masked_succ fnd scan b below, setUnreachable_invalid] }

theorem Pass1Inv.reach (move : pass1Reached memwords f.length i insn
      ⟨setUnreachable st.dat i false, st.initmask, st.invalid, false⟩ = some s') :
    Pass1Inv f memwords (i + 1) s' := by
  unfold pass1Reached at move
  by_cases jumps : isJmp insn = true
  · rw [if_pos jumps] at move
    split at move
    · cases move
    obtain rfl := some.inj move
    exact inv.jump fnd scan jumps
  · rw [if_neg jumps] at move
    obtain rfl := some.inj move
    exact inv.plain fnd scan (Bool.eq_false_of_not_eq_true jumps)

end Reached

theorem Pass1Inv.step (fnd : f[i]? = some insn)
    (move : pass1Insn memwords f.length i insn st = some s') :
    Pass1Inv f memwords (i + 1) s' := by
  have hscn := inv.scanned_iff fnd
  unfold pass1Insn at move
  cases unreachable : (st.dat i).bjumps.isEmpty && st.unreachable with
  | true =>
    rw [unreachable] at hscn move
    obtain rfl := some.inj move
    exact inv.skip fnd fun scan => nomatch hscn.mpr scan
  | false =>
    rw [unreachable] at hscn move
    exact inv.reach fnd (hscn.mp rfl) move

end

end Step

theorem pass1At_inv {World : Type u} {bc : Option (BpfCtx World)} {cnt : Nat} {st : Pass1}
    (lt : cnt ≤ f.length)
    (got : pass1At bc f (optimizeInit dat) cnt = some st) :
    Pass1Inv f (NetBSD.Net.Bpf.memwords bc) cnt st := by
  induction cnt generalizing st with
  | zero =>
    obtain rfl := some.inj got
    exact pass1Inv_start dat
  | succ i ih =>
    obtain ⟨prev, hbef, move⟩ := bind_eq_some_iff.mp got
    have fnd : f[i]? = some f[i] := getElem?_eq_getElem lt
    rw [fnd] at move
    exact (ih (le_of_lt lt) hbef).step fnd move

end Loop

/-! ### Execution paths -/

/-- An execution path leads to an instruction, and nothing on it has written the cell. -/
inductive Unwritten (f : List BpfInsn) (follows : Nat → BpfInsn → List Nat) (cell : Cell) :
    Nat → Prop where
  | start : Unwritten f follows cell 0
  | step {i j : Nat} {insn : BpfInsn} : Unwritten f follows cell i → f[i]? = some insn →
      ¬ WritesCell insn cell → j ∈ follows i insn → Unwritten f follows cell j

/-- The successors that the pass follows: a load beyond 4 GiB returns 0, and the index of a jump
has 32 bits. -/
def followed (i : Nat) (insn : BpfInsn) : List Nat :=
  if longLoad insn then [] else (succs i insn).filter fun j => !isJmp insn || decide (j < 2 ^ 32)

section Path

variable {f : List BpfInsn} {memwords : Nat} {insn : BpfInsn} {op : Op} {cell : Cell} {i j : Nat}

theorem isJmp_of_decode (dec : decode insn.code = some op) : isJmp insn = op.isJump := by
  have code := code_of_decode dec
  unfold isJmp
  rw [← code]
  cases op with
  | ldAbs size | ldInd size => cases size <;> decide
  | jmp op src | alu op src => cases op <;> cases src <;> decide
  | _ => decide

theorem class_ne_ret (dec : decode insn.code = some op) (noRetK : op ≠ .retK)
    (noRetA : op ≠ .retA) : bpfClass insn.code ≠ bpfRet := by
  have code := code_of_decode dec
  rw [← code]
  cases op with
  | retK => exact absurd rfl noRetK
  | retA => exact absurd rfl noRetA
  | ldAbs size | ldInd size => cases size <;> decide
  | jmp op src | alu op src => cases op <;> cases src <;> decide
  | _ => decide

theorem jumpOffsets_ja (dec : decode insn.code = some .ja) :
    jumpOffsets insn = (insn.k.toNat, insn.k.toNat) := by
  unfold jumpOffsets
  rw [← code_of_decode dec, if_pos (by decide)]

theorem jumpOffsets_jmp {test : JmpOp} {src : Src}
    (dec : decode insn.code = some (.jmp test src)) :
    jumpOffsets insn = (insn.jt.toNat, insn.jf.toNat) := by
  unfold jumpOffsets
  rw [← code_of_decode dec, if_neg (by cases test <;> cases src <;> decide)]

theorem jumpIndex_eq {off' : Nat} (sml : i + 1 + off' < 2 ^ 32) :
    jumpIndex i off' = i + 1 + off' := by
  rw [jumpIndex, add_comm, mod_eq_of_lt sml]

theorem succs_eq_next (nxt : j ∈ succs i insn) (noJump : isJmp insn = false) :
    j = i + 1 ∧ bpfClass insn.code ≠ bpfRet := by
  unfold succs at nxt
  split at nxt
  · cases nxt
  · cases nxt
  · cases nxt
  · rename_i dec
    rw [isJmp_of_decode dec] at noJump
    cases noJump
  · rename_i dec
    rw [isJmp_of_decode dec] at noJump
    cases noJump
  · rename_i op noRetK noRetA _ _ dec
    exact ⟨mem_singleton.mp nxt, class_ne_ret dec noRetK noRetA⟩

theorem mem_jumpTargets_of_succs (nxt : j ∈ succs i insn) (jumps : isJmp insn = true)
    (sml : j < 2 ^ 32) : j ∈ jumpTargets insn i ∧ i < j := by
  have index : ∀ off', j = i + 1 + off' → j = jumpIndex i off' := by
    intro off' same
    rw [jumpIndex_eq (same ▸ sml), same]
  rw [mem_jumpTargets]
  unfold succs at nxt
  split at nxt
  · cases nxt
  · cases nxt
  · cases nxt
  · rename_i dec
    have same := mem_singleton.mp nxt
    rw [jumpOffsets_ja dec]
    exact ⟨.inl (index _ same), by omega⟩
  · rename_i dec
    rw [jumpOffsets_jmp dec]
    rcases mem_cons.mp nxt with same | tl
    · exact ⟨.inl (index _ same), by omega⟩
    · have same := mem_singleton.mp tl
      exact ⟨.inr (index _ same), by omega⟩
  · rename_i op _ _ noJa noJmp dec
    rw [isJmp_of_decode dec] at jumps
    cases op with
    | ja => exact absurd rfl noJa
    | jmp test src => exact absurd rfl (noJmp test src)
    | _ => cases jumps

theorem not_writesCell (dec : decode insn.code = some op) (clear : cell ∉ op.writes insn.k) :
    ¬ WritesCell insn cell := by
  rintro ⟨other, isOther, written⟩
  obtain rfl := some.inj (dec.symm.trans isOther)
  exact clear written

theorem Unwritten.mono {follows more : Nat → BpfInsn → List Nat}
    (sub : ∀ i insn, f[i]? = some insn → ∀ j ∈ follows i insn, j ∈ more i insn)
    (unwritten : Unwritten f follows cell i) : Unwritten f more cell i := by
  induction unwritten with
  | start => exact .start
  | step _ fnd notWritten next ih => exact .step ih fnd notWritten (sub _ _ fnd _ next)

theorem Unwritten.dirty (sml : memwords ≤ 30) (bnd : cell.Within memwords)
    (pos : 0 < f.length) (unwritten : Unwritten f followed cell i) :
    Dirty f memwords cell.bit i := by
  induction unwritten with
  | start => exact .start pos
  | @step i j insn _ fnd notWritten nxt ih =>
    unfold followed at nxt
    split at nxt
    · cases nxt
    rename_i short
    obtain ⟨next', inReach⟩ := mem_filter.mp nxt
    cases jumps : isJmp insn with
    | true =>
      rw [jumps, Bool.not_true, Bool.false_or, decide_eq_true_eq] at inReach
      obtain ⟨tgt, ahead⟩ := mem_jumpTargets_of_succs next' jumps inReach
      exact .jump ih ⟨insn, fnd, jumps, tgt⟩ ahead
    | false =>
      obtain ⟨rfl, noRet⟩ := succs_eq_next next' jumps
      have falls : stops insn = false := by
        rw [stops, Bool.eq_false_of_not_eq_true short, jumps, beq_eq_false_iff_ne.mpr noRet]
        rfl
      obtain ⟨op, dec⟩ : ∃ op, decode insn.code = some op := by
        cases dec : decode insn.code with
        | none => simp [succs, dec] at next'
        | some op => exact ⟨op, rfl⟩
      have keeps := wordBit_pass1Writes sml dec notWritten bnd
      exact .fall ih ⟨insn, fnd, jumps, keeps⟩ (lt_succ_self i)
        (.next ih.scanned ⟨insn, fnd, falls⟩) fun m above below => by omega

end Path

/-! ### The claim of the pass -/

section Complete

variable {World : Type u} {bc : Option (BpfCtx World)} {f : List BpfInsn} {dat : Nat → InsnData}
  {st : Pass1}

theorem initmask_iff (ret : optimizePass1 bc f dat = some st) {b : Nat} (below : b < 32) :
    wordBit st.initmask b = true ↔ ∃ l, Dirty f (memwords bc) b l ∧ Marks f (memwords bc) b l := by
  rw [(pass1At_inv (le_refl _) ret).masked b below]
  constructor
  · exact fun ⟨l, _, is⟩ => ⟨l, is⟩
  · rintro ⟨l, dirty, insn, fnd, marks⟩
    exact ⟨l, (List.getElem?_eq_some_iff.mp fnd).1, dirty, insn, fnd, marks⟩

/-- `initmask` has the bit of everything that some path reads before it writes it, exactly when the
reads that the pass does not see are marked by another instruction: the X of `BPF_COPX`, and
what is read on paths through a load beyond 4 GiB or a jump to an index beyond 32 bits. -/
theorem optimizePass1_complete_iff (returned : optimizePass1 bc f dat = some st) :
    (∀ (cell : Cell) (i : Nat) (insn : BpfInsn), cell.Within (memwords bc) →
      Unwritten f succs cell i → f[i]? = some insn → ReadsCell insn cell →
        wordBit st.initmask cell.bit = true) ↔
    ∀ (cell : Cell) (i : Nat) (insn : BpfInsn), cell.Within (memwords bc) →
      Unwritten f succs cell i → f[i]? = some insn → ReadsCell insn cell →
        (Op.decode insn.code = some .copx ∧ cell = .x) ∨ ¬ Unwritten f followed cell i →
          ∃ l, Dirty f (memwords bc) cell.bit l ∧ Marks f (memwords bc) cell.bit l := by
  have sml := memwords_le bc
  constructor
  · intro complete cell i insn bnd unwritten fnd reads _
    exact (initmask_iff returned (bnd.bit_lt sml)).mp
      (complete cell i insn bnd unwritten fnd reads)
  intro cov cell i insn bnd unwritten fnd reads
  rw [initmask_iff returned (bnd.bit_lt sml)]
  by_cases unseen : (decode insn.code = some .copx ∧ cell = .x) ∨ ¬ Unwritten f followed cell i
  · exact cov cell i insn bnd unwritten fnd reads unseen
  · rw [not_or, not_not] at unseen
    have pos : 0 < f.length := zero_lt_of_lt (List.getElem?_eq_some_iff.mp fnd).1
    exact ⟨i, unseen.2.dirty sml bnd pos, insn, fnd,
      wordBit_pass1Reads sml reads bnd unseen.1⟩

end Complete

section Copx

/-- Instruction data before `optimize_init`. -/
def freshData (_ : Nat) : InsnData := ⟨[], ⟨0, 0⟩, ⟨0, 0⟩, 0, false⟩

/-- A jump past the only write of X, and then a read of X. -/
def skipsWrite : List BpfInsn :=
  [bpfStmt (bpfLd ||| bpfImm) 3, bpfJump (bpfJmp ||| bpfJeq ||| bpfK) 0 1 0,
    bpfStmt (bpfLdx ||| bpfImm) 7, bpfStmt (bpfMisc ||| bpfTxa) 0, bpfStmt (bpfRet ||| bpfA) 0]

/-- X is marked, which the jump leaves unwritten; A is not. -/
theorem optimizePass1_complete_jump :
    ∃ st, optimizePass1 (none : Option (BpfCtx Unit)) skipsWrite freshData = some st ∧
      wordBit st.initmask Cell.x.bit = true ∧ wordBit st.initmask Cell.a.bit = false := by
  obtain ⟨st, ret, notA⟩ : ∃ st,
      optimizePass1 (none : Option (BpfCtx Unit)) skipsWrite freshData = some st ∧
        wordBit st.initmask Cell.a.bit = false := ⟨_, rfl, by decide⟩
  refine ⟨st, ret, ?_, notA⟩
  -- The jump at 1 leads to the read at 3.
  have path : Unwritten skipsWrite succs .x 3 := by
    have fst : Unwritten skipsWrite succs .x 1 :=
      .step .start rfl (@not_writesCell _ .ldImm _ (by decide) (by decide)) (by decide)
    exact .step fst rfl (@not_writesCell _ (.jmp .jeq .k) _ (by decide) (by decide)) (by decide)
  refine (optimizePass1_complete_iff ret).mpr ?_ .x 3 (bpfStmt (bpfMisc ||| bpfTxa) 0) trivial
    path rfl ⟨.txa, by decide, by decide⟩
  intro cell i insn bnd unwritten fnd reads unseen
  have here : ∀ i insn, skipsWrite[i]? = some insn → decode insn.code ≠ some .copx ∧
      ∀ j ∈ succs i insn, j ∈ followed i insn := by
    intro i insn fnd
    match i with
    | 0 | 1 | 2 | 3 | 4 =>
      obtain rfl := some.inj fnd
      decide
    | i + 5 => cases fnd
  cases unseen with
  | inl copx => exact absurd copx.1 (here i insn fnd).1
  | inr notFollowed =>
    exact absurd (unwritten.mono fun i insn fnd => (here i insn fnd).2) notFollowed

/-- A call of the coprocessor that X selects, then `ret a`. -/
def callsCopx : List BpfInsn :=
  [bpfStmt (bpfMisc ||| bpfCopx) 0, bpfStmt (bpfRet ||| bpfA) 0]

/-- `BPF_COPX` reads X, which nothing has written, and the pass does not mark it. -/
theorem copx_unmarked :
    ∃ st, optimizePass1 (none : Option (BpfCtx Unit)) callsCopx freshData = some st ∧
      Unwritten callsCopx succs .x 0 ∧
      callsCopx[0]? = some (bpfStmt (bpfMisc ||| bpfCopx) 0) ∧
      ReadsCell (bpfStmt (bpfMisc ||| bpfCopx) 0) .x ∧
      wordBit st.initmask Cell.x.bit = false :=
  ⟨_, rfl, .start, rfl, ⟨.copx, by decide, by decide⟩, by decide⟩

end Copx

end NetBSD.Net.Bpf
