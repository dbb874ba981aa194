import Mathlib.Tactic.Common
import NetBSD.Net.Bpf.Filter

/-!
Owns the data-flow meaning of an accepted program. `succs` is the control-flow
graph of the interpreter, `DataFlow` is a solution of the data-flow problem
that the validator's single pass solves (which scratch words may still be
unwritten before each instruction), and `bpfValidateExt_dataFlow` says that
acceptance produces such a solution. Everything later is proved from the
solution and never unfolds the pass again.
-/

namespace NetBSD.Net.Bpf

open NetBSD.Machine Function UInt32 FilterState ValidState

universe u

/-! ### Sets of scratch words -/

def wordBit (set : UInt32) (w : Nat) : Bool := set.toBitVec.getLsbD w

@[simp] theorem wordBit_zero (w : Nat) : wordBit 0 w = false := by simp [wordBit]

@[simp] theorem wordBit_or (a b : UInt32) (w : Nat) :
    wordBit (a ||| b) w = (wordBit a w || wordBit b w) := by simp [wordBit]

@[simp] theorem wordBit_and (a b : UInt32) (w : Nat) :
    wordBit (a &&& b) w = (wordBit a w && wordBit b w) := by simp [wordBit]

theorem wordBit_not (a : UInt32) {w : Nat} (below : w < 32) :
    wordBit (~~~a) w = !wordBit a w := by simp [wordBit, below]

theorem wordBit_ext {a b : UInt32} (same : ∀ w < 32, wordBit a w = wordBit b w) : a = b := by
  apply UInt32.toBitVec_inj.mp
  apply BitVec.eq_of_getLsbD_eq
  intro w below
  exact same w below

theorem wordBit_memwordInit {k : UInt32} (sml : k.toNat < 32) {w : Nat} (below : w < 32) :
    wordBit (bpfMemwordInit k) w = decide (w = k.toNat) := by
  simp only [wordBit, bpfMemwordInit]
  simp [below]
  grind

theorem and_memwordInit_ne_zero {set k : UInt32} (sml : k.toNat < 32) :
    set &&& bpfMemwordInit k ≠ 0 ↔ wordBit set k.toNat = true := by
  constructor
  · intro ne0
    by_contra clear
    apply ne0
    apply wordBit_ext
    intro w below
    rw [wordBit_and, wordBit_memwordInit sml below]
    by_cases same : w = k.toNat
    · simp_all
    · simp [same]
  · intro mem zero
    have atWord := congrArg (wordBit · k.toNat) zero
    simp [wordBit_memwordInit sml sml, mem] at atWord

theorem memwords_le {World : Type u} (bc : Option (BpfCtx World)) : memwords bc ≤ 30 := by
  unfold memwords
  cases bc with
  | none => simp [bpfMemwords]
  | some ctx =>
    have acc := ctx.extmem
    simp only [extmemAccepted, bpfMaxMemwords, Bool.not_eq_true', Bool.or_eq_false_iff] at acc
    have bound : ¬ 30 < ctx.extwords := of_decide_eq_false acc.1
    simp only [bpfMemwords]
    split <;> omega

/-! ### The control-flow graph -/

/-- The instructions the interpreter may execute after instruction `i`. -/
def succs (i : Nat) (insn : BpfInsn) : List Nat :=
  match Op.decode insn.code with
  | none => []
  | some .retK => []
  | some .retA => []
  | some .ja => [i + 1 + insn.k.toNat]
  | some (.jmp _ _) => [i + 1 + insn.jt.toNat, i + 1 + insn.jf.toNat]
  | some _ => [i + 1]

def loadedWord (insn : BpfInsn) : Option Nat :=
  match Op.decode insn.code with
  | some .ldMem => some insn.k.toNat
  | some .ldxMem => some insn.k.toNat
  | _ => none

def storedWord (insn : BpfInsn) : Option Nat :=
  match Op.decode insn.code with
  | some .st => some insn.k.toNat
  | some .stx => some insn.k.toNat
  | _ => none

section Edges

variable {World : Type u} {target : Target} {bc : Option (BpfCtx World)} {f : List BpfInsn}
  {p : Nat → UInt8} {s s' : FilterState World}

theorem FilterState.setA_next {v : Option UInt32} (moved : s.setA v = .next s') :
    ∃ loaded, v = some loaded ∧ s' = { s with pc := s.pc + 1, a := loaded } := by
  cases v with
  | none => cases moved
  | some loaded =>
    cases moved
    exact ⟨loaded, rfl, rfl⟩

theorem FilterState.setX_next {v : Option UInt32} (moved : s.setX v = .next s') :
    ∃ loaded, v = some loaded ∧ s' = { s with pc := s.pc + 1, x := loaded } := by
  cases v with
  | none => cases moved
  | some loaded =>
    cases moved
    exact ⟨loaded, rfl, rfl⟩

theorem FilterState.cop_next {index : UInt32} (moved : s.cop bc index = .next s') :
    s'.pc = s.pc + 1 := by
  unfold cop at moved
  split at moved
  · cases moved
  split at moved
  · split at moved
    · cases moved
    · cases moved
      rfl
  · cases moved

/-- A step goes on to a successor in the program. -/
theorem filterStep_next (moved : filterStep target bc f p s = .next s') :
    ∃ insn, f[s.pc]? = some insn ∧ s'.pc ∈ succs s.pc insn := by
  unfold filterStep at moved
  cases fetched : f[s.pc]? with
  | none => simp [fetched] at moved
  | some insn =>
    refine ⟨insn, rfl, ?_⟩
    rw [fetched] at moved
    unfold succs
    cases decoded : Op.decode insn.code with
    | none => simp [decoded, ret] at moved
    | some op =>
      simp only [decoded] at moved
      cases op with
      | retK | retA => cases moved
      | ja =>
        cases moved
        simp
      | jmp op src =>
        cases moved
        simp only [List.mem_cons, List.not_mem_nil, or_false]
        cases jmpTest op s.a (s.operand insn src) with
        | true => exact Or.inl rfl
        | false => exact Or.inr rfl
      | st =>
        cases moved
        simp
      | stx =>
        cases moved
        simp
      | cop => simpa using cop_next moved
      | copx => simpa using cop_next moved
      | alu op src =>
        cases src with
        | k | x =>
          rw [execOp] at moved
          split at moved
          · cases moved
          · obtain ⟨_, _, rfl⟩ := setA_next moved
            simp
      | ldxLen | ldxMsh | ldxImm | ldxMem | tax =>
        rw [execOp] at moved
        obtain ⟨_, _, rfl⟩ := setX_next moved
        simp
      | ldAbs _ | ldInd _ | ldLen | ldImm | ldMem | neg | txa =>
        rw [execOp] at moved
        obtain ⟨_, _, rfl⟩ := setA_next moved
        simp

end Edges

/-! ### Solutions of the data-flow problem -/

/-- A solution of the data-flow problem of a program: `invalid i w` says that
word `w` may be unwritten before instruction `i`. The remaining fields are the
local checks that make the interpreter safe at every instruction. -/
structure DataFlow {World : Type u} (bc : Option (BpfCtx World)) (f : List BpfInsn) where
  invalid : Nat → Nat → Bool
  nonempty : 0 < f.length
  entry : ∀ w < 32, invalid 0 w = false → wordBit (preinited bc) w = true
  edge : ∀ (i : Nat) insn, f[i]? = some insn → ∀ j ∈ succs i insn, i < j ∧ j < f.length
  flow : ∀ (i : Nat) insn, f[i]? = some insn → ∀ j ∈ succs i insn, ∀ w < 32,
    invalid j w = false → invalid i w = false ∨ storedWord insn = some w
  load : ∀ (i : Nat) insn w, f[i]? = some insn → loadedWord insn = some w →
    w < memwords bc ∧ invalid i w = false
  store : ∀ (i : Nat) insn w, f[i]? = some insn → storedWord insn = some w → w < memwords bc
  divisor : ∀ (i : Nat) insn op, f[i]? = some insn → Op.decode insn.code = some (.alu op .k) →
    op = .div ∨ op = .mod → insn.k ≠ 0
  table : ∀ (i : Nat) insn, f[i]? = some insn →
    Op.decode insn.code = some .cop ∨ Op.decode insn.code = some .copx →
    ∃ ctx funcs, bc = some ctx ∧ ctx.copfuncs = some funcs
  index : ∀ (i : Nat) insn, f[i]? = some insn → Op.decode insn.code = some .cop →
    ∃ ctx, bc = some ctx ∧ insn.k.toNat < ctx.nfuncs

/-! ### The pass, instruction by instruction -/

/-- The checks of `validateInsn` for an instruction the interpreter decodes. -/
def validateOp {World : Type u} (bc : Option (BpfCtx World)) (len : UInt32) (i : Nat)
    (p : BpfInsn) (st : ValidState) : Op → Option ValidState
  | .ldMem | .ldxMem =>
    if memwords bc ≤ p.k.toNat then none
    else if st.invalid &&& bpfMemwordInit p.k ≠ 0 then none
    else some st
  | .st | .stx =>
    if memwords bc ≤ p.k.toNat then none
    else some { st with invalid := st.invalid &&& ~~~bpfMemwordInit p.k }
  | .ja =>
    if len ≤ UInt32.ofNat (i + 1) + p.k then none
    else if UInt32.ofNat (i + 1) + p.k < UInt32.ofNat (i + 1) then none
    else some { st.mark (UInt32.ofNat (i + 1) + p.k).toNat with invalid := 0 }
  | .jmp _ _ =>
    if len ≤ UInt32.ofNat (i + 1) + p.jt.toUInt32 ∨ len ≤ UInt32.ofNat (i + 1) + p.jf.toUInt32 then
      none
    else
      some { (st.mark (UInt32.ofNat (i + 1) + p.jt.toUInt32).toNat).mark
          (UInt32.ofNat (i + 1) + p.jf.toUInt32).toNat with
        invalid := 0 }
  | .alu op .k => if (op = .div ∨ op = .mod) ∧ p.k = 0 then none else some st
  | .cop =>
    match bc with
    | none => none
    | some ctx =>
      match ctx.copfuncs with
      | none => none
      | some _ => if ctx.nfuncs ≤ p.k.toNat then none else some st
  | .copx =>
    match bc with
    | none => none
    | some ctx =>
      match ctx.copfuncs with
      | none => none
      | some _ => some st
  | _ => some st

section Pass

variable {World : Type u} {bc : Option (BpfCtx World)} {len : UInt32} {i : Nat} {p : BpfInsn}
  {st s' : ValidState}

theorem validateInsn_of_decode {op : Op} (dec : Op.decode p.code = some op) :
    validateInsn bc len i p st = validateOp bc len i p st op := by
  have code := Op.code_of_decode dec
  unfold validateInsn validateLd validateSt validateAlu validateJmp validateMisc
  rw [← code]
  cases op with
  | ldAbs size | ldInd size => cases size <;> simp +decide only [validateOp, ↓reduceIte]
  | jmp op src => cases op <;> cases src <;> simp +decide only [validateOp, ↓reduceIte]
  | alu op src =>
    cases op <;> cases src <;>
      simp +decide only [validateOp, ↓reduceIte, false_and, true_and]
  | cop | copx =>
    cases bc with
    | none => simp +decide only [validateOp, ↓reduceIte]
    | some ctx =>
      obtain ⟨copfuncs, nfuncs, extwords, preinited, extmem⟩ := ctx
      cases copfuncs <;>
        simp +decide only [validateOp, ↓reduceIte, true_and, false_and]
  | _ => simp +decide only [validateOp, ↓reduceIte]

theorem ValidState.mark_mono (st : ValidState) (target j w : Nat)
    (marked : wordBit (st.mem j) w = true) : wordBit ((st.mark target).mem j) w = true := by
  unfold mark
  by_cases same : j = target
  · subst same
    simp [marked]
  · simpa [update_of_ne same] using marked

theorem ValidState.mark_self (st : ValidState) (target w : Nat)
    (mem : wordBit st.invalid w = true) : wordBit ((st.mark target).mem target) w = true := by
  simp [mark, mem]

private theorem validateLd_mem (checked : validateLd bc p st = some s') :
    s'.mem = st.mem := by
  unfold validateLd at checked
  grind

private theorem validateSt_mem (checked : validateSt bc p st = some s') :
    s'.mem = st.mem := by
  unfold validateSt at checked
  grind

private theorem validateAlu_mem (checked : validateAlu p st = some s') : s'.mem = st.mem := by
  unfold validateAlu at checked
  grind

private theorem validateMisc_mem (checked : validateMisc bc p st = some s') :
    s'.mem = st.mem := by
  unfold validateMisc at checked
  grind

private theorem validateJmp_mono (checked : validateJmp len i p st = some s') (j w : Nat)
    (marked : wordBit (st.mem j) w = true) : wordBit (s'.mem j) w = true := by
  unfold validateJmp at checked
  dsimp only at checked
  split at checked
  · split at checked
    · cases checked
    · split at checked
      · cases checked
      · cases checked
        exact st.mark_mono _ j w marked
  split at checked
  · split at checked
    · cases checked
    · cases checked
      exact (st.mark _).mark_mono _ j w (st.mark_mono _ j w marked)
  · cases checked

theorem validateInsn_mono (checked : validateInsn bc len i p st = some s') (j w : Nat)
    (marked : wordBit (st.mem j) w = true) : wordBit (s'.mem j) w = true := by
  unfold validateInsn at checked
  dsimp only at checked
  split at checked
  · rwa [validateLd_mem checked]
  split at checked
  · rwa [validateSt_mem checked]
  split at checked
  · rwa [validateAlu_mem checked]
  split at checked
  · exact validateJmp_mono checked j w marked
  split at checked
  · cases checked
    exact marked
  split at checked
  · rwa [validateMisc_mem checked]
  · cases checked

/-- What the pass establishes at index `i`: the check succeeded in a state
whose `invalid` is the solution at `i`, and whatever the check leaves marked
or invalid is invalid in the solution at later instructions. -/
def CheckedAt (bc : Option (BpfCtx World)) (len : UInt32) (invalid : Nat → UInt32) (i : Nat)
    (p : BpfInsn) : Prop :=
  ∃ st after, st.invalid = invalid i ∧ validateInsn bc len i p st = some after ∧
    (∀ w, wordBit after.invalid w = true → wordBit (invalid (i + 1)) w = true) ∧
    ∀ j, i < j → ∀ w, wordBit (after.mem j) w = true → wordBit (invalid j) w = true

/-- Acceptance by the loop yields one solution for all remaining
instructions. The induction is on the suffix still to be checked. -/
theorem validateLoop_checked {tl : List BpfInsn}
    (acc : validateLoop bc len i tl st = true) :
    ∃ invalid : Nat → UInt32, invalid i = (st.blend i).invalid ∧
      (∀ j, i ≤ j → ∀ w, wordBit (st.mem j) w = true → wordBit (invalid j) w = true) ∧
      ∀ j p, tl[j]? = some p → CheckedAt bc len invalid (i + j) p := by
  induction tl generalizing i st with
  | nil =>
    refine ⟨fun j => st.invalid ||| st.mem j, rfl, ?_, ?_⟩
    · intro j _ w marked
      simp [marked]
    · intro j p miss
      simp at miss
  | cons head tl ih =>
    cases checked : validateInsn bc len i head (st.blend i) with
    | none => simp [validateLoop, checked] at acc
    | some s' =>
      simp only [validateLoop, checked] at acc
      obtain ⟨tail, atNext, marks, tailChecked⟩ := ih acc
      let invalid := update tail i (st.blend i).invalid
      have atHead : invalid i = (st.blend i).invalid := update_self _ _ _
      have above : ∀ j, i < j → invalid j = tail j := by
        intro j later
        exact update_of_ne (by omega) _ _
      refine ⟨invalid, atHead, ?_, ?_⟩
      · intro j from_ w marked
        rcases eq_or_lt_of_le from_ with same | later
        · subst same
          rw [atHead]
          simp [blend, marked]
        · rw [above j later]
          exact marks j later w (validateInsn_mono checked j w marked)
      intro j p here
      cases j with
      | zero =>
        obtain rfl : head = p := by simpa using here
        refine ⟨st.blend i, s', atHead.symm, checked, ?_, ?_⟩
        · intro w mem
          rw [above (i + 1) (by omega), atNext]
          simp [blend, mem]
        · intro j later w marked
          rw [above j (by omega)]
          exact marks j (by omega) w marked
      | succ j =>
        obtain ⟨stJ, afterJ, invalidJ, checkedJ, nextJ, marksJ⟩ :=
          tailChecked j p (by simpa using here)
        have shift : i + (j + 1) = i + 1 + j := by omega
        rw [shift]
        refine ⟨stJ, afterJ, ?_, checkedJ, ?_, ?_⟩
        · rw [above _ (by omega)]
          exact invalidJ
        · intro w mem
          rw [above _ (by omega)]
          exact nextJ w mem
        · intro k later w marked
          rw [above k (by omega)]
          exact marksJ k later w marked

/-! ### Local checks -/

private theorem toNat_add_of_not_lt {a b : UInt32} (noWrap : ¬ a + b < a) :
    (a + b).toNat = a.toNat + b.toNat := by
  have bLt := b.toNat_lt
  rw [lt_iff_toNat_lt, UInt32.toNat_add] at noWrap
  rw [UInt32.toNat_add]
  omega

private theorem toNat_from {i : Nat} (sml : i < bpfMaxinsns) :
    (UInt32.ofNat (i + 1)).toNat = i + 1 := by
  rw [bpfMaxinsns] at sml
  rw [toNat_ofNat']
  omega

private theorem toNat_from_add {i : Nat} (sml : i < bpfMaxinsns) (off' : UInt8) :
    (UInt32.ofNat (i + 1) + off'.toUInt32).toNat = i + 1 + off'.toNat := by
  have offsetLt := off'.toNat_lt
  rw [UInt32.toNat_add, toNat_from sml, UInt8.toNat_toUInt32]
  rw [bpfMaxinsns] at sml
  omega

variable {invalid : Nat → UInt32}

section

variable (checked : CheckedAt bc len invalid i p)

include checked

theorem CheckedAt.load {w : Nat} (loads : loadedWord p = some w) :
    w < memwords bc ∧ wordBit (invalid i) w = false := by
  obtain ⟨st, s', atIndex, past, -, -⟩ := checked
  have words := memwords_le bc
  have shape : ∀ op, Op.decode p.code = some op → op = .ldMem ∨ op = .ldxMem → w = p.k.toNat →
      w < memwords bc ∧ wordBit (invalid i) w = false := by
    intro op dec isLoad same
    rw [validateInsn_of_decode dec] at past
    have reduced : (if memwords bc ≤ p.k.toNat then none
        else if st.invalid &&& bpfMemwordInit p.k ≠ 0 then none else some st) = some s' := by
      rcases isLoad with rfl | rfl <;> exact past
    split at reduced
    · cases reduced
    split at reduced
    · cases reduced
    · rename_i clear
      rw [and_memwordInit_ne_zero (by omega)] at clear
      rw [← atIndex, same]
      exact ⟨by omega, by simpa using clear⟩
  unfold loadedWord at loads
  split at loads
  · rename_i dec
    exact shape _ dec (Or.inl rfl) (by simpa using loads.symm)
  · rename_i dec
    exact shape _ dec (Or.inr rfl) (by simpa using loads.symm)
  · cases loads

theorem CheckedAt.store {w : Nat} (stores : storedWord p = some w) :
    w < memwords bc ∧ ∀ v < 32, v ≠ w → wordBit (invalid i) v = true →
      wordBit (invalid (i + 1)) v = true := by
  obtain ⟨st, s', atIndex, past, next, -⟩ := checked
  have words := memwords_le bc
  have shape : ∀ op, Op.decode p.code = some op → op = .st ∨ op = .stx → w = p.k.toNat →
      w < memwords bc ∧ ∀ v < 32, v ≠ w → wordBit (invalid i) v = true →
        wordBit (invalid (i + 1)) v = true := by
    intro op dec isStore same
    rw [validateInsn_of_decode dec] at past
    have reduced : (if memwords bc ≤ p.k.toNat then none
        else some { st with invalid := st.invalid &&& ~~~bpfMemwordInit p.k }) = some s' := by
      rcases isStore with rfl | rfl <;> exact past
    split at reduced
    · cases reduced
    cases reduced
    refine ⟨by omega, ?_⟩
    intro v below oth mem
    apply next
    rw [wordBit_and, wordBit_not _ below, wordBit_memwordInit (by omega) below, atIndex, mem]
    simp [← same, oth]
  unfold storedWord at stores
  split at stores
  · rename_i dec
    exact shape _ dec (Or.inl rfl) (by simpa using stores.symm)
  · rename_i dec
    exact shape _ dec (Or.inr rfl) (by simpa using stores.symm)
  · cases stores

/-- Everything invalid before a checked instruction is invalid after it on
every edge, except the word it stores. Jump targets lie ahead and in range. -/
theorem CheckedAt.edge {j : Nat} (sml : i < bpfMaxinsns) (nxt : j ∈ succs i p) :
    (j = i + 1 ∨ (i < j ∧ j < len.toNat)) ∧
      ∀ w < 32, wordBit (invalid i) w = true → storedWord p ≠ some w →
        wordBit (invalid j) w = true := by
  have storeCase := fun w => checked.store (w := w)
  obtain ⟨st, s', atIndex, past, next, marks⟩ := checked
  unfold succs at nxt
  cases decoded : Op.decode p.code with
  | none => simp [decoded] at nxt
  | some op =>
    simp only [decoded] at nxt
    rw [validateInsn_of_decode decoded] at past
    -- An instruction that only falls through keeps `invalid` as it is.
    have fallThrough : j = i + 1 → s'.invalid = st.invalid →
        (j = i + 1 ∨ (i < j ∧ j < len.toNat)) ∧
          ∀ w < 32, wordBit (invalid i) w = true → storedWord p ≠ some w →
            wordBit (invalid j) w = true := by
      intro next' kept
      refine ⟨Or.inl next', ?_⟩
      intro w _ mem _
      rw [next']
      apply next
      rw [kept, atIndex]
      exact mem
    cases op with
    | retK | retA => simp at nxt
    | ja =>
      simp only [validateOp] at past
      split at past
      · cases past
      rename_i rng
      split at past
      · cases past
      rename_i noWrap
      have target := toNat_add_of_not_lt noWrap
      rw [toNat_from sml] at target
      have isTarget : j = i + 1 + p.k.toNat := by simpa using nxt
      rw [le_iff_toNat_le] at rng
      refine ⟨Or.inr ⟨by omega, by omega⟩, ?_⟩
      intro w _ mem _
      cases past
      apply marks j (by omega)
      rw [isTarget, ← target]
      exact st.mark_self _ w (atIndex ▸ mem)
    | jmp op src =>
      simp only [validateOp] at past
      split at past
      · cases past
      rename_i rng
      rw [not_or, le_iff_toNat_le, le_iff_toNat_le, toNat_from_add sml,
        toNat_from_add sml] at rng
      cases past
      have members : ∀ w, wordBit (invalid i) w = true → wordBit st.invalid w = true := by
        intro w mem
        rw [atIndex]
        exact mem
      simp only [List.mem_cons, List.not_mem_nil, or_false] at nxt
      refine ⟨Or.inr ⟨by omega, by omega⟩, ?_⟩
      intro w _ mem _
      apply marks j (by omega)
      rcases nxt with isTrue | isFalse
      · apply mark_mono
        rw [isTrue, ← toNat_from_add sml]
        exact st.mark_self _ w (members w mem)
      · rw [isFalse, ← toNat_from_add sml]
        exact (st.mark _).mark_self _ w (members w mem)
    | st | stx =>
      have next' : j = i + 1 := by simpa using nxt
      refine ⟨Or.inl next', ?_⟩
      intro w below mem oth
      rw [next']
      have stores : storedWord p = some p.k.toNat := by simp [storedWord, decoded]
      refine (storeCase _ stores).2 w below ?_ mem
      intro same
      exact oth (same ▸ stores)
    | ldMem | ldxMem =>
      simp only [validateOp] at past
      grind
    | alu op src =>
      cases src <;> simp only [validateOp] at past <;> grind
    | cop | copx =>
      simp only [validateOp] at past
      grind
    | _ =>
      apply fallThrough (by simpa using nxt)
      cases past
      rfl

theorem CheckedAt.divisor {op : AluOp} (dec : Op.decode p.code = some (.alu op .k))
    (dvd : op = .div ∨ op = .mod) : p.k ≠ 0 := by
  obtain ⟨st, s', -, past, -, -⟩ := checked
  rw [validateInsn_of_decode dec] at past
  intro zero
  simp [validateOp, dvd, zero] at past

theorem CheckedAt.table (dec : Op.decode p.code = some .cop ∨ Op.decode p.code = some .copx) :
    ∃ ctx funcs, bc = some ctx ∧ ctx.copfuncs = some funcs := by
  obtain ⟨st, s', -, past, -, -⟩ := checked
  rcases dec with dec | dec <;> rw [validateInsn_of_decode dec] at past <;>
    simp only [validateOp] at past <;> grind

theorem CheckedAt.index (dec : Op.decode p.code = some .cop) :
    ∃ ctx, bc = some ctx ∧ p.k.toNat < ctx.nfuncs := by
  obtain ⟨st, s', -, past, -, -⟩ := checked
  rw [validateInsn_of_decode dec] at past
  simp only [validateOp] at past
  grind

end

end Pass

/-! ### Acceptance -/

section Accepted

variable {World : Type u} {bc : Option (BpfCtx World)} {f : List BpfInsn}

/-- The tests before the loop: the length is in range and the last instruction
returns. -/
theorem bpfValidateExt_shape (acc : bpfValidateExt bc f = true) :
    0 < f.length ∧ f.length ≤ bpfMaxinsns ∧ (∃ last, f[f.length - 1]? = some last ∧
        (Op.decode last.code = some .retK ∨ Op.decode last.code = some .retA)) ∧
      validateLoop bc (UInt32.ofNat f.length) 0 f (validateStart bc) = true := by
  unfold bpfValidateExt at acc
  split at acc
  · cases acc
  split at acc
  · cases acc
  split at acc
  · cases acc
  rename_i ne notLong last lst
  split at acc
  · cases acc
  rename_i ret
  refine ⟨by omega, by omega, ⟨last, ?_, ?_⟩, acc⟩
  · rw [← List.getLast?_eq_getElem?]
    exact lst
  by_cases isK : last.code = bpfRet ||| bpfK
  · left
    rw [isK]
    exact Op.decode_code .retK
  right
  have isA : last.code = bpfRet ||| bpfA := by
    by_contra notA
    exact ret ⟨isK, notA⟩
  rw [isA]
  exact Op.decode_code .retA

/-- What the validator accepts has a data flow that justifies each step. -/
theorem bpfValidateExt_dataFlow (acc : bpfValidateExt bc f = true) :
    Nonempty (DataFlow bc f) := by
  obtain ⟨pos, short, ⟨last, lst, ret⟩, loop⟩ := bpfValidateExt_shape acc
  obtain ⟨invalid, beg, -, checked⟩ := validateLoop_checked loop
  have checkedAt : ∀ (i : Nat) p, f[i]? = some p →
      CheckedAt bc (UInt32.ofNat f.length) invalid i p := by
    intro i p here
    simpa using checked i p here
  have indexLt : ∀ (i : Nat) p, f[i]? = some p → i < f.length := by
    intro i p here
    exact (getElem?_eq_some_iff.mp here).1
  have lengthValue : (UInt32.ofNat f.length).toNat = f.length := by
    rw [bpfMaxinsns] at short
    rw [toNat_ofNat']
    omega
  refine ⟨⟨fun i w => wordBit (invalid i) w, pos, ?_, ?_, ?_, ?_, ?_, ?_, ?_, ?_⟩⟩
  · intro w below valid
    rw [beg] at valid
    simpa [validateStart, blend, wordBit_not _ below] using valid
  · intro i p here j nxt
    have bound := indexLt i p here
    obtain ⟨rng, -⟩ := (checkedAt i p here).edge (by omega) nxt
    rw [lengthValue] at rng
    rcases rng with next' | ahead
    · refine ⟨by omega, ?_⟩
      by_contra far
      -- Only the last instruction could fall off the end, and it returns.
      have isEnd : i = f.length - 1 := by omega
      rw [isEnd, lst] at here
      obtain rfl := Option.some.inj here
      rcases ret with dec | dec <;> simp [succs, dec] at nxt
    · exact ahead
  · intro i p here j nxt w below valid
    have bound := indexLt i p here
    obtain ⟨-, flows⟩ := (checkedAt i p here).edge (by omega) nxt
    by_contra stale
    rw [not_or] at stale
    have invalidThere := flows w below (by simpa using stale.1) stale.2
    rw [invalidThere] at valid
    cases valid
  · intro i p w here loads
    exact (checkedAt i p here).load loads
  · intro i p w here stores
    exact ((checkedAt i p here).store stores).1
  · intro i p op here dec dvd
    exact (checkedAt i p here).divisor dec dvd
  · intro i p here dec
    exact (checkedAt i p here).table dec
  · intro i p here dec
    exact (checkedAt i p here).index dec

end Accepted

/-!
### Soundness

The soundness of the kernel validator: a program that `bpf_validate_ext`
accepts runs to a return within as many steps as it has instructions, and at
every step the program counter, the scratch-word index, the constant divisor
and the coprocessor index are in range and a loaded scratch word has been
initialised before.
-/

section Safety

variable {World : Type u} {target : Target} {bc : Option (BpfCtx World)} {f : List BpfInsn}
  {p : Nat → UInt8}

/-- Word `w` was stored by an instruction executed in one of the given
states. -/
def StoredIn (f : List BpfInsn) (history : List (FilterState World)) (w : Nat) : Prop :=
  ∃ s ∈ history, ∃ insn, f[s.pc]? = some insn ∧ storedWord insn = some w

/-- What must hold when the instruction of state `s` is executed after the
states of `history`. -/
structure SafeAt (bc : Option (BpfCtx World)) (f : List BpfInsn)
    (history : List (FilterState World)) (s : FilterState World) : Prop where
  pc : s.pc < f.length
  memIndex : ∀ insn w, f[s.pc]? = some insn →
    loadedWord insn = some w ∨ storedWord insn = some w → w < memwords bc
  initialised : ∀ insn w, f[s.pc]? = some insn → loadedWord insn = some w →
    wordBit (preinited bc) w = true ∨ StoredIn f history w
  divisor : ∀ insn op, f[s.pc]? = some insn → Op.decode insn.code = some (.alu op .k) →
    op = .div ∨ op = .mod → insn.k ≠ 0
  copIndex : ∀ insn, f[s.pc]? = some insn → Op.decode insn.code = some .cop →
    ∃ ctx, bc = some ctx ∧ insn.k.toNat < ctx.nfuncs

/-- The invariant of a run: the program counter is in range, and a word the
solution calls valid has been declared or stored. -/
def Covered (dataFlow : DataFlow bc f) (history : List (FilterState World))
    (s : FilterState World) : Prop :=
  s.pc < f.length ∧ ∀ w < 32, dataFlow.invalid s.pc w = false →
    wordBit (preinited bc) w = true ∨ StoredIn f history w

theorem covered_start (flow : DataFlow bc f) (args : BpfArgs) (world : World) :
    Covered flow [] (filterStart args world) := by
  refine ⟨flow.nonempty, ?_⟩
  intro w below valid
  exact Or.inl (flow.entry w below valid)

variable {s : FilterState World}

/-- One step keeps the invariant: a word valid at the target of the edge was
valid before or has just been stored. -/
theorem covered_step (flow : DataFlow bc f) {history : List (FilterState World)}
    {s' : FilterState World} (cov : Covered flow history s)
    (moved : filterStep target bc f p s = .next s') :
    Covered flow (s :: history) s' ∧ s.pc < s'.pc := by
  obtain ⟨insn, here, nxt⟩ := filterStep_next moved
  obtain ⟨ahead, rng⟩ := flow.edge _ _ here _ nxt
  refine ⟨⟨rng, ?_⟩, ahead⟩
  intro w below valid
  rcases flow.flow _ _ here _ nxt w below valid with prev | kept
  · rcases cov.2 w below prev with declared | ⟨old, mem, storing⟩
    · exact Or.inl declared
    · exact Or.inr ⟨old, List.mem_cons_of_mem s mem, storing⟩
  · exact Or.inr ⟨s, by simp, insn, here, kept⟩

theorem Covered.safeAt (flow : DataFlow bc f) {history : List (FilterState World)}
    (cov : Covered flow history s) : SafeAt bc f history s where
  pc := cov.1
  memIndex := by
    intro insn w here touches
    rcases touches with loads | stores
    · exact (flow.load _ _ _ here loads).1
    · exact flow.store _ _ _ here stores
  initialised := by
    intro insn w here loads
    obtain ⟨rng, valid⟩ := flow.load _ _ _ here loads
    have words := memwords_le bc
    exact cov.2 w (by omega) valid
  divisor := fun insn op here => flow.divisor _ insn op here
  copIndex := fun insn here => flow.index _ insn here

theorem cop_ne_fault {index : UInt32}
    (table : ∃ ctx funcs, bc = some ctx ∧ ctx.copfuncs = some funcs) :
    s.cop bc index ≠ .done .fault := by
  obtain ⟨ctx, funcs, rfl, here⟩ := table
  simp only [cop, here]
  split <;> simp [ret]

theorem filterStep_ne_fault (flow : DataFlow bc f) (rng : s.pc < f.length) :
    filterStep target bc f p s ≠ .done .fault := by
  have here : f[s.pc]? = some f[s.pc] := List.getElem?_eq_getElem rng
  generalize f[s.pc] = insn at here
  unfold filterStep
  simp only [here]
  cases decoded : Op.decode insn.code with
  | none => simp [ret]
  | some op =>
    have setA : ∀ v, s.setA v ≠ .done .fault := by
      intro v
      cases v <;> simp [setA, ret]
    have setX : ∀ v, s.setX v ≠ .done .fault := by
      intro v
      cases v <;> simp [setX, ret]
    cases op with
    | alu op src =>
      cases src with
      | k =>
        have divisor := flow.divisor _ _ op here decoded
        simp only [execOp]
        rw [if_neg (fun bad => divisor bad.1 bad.2)]
        exact setA _
      | x =>
        simp only [execOp]
        split
        · simp [ret]
        · exact setA _
    | cop => exact cop_ne_fault (flow.table _ _ here (Or.inl decoded))
    | copx => exact cop_ne_fault (flow.table _ _ here (Or.inr decoded))
    | _ => simp [execOp, setA, setX, ret, setMem, jump]

/-- Soundness of `bpf_validate_ext`. An accepted program returns within
`f.length` instructions, and every instruction it executes is safe given the
instructions executed before it. -/
theorem bpfValidateExt_sound (target : Target) (bc : Option (BpfCtx World)) (f : List BpfInsn)
    (accepted : bpfValidateExt bc f = true) (args : BpfArgs) (world : World) :
    (∃ value args' world',
      bpfFilterExt target bc (some f) args world f.length = some (.ret value args' world')) ∧
    ∀ earlier current later,
      visited (filterStep target bc f args.pkt.bytes) f.length (filterStart args world) =
        earlier ++ current :: later →
      SafeAt bc f earlier current := by
  obtain ⟨flow⟩ := bpfValidateExt_dataFlow accepted
  constructor
  · have bnd : ∃ res,
        run (filterStep target bc f args.pkt.bytes) f.length (filterStart args world) =
          some res ∧ res ≠ .fault := by
      apply run_of_measure (fun s => s.pc < f.length) (fun s => f.length - 1 - s.pc)
      · intro s s' rng moved
        obtain ⟨insn, here, nxt⟩ := filterStep_next moved
        obtain ⟨ahead, bound⟩ := flow.edge _ _ here _ nxt
        exact ⟨bound, by omega⟩
      · intro s res rng stop isFault
        subst isFault
        exact filterStep_ne_fault flow rng stop
      · exact flow.nonempty
      · have pos := flow.nonempty
        simp only [filterStart]
        omega
    obtain ⟨res, fin, returned⟩ := bnd
    cases res with
    | ret value args' world' => exact ⟨value, args', world', fin⟩
    | fault => exact absurd rfl returned
  · intro earlier current later split
    have cov := visited_history (Covered flow)
      (fun history s s' holds moved => (covered_step flow holds moved).1)
      (covered_start flow args world) split
    have safe := cov.safeAt flow
    refine { safe with initialised := ?_ }
    intro insn w here loads
    rcases safe.initialised insn w here loads with declared | ⟨s, mem, storing⟩
    · exact Or.inl declared
    · exact Or.inr ⟨s, by simpa using mem, storing⟩

end Safety

/-- A program that stores a scratch word and loads it back through `X`. -/
def storeThenLoad : List BpfInsn :=
  [bpfStmt Op.ldImm.code 7, bpfStmt Op.st.code 3, bpfJump (Op.jmp .jeq .k).code 7 0 1,
    bpfStmt Op.ldxMem.code 3, bpfStmt Op.txa.code 0, bpfStmt Op.retA.code 0]

/-- A program that stores a cell and loads it again. -/
theorem bpfValidateExt_sound_storeThenLoad :
    bpfValidateExt (none : Option (BpfCtx Unit)) storeThenLoad = true ∧
    ∃ value args' world', bpfFilterExt ⟨fun _ _ => 0, fun _ _ => 0⟩ none (some storeThenLoad)
        ⟨⟨fun _ => 0, []⟩, 0, 0, fun _ => 0⟩ () 6 = some (.ret value args' world') :=
  ⟨by decide, (bpfValidateExt_sound ⟨fun _ _ => 0, fun _ _ => 0⟩ none storeThenLoad (by decide)
    ⟨⟨fun _ => 0, []⟩, 0, 0, fun _ => 0⟩ ()).1⟩

end NetBSD.Net.Bpf
