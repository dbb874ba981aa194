import NetBSD.Net.Bpf.Filter
import NetBSD.Npfctl.BpfComp

/-!
Owns the meaning of code under construction. A segment falls off its end, returns,
or escapes through a jump whose target is not known yet; appending to a program is
then sequencing. Fixing up a segment turns its escapes into jumps over the one
instruction that is put behind it, which is how both the groups and the complete
program get their two exits.
-/

namespace NetBSD.Npfctl

open NetBSD.Net.Bpf List

/-- What a packet shows to the code of the generator: the memory words, the words at
fixed offsets, the fields behind the layer 4 offset and, for its source or its
destination address, the answer of each table. -/
structure View where
  mem : Nat → UInt32
  word : UInt32 → UInt32
  l4 : Size → UInt32 → UInt32
  lookup : Bool → UInt32 → Bool

def View.ipver (view : View) : UInt32 := view.mem bpfMwIpver.toNat
def View.l4off (view : View) : UInt32 := view.mem bpfMwL4off.toNat
def View.l4proto (view : View) : UInt32 := view.mem bpfMwL4proto.toNat

/-- The table lookup for a value of `A`. -/
def View.table (view : View) (a : UInt32) : UInt32 :=
  if view.lookup (a &&& srcFlagBit != 0) (a &&& (srcFlagBit - 1)) then 1 else 0

/-- The two registers. -/
structure Regs where
  a : UInt32
  x : UInt32

/-- One instruction: new registers and a number of instructions to skip, or a
returned value. -/
inductive Effect where
  | next (regs : Regs) (skip : Nat)
  | stop (value : UInt32)

/-- The instructions of the generator. It loads from behind the layer 4 offset only
when `X` holds that offset. -/
def effect (view : View) (r : Regs) (insn : BpfInsn) : Option Effect :=
  match Op.decode insn.code with
  | some .retK => some (.stop insn.k)
  | some .ldMem => some (.next { r with a := view.mem insn.k.toNat } 0)
  | some .ldxMem => some (.next { r with x := view.mem insn.k.toNat } 0)
  | some .ldImm => some (.next { r with a := insn.k } 0)
  | some (.ldAbs .w) => some (.next { r with a := view.word insn.k } 0)
  | some (.ldInd size) =>
    if r.x = view.l4off then some (.next { r with a := view.l4 size insn.k } 0) else none
  | some (.alu .and .k) => some (.next { r with a := r.a &&& insn.k } 0)
  | some .cop =>
    if insn.k = npfCopTable then some (.next { r with a := view.table r.a } 0) else none
  | some (.jmp op .k) =>
    some (.next r (if jmpTest op r.a insn.k then insn.jt.toNat else insn.jf.toNat))
  | _ => none

/-- How a segment ends. `wild` is anything that the generator does not do. -/
inductive Ending where
  | fell (regs : Regs)
  | escaped (regs : Regs)
  | returned (value : UInt32)
  | wild

def exec (view : View) : List BpfInsn → Regs → Ending
  | [], r => .fell r
  | insn :: rest, r =>
    match effect view r insn with
    | some (.next after skip) =>
      if skip = jumpMagic.toNat then .escaped after
      else if skip ≤ rest.length then exec view (rest.drop skip) after
      else .wild
    | some (.stop value) => .returned value
    | none => .wild
termination_by code => code.length
decreasing_by
  rw [length_drop, length_cons]
  omega

def Ending.andThen (ending : Ending) (next : Regs → Ending) : Ending :=
  match ending with
  | .fell r => next r
  | .escaped r => .escaped r
  | .returned value => .returned value
  | .wild => .wild

section Exec

variable {view : View} {r : Regs}

@[simp] theorem exec_nil : exec view [] r = .fell r := by
  rw [exec]

theorem exec_next {insn : BpfInsn} {tl : List BpfInsn} {s' : Regs} {skip : Nat}
    (moves : effect view r insn = some (.next s' skip)) :
    exec view (insn :: tl) r = if skip = jumpMagic.toNat then .escaped s'
      else if skip ≤ tl.length then exec view (tl.drop skip) s'
      else .wild := by
  rw [exec, moves]

theorem exec_stop {insn : BpfInsn} {tl : List BpfInsn} {v : UInt32}
    (stops : effect view r insn = some (.stop v)) :
    exec view (insn :: tl) r = .returned v := by
  rw [exec, stops]

theorem exec_none {insn : BpfInsn} {tl : List BpfInsn} (stuck : effect view r insn = none) :
    exec view (insn :: tl) r = .wild := by
  rw [exec, stuck]

theorem exec_straight {insn : BpfInsn} {tl : List BpfInsn} {s' : Regs}
    (moves : effect view r insn = some (.next s' 0)) :
    exec view (insn :: tl) r = exec view tl s' := by
  rw [exec_next moves, if_neg (by decide), if_pos (Nat.zero_le _), drop_zero]

theorem exec_append {code tl : List BpfInsn} (tame : exec view code r ≠ .wild) :
    exec view (code ++ tl) r = (exec view code r).andThen (exec view tl) := by
  induction code, r using exec.induct view with
  | case1 r => simp [Ending.andThen]
  | case2 r insn tail s' moves =>
    rw [cons_append, exec_next moves, exec_next moves]
    rfl
  | case3 r insn tail s' skip moves notMagic lt ih =>
    rw [exec_next moves, if_neg notMagic, if_pos lt] at tame ⊢
    rw [cons_append, exec_next moves, if_neg notMagic,
      if_pos (by rw [length_append]; omega), drop_append_of_le_length lt]
    exact ih tame
  | case4 r insn tail s' skip moves notMagic out =>
    rw [exec_next moves, if_neg notMagic, if_neg out] at tame
    exact absurd rfl tame
  | case5 r insn tail v stops =>
    rw [cons_append, exec_stop stops, exec_stop stops]
    rfl
  | case6 r insn tail stuck => exact absurd (exec_none stuck) tame

end Exec

/-! ### Fixing up -/

/-- The exchange of the two offsets. -/
def swapInsn (swap : Bool) (insn : BpfInsn) : BpfInsn :=
  if swap ∧ bpfClass insn.code = bpfJmp then { insn with jt := insn.jf, jf := insn.jt } else insn

@[simp] theorem swapInsn_code (swap : Bool) (insn : BpfInsn) :
    (swapInsn swap insn).code = insn.code := by
  unfold swapInsn
  split <;> rfl

@[simp] theorem swapInsn_k (swap : Bool) (insn : BpfInsn) : (swapInsn swap insn).k = insn.k := by
  unfold swapInsn
  split <;> rfl

theorem map_swapInsn_false (code : List BpfInsn) : code.map (swapInsn false) = code := by
  have fixes : swapInsn false = id := by
    funext insn
    simp [swapInsn]
  rw [fixes, map_id]

/-- The target of a jump after fixing up. -/
def fixedSkip (failOff : Nat) (skip : UInt8) : UInt8 :=
  if skip = jumpMagic then UInt8.ofNat failOff else skip

section Fixup

variable {swap : Bool}

theorem fixupInsn_eq (failOff : Nat) (insn : BpfInsn) : fixupInsn swap failOff insn =
      if bpfClass insn.code = bpfJmp then
        { swapInsn swap insn with
          jt := fixedSkip failOff (swapInsn swap insn).jt
          jf := fixedSkip failOff (swapInsn swap insn).jf }
      else swapInsn swap insn := by
  obtain ⟨code, jt, jf, k⟩ := insn
  by_cases isJump : bpfClass code = bpfJmp
  · by_cases fst : jt = jumpMagic <;> by_cases second : jf = jumpMagic <;> cases swap <;>
      simp [fixupInsn, swapInsn, fixedSkip, isJump, fst, second]
  · simp [fixupInsn, swapInsn, isJump]

theorem fixupInsns_cons {insn : BpfInsn} {tl fixed : List BpfInsn}
    (done : fixupInsns swap (insn :: tl) = some fixed) :
    tl.length + 1 < 255 ∧ ∃ tail, fixupInsns swap tl = some tail ∧
      fixed = fixupInsn swap (tl.length + 1) insn :: tail := by
  rw [fixupInsns] at done
  split at done
  · simp at done
  have magic : jumpMagic.toNat = 255 := rfl
  cases tailFixed : fixupInsns swap tl with
  | none => simp [tailFixed] at done
  | some tail =>
    refine ⟨by omega, tail, rfl, ?_⟩
    simpa [tailFixed] using done.symm

theorem fixupInsns_length {code fixed : List BpfInsn} (done : fixupInsns swap code = some fixed) :
    fixed.length = code.length := by
  induction code generalizing fixed with
  | nil => simp_all [fixupInsns]
  | cons insn tl ih =>
    obtain ⟨-, tail, tailFixed, rfl⟩ := fixupInsns_cons done
    simp [ih tailFixed]

theorem fixupInsns_drop {code fixed : List BpfInsn} (done : fixupInsns swap code = some fixed)
    (n : Nat) : fixupInsns swap (code.drop n) = some (fixed.drop n) := by
  induction n generalizing code fixed with
  | zero => exact done
  | succ n ih =>
    cases code with
    | nil =>
      obtain rfl : [] = fixed := by simpa [fixupInsns] using done
      simp [fixupInsns]
    | cons insn tl =>
      obtain ⟨-, tail, tailFixed, rfl⟩ := fixupInsns_cons done
      exact ih tailFixed

@[simp] theorem fixupInsn_code (failOff : Nat) (insn : BpfInsn) :
    (fixupInsn swap failOff insn).code = insn.code := by
  rw [fixupInsn_eq]
  split <;> simp

@[simp] theorem fixupInsn_k (failOff : Nat) (insn : BpfInsn) :
    (fixupInsn swap failOff insn).k = insn.k := by
  rw [fixupInsn_eq]
  split <;> simp

def Effect.fixed (failOff : Nat) : Effect → Effect
  | .next regs skip => .next regs (if skip = jumpMagic.toNat then failOff else skip)
  | .stop value => .stop value

theorem toNat_fixedSkip {failOff : Nat} (short : failOff < 255) (skip : UInt8) :
    (fixedSkip failOff skip).toNat =
      if skip.toNat = jumpMagic.toNat then failOff else skip.toNat := by
  unfold fixedSkip
  by_cases isMagic : skip = jumpMagic
  · rw [if_pos isMagic, if_pos (by rw [isMagic]), UInt8.toNat_ofNat', Nat.mod_eq_of_lt (by omega)]
  · rw [if_neg isMagic, if_neg (fun same => isMagic (UInt8.toNat_inj.mp same))]

theorem effect_fixupInsn (view : View) (r : Regs) {failOff : Nat} (short : failOff < 255)
    (insn : BpfInsn) :
    effect view r (fixupInsn swap failOff insn) =
      (effect view r (swapInsn swap insn)).map (Effect.fixed failOff) := by
  have still : ∀ s' : Regs, Effect.fixed failOff (.next s' 0) = .next s' 0 := fun _ => rfl
  unfold effect
  simp only [fixupInsn_code, fixupInsn_k, swapInsn_code, swapInsn_k]
  cases decoded : Op.decode insn.code with
  | none => rfl
  | some op =>
    cases op with
    | jmp op src =>
      cases src with
      | x => rfl
      | k =>
        have isJump : bpfClass insn.code = bpfJmp := by
          rw [← Op.code_of_decode decoded]
          cases op <;> rfl
        rw [fixupInsn_eq]
        simp only [Option.map_some, Effect.fixed]
        split
        · rw [toNat_fixedSkip short]
        · rw [toNat_fixedSkip short]
    | ldAbs size => cases size <;> rfl
    | ldInd size => by_cases atL4 : r.x = view.l4off <;> simp [atL4, still]
    | cop => by_cases isTable : insn.k = npfCopTable <;> simp [isTable, still]
    | alu op src => cases op <;> cases src <;> rfl
    | _ => rfl

/-- A fixed up segment with one instruction behind it: where the segment falls off its
end that instruction runs, and where it escapes the instruction is jumped over. -/
def Ending.overOne (first : Regs → Ending) : Ending → Ending
  | .fell r => first r
  | .escaped r => .fell r
  | .returned value => .returned value
  | .wild => .wild

/-- The fixed-up segment runs or skips the instruction behind it. -/
theorem exec_fixup {view : View} {code fixed : List BpfInsn} {r : Regs}
    (done : fixupInsns swap code = some fixed) (fst : BpfInsn)
    (tame : exec view (code.map (swapInsn swap)) r ≠ .wild) :
    exec view (fixed ++ [fst]) r =
      (exec view (code.map (swapInsn swap)) r).overOne (exec view [fst]) := by
  induction size : code.length using Nat.strong_induction_on generalizing code fixed r with
  | _ size ih =>
    subst size
    cases code with
    | nil =>
      obtain rfl : [] = fixed := by simpa [fixupInsns] using done
      rw [map_nil, exec_nil]
      rfl
    | cons insn tl =>
      obtain ⟨short, tail, tailFixed, rfl⟩ := fixupInsns_cons done
      have eqLen := fixupInsns_length tailFixed
      have fixedEffect := @effect_fixupInsn swap view r _ short insn
      rw [map_cons] at tame ⊢
      rw [cons_append]
      cases taken : effect view r (swapInsn swap insn) with
      | none => exact absurd (exec_none taken) tame
      | some effect =>
        rw [taken] at fixedEffect
        cases effect with
        | stop v =>
          rw [exec_stop taken, exec_stop fixedEffect]
          rfl
        | next s' skip =>
          rw [exec_next taken] at tame ⊢
          rw [exec_next fixedEffect]
          have magic : jumpMagic.toNat = 255 := rfl
          by_cases isMagic : skip = jumpMagic.toNat
          · rw [if_pos isMagic, if_pos isMagic, if_neg (by omega),
              if_pos (by rw [length_append, eqLen]; simp)]
            rw [drop_of_length_le (by rw [length_append, eqLen]; simp), exec_nil]
            rfl
          rw [if_neg isMagic] at tame ⊢
          rw [if_neg isMagic, if_neg isMagic]
          by_cases lt : skip ≤ tl.length
          · rw [length_map, if_pos lt, ← map_drop] at tame ⊢
            rw [length_append, eqLen, if_pos (by omega),
              drop_append_of_le_length (by omega)]
            exact ih (tl.drop skip).length (by rw [length_drop, length_cons]; omega)
              (fixupInsns_drop tailFixed skip) tame rfl
          · rw [length_map, if_neg lt] at tame
            exact absurd rfl tame

end Fixup

/-!
### Conjunctions and disjunctions

The two readings of a code block. As it is emitted a block is a conjunction: it
falls through where all its compares hold and escapes at the first that does not.
With the offsets of its jumps exchanged it is a disjunction: it escapes at the first
compare that holds and falls through where none does.
-/

section Instructions

variable {view : View} {r : Regs} {tl : List BpfInsn} {k : UInt32}

@[simp] theorem exec_ldMem :
    exec view (insnLdMem k :: tl) r = exec view tl { r with a := view.mem k.toNat } :=
  exec_straight rfl

@[simp] theorem exec_ldxMem :
    exec view (insnLdxMem k :: tl) r = exec view tl { r with x := view.mem k.toNat } :=
  exec_straight rfl

@[simp] theorem exec_ldImm : exec view (insnLdImm k :: tl) r = exec view tl { r with a := k } :=
  exec_straight rfl

@[simp] theorem exec_ldAbs :
    exec view (insnLdAbs k :: tl) r = exec view tl { r with a := view.word k } :=
  exec_straight rfl

theorem exec_ldInd {size : Size} (atL4 : r.x = view.l4off) :
    exec view (insnLdInd size k :: tl) r = exec view tl { r with a := view.l4 size k } := by
  apply exec_straight
  have dec : Op.decode (insnLdInd size k).code = some (.ldInd size) :=
    Op.decode_code (.ldInd size)
  simp only [effect, dec, if_pos atL4]
  rfl

@[simp] theorem exec_and :
    exec view (insnAnd k :: tl) r = exec view tl { r with a := r.a &&& k } :=
  exec_straight rfl

@[simp] theorem exec_cop :
    exec view (insnCop npfCopTable :: tl) r = exec view tl { r with a := view.table r.a } :=
  exec_straight rfl

@[simp] theorem exec_ret : exec view (insnRet k :: tl) r = .returned k :=
  exec_stop rfl

theorem effect_insnJmp {op : JmpOp} {jt jf : UInt8} : effect view r (insnJmp op k jt jf) =
      some (.next r (if jmpTest op r.a k then jt.toNat else jf.toNat)) := by
  have dec : Op.decode (insnJmp op k jt jf).code = some (.jmp op .k) :=
    Op.decode_code (.jmp op .k)
  simp only [effect, dec]
  rfl

@[simp] theorem exec_jmp {op : JmpOp} : exec view (insnJmp op k 0 jumpMagic :: tl) r =
      if jmpTest op r.a k then exec view tl r else .escaped r := by
  rw [exec_next effect_insnJmp]
  by_cases pss : jmpTest op r.a k = true
  · rw [if_pos pss, if_pos pss, if_neg (by decide)]
    exact if_pos (Nat.zero_le tl.length)
  · rw [if_neg pss, if_neg pss, if_pos rfl]

@[simp] theorem exec_jmp_not {op : JmpOp} : exec view (insnJmp op k jumpMagic 0 :: tl) r =
      if jmpTest op r.a k then .escaped r else exec view tl r := by
  rw [exec_next effect_insnJmp]
  by_cases pss : jmpTest op r.a k = true
  · rw [if_pos pss, if_pos pss, if_pos rfl]
  · rw [if_neg pss, if_neg pss, if_neg (by decide)]
    exact if_pos (Nat.zero_le tl.length)

end Instructions

section Swap

variable {k : UInt32}

theorem swapInsn_stmt {op : Op} (straight : bpfClass op.code ≠ bpfJmp) :
    swapInsn true (bpfStmt op.code k) = bpfStmt op.code k :=
  if_neg (fun isJump => straight isJump.2)

@[simp] theorem swapInsn_ldMem : swapInsn true (insnLdMem k) = insnLdMem k :=
  swapInsn_stmt (by decide)

@[simp] theorem swapInsn_ldxMem : swapInsn true (insnLdxMem k) = insnLdxMem k :=
  swapInsn_stmt (by decide)

@[simp] theorem swapInsn_ldImm : swapInsn true (insnLdImm k) = insnLdImm k :=
  swapInsn_stmt (by decide)

@[simp] theorem swapInsn_ldAbs : swapInsn true (insnLdAbs k) = insnLdAbs k :=
  swapInsn_stmt (by decide)

@[simp] theorem swapInsn_and : swapInsn true (insnAnd k) = insnAnd k :=
  swapInsn_stmt (by decide)

@[simp] theorem swapInsn_cop : swapInsn true (insnCop k) = insnCop k :=
  swapInsn_stmt (by decide)

@[simp] theorem swapInsn_ldInd {size : Size} :
    swapInsn true (insnLdInd size k) = insnLdInd size k :=
  swapInsn_stmt (by cases size <;> decide)

@[simp] theorem swapInsn_jmp {op : JmpOp} {jt jf : UInt8} :
    swapInsn true (insnJmp op k jt jf) = insnJmp op k jf jt := by
  have isJump : bpfClass (insnJmp op k jt jf).code = bpfJmp := by
    show bpfClass (Op.jmp op .k).code = bpfJmp
    cases op <;> decide
  rw [swapInsn, if_pos ⟨rfl, isJump⟩]
  rfl

end Swap

/-! ### Conjunctive and disjunctive reading -/

/-- If the flag is set, `X` holds the layer 4 offset. -/
def XEq (view : View) (flag : Bool) (r : Regs) : Prop := flag = true → r.x = view.l4off

/-- The packet is rejected whatever follows. -/
def Ending.Rejects (ending : Ending) : Prop :=
  (∃ r, ending = .escaped r) ∨ ending = .returned npfBpfFailure

/-- From registers with the flag `before`, the code falls through with the flag `after`
where the condition holds and rejects where it does not. -/
def Checks (view : View) (code : List BpfInsn) (before after : Bool) (holds : Prop) : Prop :=
  ∀ r, XEq view before r → (holds → ∃ r', XEq view after r' ∧ exec view code r = .fell r') ∧
    (¬ holds → (exec view code r).Rejects)

/-- With its jumps exchanged the code escapes where the condition holds and falls
through where it does not. -/
def Offers (view : View) (code : List BpfInsn) (before after : Bool) (holds : Prop) : Prop :=
  ∀ r, XEq view before r → ∃ r', XEq view after r' ∧
    (holds → exec view (code.map (swapInsn true)) r = .escaped r') ∧
    (¬ holds → exec view (code.map (swapInsn true)) r = .fell r')

section Compose

variable {view : View} {fst second : List BpfInsn} {x y z : Bool} {p q : Prop}

theorem Checks.nil : Checks view [] x x True :=
  fun r held => ⟨fun _ => ⟨r, held, exec_nil⟩, fun absurdity => absurd trivial absurdity⟩

theorem Checks.congr {code : List BpfInsn} (checks : Checks view code x y p) (same : p ↔ q) :
    Checks view code x y q := by
  intro r held
  rw [← same]
  exact checks r held

theorem Checks.append (left : Checks view fst x y p) (right : p → Checks view second y z q) :
    Checks view (fst ++ second) x z (p ∧ q) := by
  intro r held
  obtain ⟨pss, fails⟩ := left r held
  by_cases holds : p
  · obtain ⟨r', held', fell⟩ := pss holds
    obtain ⟨passes', fails'⟩ := right holds r' held'
    rw [exec_append (by simp [fell]), fell]
    exact ⟨fun both => passes' both.2, fun notBoth => fails' (fun also => notBoth ⟨holds, also⟩)⟩
  refine ⟨fun both => absurd both.1 holds, fun _ => ?_⟩
  rcases fails holds with ⟨r', escaped⟩ | ret
  · rw [exec_append (by simp [escaped]), escaped]
    exact Or.inl ⟨r', rfl⟩
  · rw [exec_append (by simp [ret]), ret]
    exact Or.inr rfl

theorem Offers.nil : Offers view [] x x False :=
  fun r held => ⟨r, held, fun absurdity => absurdity.elim, fun _ => exec_nil⟩

theorem Offers.congr {code : List BpfInsn} (offers : Offers view code x y p) (same : p ↔ q) :
    Offers view code x y q := by
  intro r held
  rw [← same]
  exact offers r held

theorem Offers.append (left : Offers view fst x y p) (right : Offers view second y z q)
    (keeps : p → z = true → y = true) : Offers view (fst ++ second) x z (p ∨ q) := by
  intro r held
  obtain ⟨r', held', escapes, falls⟩ := left r held
  rw [map_append]
  by_cases holds : p
  · refine ⟨r', fun set => held' (keeps holds set), fun _ => ?_, fun neither => ?_⟩
    · rw [exec_append (by simp [escapes holds]), escapes holds]
      rfl
    · exact absurd (Or.inl holds) neither
  · obtain ⟨r'', held'', escapes', falls'⟩ := right r' held'
    rw [exec_append (by simp [falls holds]), falls holds]
    refine ⟨r'', held'', fun either => ?_, fun neither => ?_⟩
    · exact escapes' (either.resolve_left holds)
    · exact falls' (fun also => neither (Or.inr also))

end Compose

/-! ### Loads and compares -/

/-- Straight-line code that leaves a value in `A`. -/
structure Sets (view : View) (code : List BpfInsn) (before after : Bool) (value : UInt32) :
    Prop where
  straight : code.map (swapInsn true) = code
  leaves : ∀ r, XEq view before r → ∃ r', XEq view after r' ∧ r'.a = value ∧
    exec view code r = .fell r'

/-- A jump of the generator: the compare and the outcome it asks for. -/
structure Compare where
  op : JmpOp
  k : UInt32
  sense : Bool

def Compare.insn (compare : Compare) : BpfInsn :=
  if compare.sense then insnJmp compare.op compare.k 0 jumpMagic
  else insnJmp compare.op compare.k jumpMagic 0

def Compare.Holds (compare : Compare) (value : UInt32) : Prop :=
  jmpTest compare.op value compare.k = compare.sense

section Compares

variable {view : View} {r : Regs} {code : List BpfInsn} {x y : Bool} {v : UInt32}

theorem Compare.exec_insn (view : View) (r : Regs) (compare : Compare) (tl : List BpfInsn) :
    (compare.Holds r.a → exec view (compare.insn :: tl) r = exec view tl r) ∧
    (¬ compare.Holds r.a → exec view (compare.insn :: tl) r = .escaped r) := by
  obtain ⟨op, k, sense⟩ := compare
  cases sense <;> simp +contextual [Compare.insn, Compare.Holds]

theorem Compare.exec_swap (view : View) (r : Regs) (compare : Compare) (tl : List BpfInsn) :
    (compare.Holds r.a → exec view (swapInsn true compare.insn :: tl) r = .escaped r) ∧
    (¬ compare.Holds r.a → exec view (swapInsn true compare.insn :: tl) r = exec view tl r) := by
  obtain ⟨op, k, sense⟩ := compare
  cases sense <;> simp +contextual [Compare.insn, Compare.Holds]

theorem checks_compares (compares : List Compare) (held : XEq view x r) :
    ((∀ compare ∈ compares, compare.Holds r.a) →
      ∃ r', XEq view x r' ∧ exec view (compares.map Compare.insn) r = .fell r') ∧
    (¬ (∀ compare ∈ compares, compare.Holds r.a) →
      (exec view (compares.map Compare.insn) r).Rejects) := by
  induction compares with
  | nil => exact ⟨fun _ => ⟨r, held, exec_nil⟩, fun pos => absurd (by simp) pos⟩
  | cons compare tl ih =>
    obtain ⟨pss, fails⟩ := compare.exec_insn view r (tl.map Compare.insn)
    rw [map_cons]
    by_cases holds : compare.Holds r.a
    · rw [pss holds]
      simpa [holds] using ih
    · rw [fails holds]
      exact ⟨fun all => absurd (all compare (by simp)) holds, fun _ => Or.inl ⟨r, rfl⟩⟩

theorem offers_compares (view : View) (r : Regs) (compares : List Compare) :
    ((∃ compare ∈ compares, compare.Holds r.a) →
      exec view ((compares.map Compare.insn).map (swapInsn true)) r = .escaped r) ∧
    (¬ (∃ compare ∈ compares, compare.Holds r.a) →
      exec view ((compares.map Compare.insn).map (swapInsn true)) r = .fell r) := by
  induction compares with
  | nil => exact ⟨fun pos => by simp at pos, fun _ => exec_nil⟩
  | cons compare tl ih =>
    obtain ⟨pss, fails⟩ := compare.exec_swap view r ((tl.map Compare.insn).map (swapInsn true))
    rw [map_cons, map_cons]
    by_cases holds : compare.Holds r.a
    · rw [pss holds]
      exact ⟨fun _ => rfl, fun no => absurd ⟨compare, by simp, holds⟩ no⟩
    · rw [fails holds]
      simpa [holds] using ih

theorem Sets.checks (sets : Sets view code x y v) (compares : List Compare) :
    Checks view (code ++ compares.map Compare.insn) x y
      (∀ compare ∈ compares, compare.Holds v) := by
  intro r held
  obtain ⟨r', held', val, fell⟩ := sets.leaves r held
  rw [exec_append (by simp [fell]), fell, ← val]
  exact checks_compares compares held'

theorem Sets.offers (sets : Sets view code x y v) (compares : List Compare) :
    Offers view (code ++ compares.map Compare.insn) x y
      (∃ compare ∈ compares, compare.Holds v) := by
  intro r held
  obtain ⟨r', held', val, fell⟩ := sets.leaves r held
  rw [map_append, sets.straight, exec_append (by simp [fell]), fell, ← val]
  obtain ⟨escapes, falls⟩ := offers_compares view r' compares
  exact ⟨r', held', escapes, falls⟩

end Compares

end NetBSD.Npfctl
