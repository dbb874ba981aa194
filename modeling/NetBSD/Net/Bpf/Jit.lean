import NetBSD.Net.Bpf.Safety

/-!
Owns the analysis that `sys/net/bpfjit.c` makes before it generates code: the
three passes of `optimize`, in the kernel's configuration. A pass is the state
after a number of iterations of its loop. An entry of a `bjumps` list is the
index of the jump whose `jdata` it points to.
-/

namespace NetBSD.Net.Bpf

open Function

universe u

def uint32Max : Nat := 0xffffffff

def maxAbcLength : Nat := uint32Max + 4

def bjInitAbit : UInt32 := bpfMemwordInit 30

def bjInitXbit : UInt32 := bpfMemwordInit 31

/-- `struct bpfjit_jump_data`, but for the list entries. -/
structure JumpData where
  abc_length : Nat
  checked_length : Nat

structure ReadPktData where
  abc_length : Nat
  check_length : Nat

structure InsnData where
  bjumps : List Nat
  jdata : JumpData
  rdata : ReadPktData
  invalid : UInt32
  unreachable : Bool

def readWidth (insn : BpfInsn) : Nat :=
  let size := bpfSize insn.code
  if size = bpfW then 4 else if size = bpfH then 2 else if size = bpfB then 1 else 0

def readPktInsn (insn : BpfInsn) : Option Nat :=
  let cls := bpfClass insn.code
  let mode := bpfMode insn.code
  if cls = bpfLd then
    if (mode = bpfAbs ∨ mode = bpfInd) ∧ readWidth insn ≠ 0 then
      some (insn.k.toNat + readWidth insn)
    else none
  else if cls = bpfLdx then
    if mode = bpfMsh ∧ bpfSize insn.code = bpfB then some (insn.k.toNat + 1) else none
  else none

/-- A packet load that generates an unconditional "return 0". -/
def longLoad (insn : BpfInsn) : Bool :=
  match readPktInsn insn with
  | some length => decide (uint32Max < length)
  | none => false

def optimizeInit (dat : Nat → InsnData) (i : Nat) : InsnData :=
  { dat i with bjumps := [], invalid := 0 }

/-! ### The first pass -/

/-- What the loop of `optimize_pass1` carries. -/
structure Pass1 where
  dat : Nat → InsnData
  initmask : UInt32
  invalid : UInt32
  unreachable : Bool

section Pass1

variable (memwords : Nat) (insn : BpfInsn)

def isJmp : Bool := bpfClass insn.code == bpfJmp

/-- The bits of `invalid` that an instruction adds to `*initmask`. -/
def pass1Reads : UInt32 :=
  let cls := bpfClass insn.code
  let mode := bpfMode insn.code
  let memBit := if mode = bpfMem ∧ insn.k.toNat < memwords then bpfMemwordInit insn.k else 0
  if cls = bpfRet then if bpfRval insn.code = bpfA then bjInitAbit else 0
  else if cls = bpfLd then (if mode = bpfInd then bjInitXbit else 0) ||| memBit
  else if cls = bpfLdx then memBit
  else if cls = bpfSt then bjInitAbit
  else if cls = bpfStx then bjInitXbit
  else if cls = bpfAlu then
    bjInitAbit ||| if insn.code ≠ bpfAlu ||| bpfNeg ∧ bpfSrc insn.code = bpfX then bjInitXbit else 0
  else if cls = bpfMisc then
    let miscop := bpfMiscop insn.code
    if miscop = bpfTax then bjInitAbit
    else if miscop = bpfTxa then bjInitXbit
    else if miscop = bpfCopx ∨ miscop = bpfCop then bjInitAbit
    else 0
  else bjInitAbit ||| if bpfSrc insn.code = bpfX then bjInitXbit else 0

/-- The bits that an instruction takes out of `invalid`, but for a jump. -/
def pass1Writes : UInt32 :=
  let cls := bpfClass insn.code
  if cls = bpfLd then bjInitAbit
  else if cls = bpfLdx then bjInitXbit
  else if cls = bpfSt ∨ cls = bpfStx then
    if insn.k.toNat < memwords then bpfMemwordInit insn.k else 0
  else if cls = bpfAlu then bjInitAbit
  else if cls = bpfMisc then
    let miscop := bpfMiscop insn.code
    if miscop = bpfTax then bjInitXbit
    else if miscop = bpfTxa ∨ miscop = bpfCopx ∨ miscop = bpfCop then bjInitAbit
    else 0
  else 0

/-- `jt` and `jf` before they are made indices. -/
def jumpOffsets : Nat × Nat :=
  if bpfOp insn.code = bpfJa then (insn.k.toNat, insn.k.toNat) else (insn.jt.toNat, insn.jf.toNat)

def jumpIndex (i offset : Nat) : Nat := (offset + (i + 1)) % 2 ^ 32

def jumpTargets (i : Nat) : List Nat :=
  [jumpIndex i (jumpOffsets insn).1, jumpIndex i (jumpOffsets insn).2]

/-- The next instruction becomes unreachable. -/
def stops : Bool :=
  longLoad insn || bpfClass insn.code == bpfRet ||
    isJmp insn && decide (0 < (jumpOffsets insn).1) && decide (0 < (jumpOffsets insn).2)

end Pass1

/-- `SLIST_INSERT_HEAD` of an entry of jump `i`. -/
def linkJump (dat : Nat → InsnData) (i target : Nat) : Nat → InsnData :=
  update dat target { dat target with bjumps := i :: (dat target).bjumps }

def markInvalid (dat : Nat → InsnData) (invalid : UInt32) (target : Nat) : Nat → InsnData :=
  update dat target { dat target with invalid := (dat target).invalid ||| invalid }

def pass1Jump (dat : Nat → InsnData) (invalid : UInt32) (i : Nat) (insn : BpfInsn) :
    Nat → InsnData :=
  let jt := jumpIndex i (jumpOffsets insn).1
  let jf := jumpIndex i (jumpOffsets insn).2
  let dat := update dat i
    { dat i with jdata := { (dat i).jdata with abc_length := maxAbcLength } }
  let dat := linkJump dat i jt
  let dat := if jf ≠ jt then linkJump dat i jf else dat
  markInvalid (markInvalid dat invalid jf) invalid jt

def pass1Reached (memwords insnCount i : Nat) (insn : BpfInsn) (st : Pass1) : Option Pass1 :=
  let invalid := st.invalid ||| (st.dat i).invalid
  let initmask := st.initmask ||| (invalid &&& pass1Reads memwords insn)
  if isJmp insn then
    if insnCount - (i + 1) ≤ (jumpOffsets insn).1 ∨ insnCount - (i + 1) ≤ (jumpOffsets insn).2 then
      none
    else some ⟨pass1Jump st.dat invalid i insn, initmask, 0, stops insn⟩
  else some ⟨st.dat, initmask, invalid &&& ~~~pass1Writes memwords insn, stops insn⟩

def setUnreachable (dat : Nat → InsnData) (i : Nat) (unreachable : Bool) : Nat → InsnData :=
  update dat i { dat i with unreachable := unreachable }

/-- One iteration of `optimize_pass1`. -/
def pass1Insn (memwords insnCount i : Nat) (insn : BpfInsn) (st : Pass1) : Option Pass1 :=
  let unreachable := (st.dat i).bjumps.isEmpty && st.unreachable
  let st := { st with
    dat := setUnreachable st.dat i unreachable
    unreachable := unreachable }
  if unreachable then some st else pass1Reached memwords insnCount i insn st

section Passes

variable {World : Type u} (bc : Option (BpfCtx World)) (f : List BpfInsn)

/-- `optimize_pass1` after its first iterations. -/
def pass1At (dat : Nat → InsnData) : Nat → Option Pass1
  | 0 => some ⟨dat, 0, ~~~0, false⟩
  | i + 1 => (pass1At dat i).bind fun st =>
    match f[i]? with
    | none => some st
    | some insn => pass1Insn (memwords bc) f.length i insn st

def optimizePass1 (dat : Nat → InsnData) : Option Pass1 :=
  pass1At bc f (optimizeInit dat) f.length

/-! ### The second pass -/

/-- What the loop of `optimize_pass2` carries. -/
structure Pass2 where
  dat : Nat → InsnData
  abc_length : Nat

def pass2Length (insn : BpfInsn) (jdata : JumpData) (abc_length : Nat) : Nat :=
  let cls := bpfClass insn.code
  if cls = bpfRet then
    if bpfRval insn.code = bpfK ∧ insn.k = 0 then maxAbcLength else 0
  else if cls = bpfMisc then
    if bpfMiscop insn.code = bpfCop ∨ bpfMiscop insn.code = bpfCopx then 0 else abc_length
  else if cls = bpfSt ∨ cls = bpfStx then
    if (match bc with | some ctx => ctx.extwords | none => 0) ≠ 0 then 0 else abc_length
  else if cls = bpfJmp then jdata.abc_length
  else
    match readPktInsn insn with
    | some length => if abc_length < length then length else abc_length
    | none => abc_length

def cutJumps (abc_length : Nat) : List Nat → (Nat → InsnData) → Nat → InsnData
  | [], dat => dat
  | jmp :: rest, dat =>
    let jdata := (dat jmp).jdata
    cutJumps abc_length rest (if abc_length < jdata.abc_length then
        update dat jmp { dat jmp with jdata := { jdata with abc_length := abc_length } }
      else dat)

/-- One iteration of `optimize_pass2`. -/
def pass2Insn (i : Nat) (insn : BpfInsn) (st : Pass2) : Pass2 :=
  if (st.dat i).unreachable then st
  else
    let abc_length := pass2Length bc insn (st.dat i).jdata st.abc_length
    let dat :=
      if (readPktInsn insn).isSome then
        update st.dat i
          { st.dat i with rdata := { (st.dat i).rdata with abc_length := abc_length } }
      else st.dat
    ⟨cutJumps abc_length (dat i).bjumps dat, abc_length⟩

/-- `optimize_pass2` after its first iterations, which begin at the last instruction. -/
def pass2At (dat : Nat → InsnData) : Nat → Pass2
  | 0 => ⟨dat, 0⟩
  | count + 1 =>
    let st := pass2At dat count
    let i := f.length - (count + 1)
    match f[i]? with
    | none => st
    | some insn => pass2Insn bc i insn st

/-! ### The third pass -/

/-- What the loop of `optimize_pass3` carries. -/
structure Pass3 where
  dat : Nat → InsnData
  checked_length : Nat

def cutChecked (dat : Nat → InsnData) : List Nat → (checked_length : Nat) → Nat
  | [], checked_length => checked_length
  | jmp :: rest, checked_length =>
    cutChecked dat rest
      (if (dat jmp).jdata.checked_length < checked_length then (dat jmp).jdata.checked_length
      else checked_length)

/-- One iteration of `optimize_pass3`. -/
def pass3Insn (i : Nat) (insn : BpfInsn) (st : Pass3) : Pass3 :=
  if (st.dat i).unreachable then st
  else
    let checked_length := cutChecked st.dat (st.dat i).bjumps st.checked_length
    if bpfClass insn.code = bpfJmp then
      ⟨update st.dat i
        { st.dat i with jdata := { (st.dat i).jdata with checked_length := checked_length } },
        checked_length⟩
    else if (readPktInsn insn).isSome then
      let rdata := (st.dat i).rdata
      if checked_length < rdata.abc_length then
        ⟨update st.dat i
          { st.dat i with rdata := { rdata with check_length := rdata.abc_length } },
          rdata.abc_length⟩
      else
        ⟨update st.dat i { st.dat i with rdata := { rdata with check_length := 0 } },
          checked_length⟩
    else ⟨st.dat, checked_length⟩

/-- `optimize_pass3` after its first iterations. -/
def pass3At (dat : Nat → InsnData) : Nat → Pass3
  | 0 => ⟨dat, 0⟩
  | i + 1 =>
    let st := pass3At dat i
    match f[i]? with
    | none => st
    | some insn => pass3Insn i insn st

def optimize (dat : Nat → InsnData) : Option (Nat → InsnData) :=
  (optimizePass1 bc f dat).map fun st =>
    (pass3At f (pass2At bc f st.dat f.length).dat f.length).dat

end Passes

end NetBSD.Net.Bpf
