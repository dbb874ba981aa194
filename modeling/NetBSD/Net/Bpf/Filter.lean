import NetBSD.Kern.Mbuf
import NetBSD.Net.Bpf.Insn
import NetBSD.Machine.Run

/-!
Owns packet reads of `sys/net/bpf_filter.c`: big-endian extraction from
contiguous memory, and `m_xword`, `m_xhalf` and `m_xbyte`, which read from an
mbuf chain. A chain read is `none` where the source leaves `*err` at 1.
-/

namespace NetBSD.Net.Bpf

open NetBSD.Kern

/-- `be16dec` of two bytes, widened as `EXTRACT_SHORT` is used. -/
def be16 (b0 b1 : UInt8) : UInt32 := b0.toUInt32 <<< 8 ||| b1.toUInt32

def be32 (b0 b1 b2 b3 : UInt8) : UInt32 :=
  b0.toUInt32 <<< 24 ||| b1.toUInt32 <<< 16 ||| b2.toUInt32 <<< 8 ||| b3.toUInt32

def extractShort (p : Nat → UInt8) (k : Nat) : UInt32 := be16 (p k) (p (k + 1))

def extractLong (p : Nat → UInt8) (k : Nat) : UInt32 :=
  be32 (p k) (p (k + 1)) (p (k + 2)) (p (k + 3))

/-- `MINDEX(len, m, k)`: the mbuf that holds byte `k` of the chain, the mbufs
after it and the offset inside it. -/
def mindex : List Mbuf → Nat → Option (Mbuf × List Mbuf × Nat)
  | [], _ => none
  | m :: rest, k => if m.m_len ≤ k then mindex rest (k - m.m_len) else some (m, rest, k)

/-- `m_xword`. The value may straddle the found mbuf and the next one only. -/
def mXword (chain : List Mbuf) (k : Nat) : Option UInt32 :=
  match mindex chain k with
  | none => none
  | some (m, rest, k) =>
    let cp := fun i => m.data (k + i)
    if 4 ≤ m.m_len - k then
      some (be32 (cp 0) (cp 1) (cp 2) (cp 3))
    else
      match rest with
      | [] => none
      | m0 :: _ =>
        if (m.m_len - k) + m0.m_len < 4 then
          none
        else
          let np := m0.data
          match m.m_len - k with
          | 1 => some (be32 (cp 0) (np 0) (np 1) (np 2))
          | 2 => some (be32 (cp 0) (cp 1) (np 0) (np 1))
          | _ => some (be32 (cp 0) (cp 1) (cp 2) (np 0))

/-- `m_xhalf`. The second byte comes from the next mbuf, whatever its
length. -/
def mXhalf (chain : List Mbuf) (k : Nat) : Option UInt32 :=
  match mindex chain k with
  | none => none
  | some (m, rest, k) =>
    if 2 ≤ m.m_len - k then
      some (be16 (m.data k) (m.data (k + 1)))
    else
      match rest with
      | [] => none
      | m0 :: _ => some (be16 (m.data k) (m0.data 0))

def mXbyte (chain : List Mbuf) (k : Nat) : Option UInt32 :=
  match mindex chain k with
  | none => none
  | some (m, _, k) => some (m.data k).toUInt32

/-- The memory `args->pkt` points at: the bytes that `p[k]` reads and the mbuf
chain that `xword` and its kin read through the same pointer. -/
structure Pkt where
  bytes : Nat → UInt8
  chain : List Mbuf

/-- The width in bytes of a packet load. -/
def Size.width : Size → Nat
  | .w => 4
  | .h => 2
  | .b => 1

def extract (size : Size) (p : Nat → UInt8) (k : Nat) : UInt32 :=
  match size with
  | .w => extractLong p k
  | .h => extractShort p k
  | .b => (p k).toUInt32

def mX (size : Size) (chain : List Mbuf) (k : Nat) : Option UInt32 :=
  match size with
  | .w => mXword chain k
  | .h => mXhalf chain k
  | .b => mXbyte chain k

/-!
### The interpreter

The kernel BPF interpreter `bpf_filter_ext` of `sys/net/bpf_filter.c` and
the contexts and arguments it runs with. One iteration of its `for (;;)` loop
is `filterStep`; a run is `Machine.run` of that step.

Coprocessor functions are arbitrary: they see and may change the arguments,
the scratch memory in them and the rest of the kernel, which is the type
`World`. Shifts by 32 or more are undefined in C; `Target` names whatever the
compiled kernel computes for them.
-/

open NetBSD.Machine

universe u

structure BpfArgs where
  pkt : Pkt
  wirelen : Nat
  buflen : Nat
  mem : Nat → UInt32

/-- What a coprocessor call leaves behind. -/
structure CopResult (World : Type u) where
  value : UInt32
  args : BpfArgs
  world : World

abbrev BpfCopfunc (World : Type u) := World → BpfArgs → UInt32 → CopResult World

def extmemAccepted (nwords : Nat) (preinited : UInt32) : Bool :=
  !(decide (bpfMaxMemwords < nwords) || (preinited >>> UInt32.ofNat nwords != 0))

/-- `bpf_ctx_t`. Only `bpf_create` and `bpf_set_extmem` write the last two
members, so every context satisfies the test. -/
structure BpfCtx (World : Type u) where
  copfuncs : Option (Nat → BpfCopfunc World)
  nfuncs : Nat
  extwords : Nat
  preinited : UInt32
  extmem : extmemAccepted extwords preinited = true

inductive Errno where
  | einval
deriving DecidableEq, Repr

def bpfCreate (World : Type u) : BpfCtx World := ⟨none, 0, 0, 0, by decide⟩

def bpfSetCop {World : Type u} (bc : BpfCtx World) (funcs : Option (Nat → BpfCopfunc World))
    (n : Nat) : BpfCtx World :=
  { bc with copfuncs := funcs, nfuncs := n }

def bpfSetExtmem {World : Type u} (bc : BpfCtx World) (nwords : Nat) (preinited : UInt32) :
    Except Errno (BpfCtx World) :=
  if accepted : extmemAccepted nwords preinited = true then
    .ok { bc with extwords := nwords, preinited := preinited, extmem := accepted }
  else
    .error .einval

/-- The number of scratch words a program may use under a context. -/
def memwords {World : Type u} (bc : Option (BpfCtx World)) : Nat :=
  let extwords := match bc with
    | some ctx => ctx.extwords
    | none => 0
  if extwords ≠ 0 then extwords else bpfMemwords

/-- The scratch words declared initialised under a context. -/
def preinited {World : Type u} (bc : Option (BpfCtx World)) : UInt32 :=
  match bc with
  | some ctx => if ctx.extwords ≠ 0 then ctx.preinited else 0
  | none => 0

/-- The values of over-wide shifts on the machine the kernel runs on. -/
structure Target where
  lsh : UInt32 → UInt32 → UInt32
  rsh : UInt32 → UInt32 → UInt32

def aluEval (target : Target) (op : AluOp) (a operand : UInt32) : UInt32 :=
  match op with
  | .add => a + operand
  | .sub => a - operand
  | .mul => a * operand
  | .div => a / operand
  | .mod => a % operand
  | .and => a &&& operand
  | .or => a ||| operand
  | .xor => a ^^^ operand
  | .lsh => if operand < 32 then a <<< operand else target.lsh a operand
  | .rsh => if operand < 32 then a >>> operand else target.rsh a operand

/-- The conditions of the conditional jumps. -/
def jmpTest (op : JmpOp) (a operand : UInt32) : Bool :=
  match op with
  | .jgt => decide (operand < a)
  | .jge => decide (operand ≤ a)
  | .jeq => a == operand
  | .jset => a &&& operand != 0

def ldAbs (size : Size) (p : Nat → UInt8) (args : BpfArgs) (k : UInt32) : Option UInt32 :=
  let short := match size with
    | .w => decide (args.buflen < k.toNat) || decide (args.buflen - k.toNat < 4)
    | .h => decide (args.buflen < k.toNat) || decide (args.buflen - k.toNat < 2)
    | .b => decide (args.buflen ≤ k.toNat)
  if short then
    if args.buflen ≠ 0 then none else mX size args.pkt.chain k.toNat
  else
    some (extract size p k.toNat)

def ldInd (size : Size) (p : Nat → UInt8) (args : BpfArgs) (x imm : UInt32) : Option UInt32 :=
  let k := x + imm
  let short := match size with
    | .w => decide (k < x) || decide (args.buflen ≤ k.toNat) || decide (args.buflen - k.toNat < 4)
    | .h => decide (k < x) || decide (args.buflen ≤ k.toNat) || decide (args.buflen - k.toNat < 2)
    | .b => decide (k < x) || decide (args.buflen ≤ k.toNat)
  if short then
    if k < x ∨ args.buflen ≠ 0 then none else mX size args.pkt.chain k.toNat
  else
    some (extract size p k.toNat)

def ldxMsh (p : Nat → UInt8) (args : BpfArgs) (k : UInt32) : Option UInt32 :=
  if args.buflen ≤ k.toNat then
    if args.buflen ≠ 0 then none
    else (mXbyte args.pkt.chain k.toNat).map (fun byte : UInt32 => (byte &&& 0xf) <<< 2)
  else
    some (((p k.toNat).toUInt32 &&& 0xf) <<< 2)

/-- The interpreter between two instructions. `pc` counts from `f[0]`. -/
structure FilterState (World : Type u) where
  pc : Nat
  a : UInt32
  x : UInt32
  args : BpfArgs
  world : World

/-- How a run ends. `fault` is a C-level error: a read outside the program, a
division by a zero constant or a coprocessor call without a function table. -/
inductive Outcome (World : Type u) where
  | ret (value : UInt32) (args : BpfArgs) (world : World)
  | fault

section Step

variable {World : Type u} (target : Target) (bc : Option (BpfCtx World)) (f : List BpfInsn)
  (p : Nat → UInt8)

def FilterState.operand (s : FilterState World) (insn : BpfInsn) : Src → UInt32
  | .k => insn.k
  | .x => s.x

def FilterState.ret (s : FilterState World) (value : UInt32) :
    Step (FilterState World) (Outcome World) :=
  .done (.ret value s.args s.world)

/-- `A = value; continue`, or `return 0`. -/
def FilterState.setA (s : FilterState World) :
    Option UInt32 → Step (FilterState World) (Outcome World)
  | some value => .next { s with pc := s.pc + 1, a := value }
  | none => s.ret 0

/-- `X = value; continue`, or `return 0`. -/
def FilterState.setX (s : FilterState World) :
    Option UInt32 → Step (FilterState World) (Outcome World)
  | some value => .next { s with pc := s.pc + 1, x := value }
  | none => s.ret 0

def FilterState.setMem (s : FilterState World) (k : UInt32) (value : UInt32) :
    Step (FilterState World) (Outcome World) :=
  .next { s with
    pc := s.pc + 1
    args := { s.args with mem := Function.update s.args.mem k.toNat value } }

def FilterState.jump (s : FilterState World) (offset : Nat) :
    Step (FilterState World) (Outcome World) :=
  .next { s with pc := s.pc + 1 + offset }

/-- `bc->copfuncs[index](bc, args, A)`, guarded by `index < bc->nfuncs`. -/
def FilterState.cop (s : FilterState World) (index : UInt32) :
    Step (FilterState World) (Outcome World) :=
  match bc with
  | none => .done .fault
  | some ctx =>
    if index.toNat < ctx.nfuncs then
      match ctx.copfuncs with
      | none => .done .fault
      | some table =>
        let called := table index.toNat s.world s.args s.a
        .next { s with
          pc := s.pc + 1
          a := called.value
          args := called.args
          world := called.world }
    else
      s.ret 0

def execOp (s : FilterState World) (insn : BpfInsn) : Op → Step (FilterState World) (Outcome World)
  | .retK => s.ret insn.k
  | .retA => s.ret s.a
  | .ldAbs size => s.setA (ldAbs size p s.args insn.k)
  | .ldInd size => s.setA (ldInd size p s.args s.x insn.k)
  | .ldLen => s.setA (some (UInt32.ofNat s.args.wirelen))
  | .ldxLen => s.setX (some (UInt32.ofNat s.args.wirelen))
  | .ldxMsh => s.setX (ldxMsh p s.args insn.k)
  | .ldImm => s.setA (some insn.k)
  | .ldxImm => s.setX (some insn.k)
  | .ldMem => s.setA (some (s.args.mem insn.k.toNat))
  | .ldxMem => s.setX (some (s.args.mem insn.k.toNat))
  | .st => s.setMem insn.k s.a
  | .stx => s.setMem insn.k s.x
  | .ja => s.jump insn.k.toNat
  | .jmp op src =>
    s.jump (if jmpTest op s.a (s.operand insn src) then insn.jt.toNat else insn.jf.toNat)
  | .alu op .x =>
    if (op = .div ∨ op = .mod) ∧ s.x = 0 then s.ret 0
    else s.setA (some (aluEval target op s.a s.x))
  | .alu op .k =>
    if (op = .div ∨ op = .mod) ∧ insn.k = 0 then .done .fault
    else s.setA (some (aluEval target op s.a insn.k))
  | .neg => s.setA (some (-s.a))
  | .tax => s.setX (some s.a)
  | .txa => s.setA (some s.x)
  | .cop => s.cop bc insn.k
  | .copx => s.cop bc s.x

/-- One iteration of the interpreter loop. -/
def filterStep (s : FilterState World) : Step (FilterState World) (Outcome World) :=
  match f[s.pc]? with
  | none => .done .fault
  | some insn =>
    match Op.decode insn.code with
    | none => s.ret 0
    | some op => execOp target bc p s insn op

/-- The state before the first instruction. -/
def filterStart (args : BpfArgs) (world : World) : FilterState World :=
  ⟨0, 0, 0, args, world⟩

/-- `bpf_filter_ext(bc, pc, args)` with at most `fuel` instructions; a NULL
program accepts everything. -/
def bpfFilterExt (pc : Option (List BpfInsn)) (args : BpfArgs) (world : World) (fuel : Nat) :
    Option (Outcome World) :=
  match pc with
  | none => some (.ret 0xffffffff args world)
  | some f => run (filterStep target bc f args.pkt.bytes) fuel (filterStart args world)

end Step

def bpfFilter (target : Target) (pc : Option (List BpfInsn)) (pkt : Pkt) (wirelen buflen : UInt32)
    (junk : Nat → UInt32) (fuel : Nat) : Option (Outcome Unit) :=
  bpfFilterExt target none pc ⟨pkt, wirelen.toNat, buflen.toNat, junk⟩ () fuel

/-- The value a finished run returns. -/
def Outcome.value? {World : Type u} : Outcome World → Option UInt32
  | .ret value _ _ => some value
  | .fault => none

/-!
### The validator

The kernel validator `bpf_validate_ext` of `sys/net/bpf_filter.c`: one
forward pass that rejects bad encodings and carries, for each instruction, the
set of scratch words that some path may not have written yet.
-/

def bpfMemwordInit (k : UInt32) : UInt32 := 1 <<< k

/-- The variables the pass carries: the array `mem` and the word `invalid`. -/
structure ValidState where
  mem : Nat → UInt32
  invalid : UInt32

def ValidState.mark (st : ValidState) (target : Nat) : ValidState :=
  { st with mem := Function.update st.mem target (st.mem target ||| st.invalid) }

section Insn

variable {World : Type u} (bc : Option (BpfCtx World)) (len : UInt32) (i : Nat) (p : BpfInsn)
  (st : ValidState)

/-- `case BPF_LD: case BPF_LDX:`. Here and below `none` is `goto out`. -/
def validateLd : Option ValidState :=
  let mode := bpfMode p.code
  if mode = bpfMem then
    if memwords bc ≤ p.k.toNat then none
    else if st.invalid &&& bpfMemwordInit p.k ≠ 0 then none
    else some st
  else if mode = bpfAbs ∨ mode = bpfInd ∨ mode = bpfMsh ∨ mode = bpfImm ∨ mode = bpfLen then
    some st
  else none

def validateSt : Option ValidState :=
  if memwords bc ≤ p.k.toNat then none
  else some { st with invalid := st.invalid &&& ~~~bpfMemwordInit p.k }

def validateAlu : Option ValidState :=
  let op := bpfOp p.code
  if op = bpfAdd ∨ op = bpfSub ∨ op = bpfMul ∨ op = bpfOr ∨ op = bpfXor ∨ op = bpfAnd ∨
      op = bpfLsh ∨ op = bpfRsh ∨ op = bpfNeg then
    some st
  else if op = bpfDiv ∨ op = bpfMod then
    if bpfSrc p.code = bpfK ∧ p.k = 0 then none else some st
  else none

/-- `case BPF_JMP:`. Sums with `from` are unsigned 32-bit sums. -/
def validateJmp : Option ValidState :=
  let «from» := UInt32.ofNat (i + 1)
  let op := bpfOp p.code
  if op = bpfJa then
    if len ≤ «from» + p.k then none
    else if «from» + p.k < «from» then none
    else some { st.mark («from» + p.k).toNat with invalid := 0 }
  else if op = bpfJeq ∨ op = bpfJgt ∨ op = bpfJge ∨ op = bpfJset then
    if len ≤ «from» + p.jt.toUInt32 ∨ len ≤ «from» + p.jf.toUInt32 then none
    else
      some { (st.mark («from» + p.jt.toUInt32).toNat).mark («from» + p.jf.toUInt32).toNat with
        invalid := 0 }
  else none

def validateMisc : Option ValidState :=
  let miscop := bpfMiscop p.code
  if miscop = bpfCop ∨ miscop = bpfCopx then
    match bc with
    | none => none
    | some ctx =>
      match ctx.copfuncs with
      | none => none
      | some _ => if miscop = bpfCop ∧ ctx.nfuncs ≤ p.k.toNat then none else some st
  else
    some st

/-- The checks of one instruction at index `i`, after `invalid |= mem[i]`. -/
def validateInsn : Option ValidState :=
  let cls := bpfClass p.code
  if cls = bpfLd ∨ cls = bpfLdx then validateLd bc p st
  else if cls = bpfSt ∨ cls = bpfStx then validateSt bc p st
  else if cls = bpfAlu then validateAlu p st
  else if cls = bpfJmp then validateJmp len i p st
  else if cls = bpfRet then some st
  else if cls = bpfMisc then validateMisc bc p st
  else none

end Insn

def ValidState.blend (st : ValidState) (i : Nat) : ValidState :=
  { st with invalid := st.invalid ||| st.mem i }

/-- The loop over the instructions from index `i` on. -/
def validateLoop {World : Type u} (bc : Option (BpfCtx World)) (len : UInt32) :
    Nat → List BpfInsn → ValidState → Bool
  | _, [], _ => true
  | i, p :: rest, st =>
    match validateInsn bc len i p (st.blend i) with
    | none => false
    | some after => validateLoop bc len (i + 1) rest after

/-- The pass starts with no marks and only the declared words valid. -/
def validateStart {World : Type u} (bc : Option (BpfCtx World)) : ValidState :=
  ⟨fun _ => 0, ~~~preinited bc⟩

def bpfValidateExt {World : Type u} (bc : Option (BpfCtx World)) (f : List BpfInsn) : Bool :=
  if f.length < 1 then false
  else if bpfMaxinsns < f.length then false
  else
    match f.getLast? with
    | none => false
    | some last =>
      if last.code ≠ bpfRet ||| bpfK ∧ last.code ≠ bpfRet ||| bpfA then false
      else validateLoop bc (UInt32.ofNat f.length) 0 f (validateStart bc)

def bpfValidate (f : List BpfInsn) : Bool := bpfValidateExt (none : Option (BpfCtx Unit)) f

end NetBSD.Net.Bpf
