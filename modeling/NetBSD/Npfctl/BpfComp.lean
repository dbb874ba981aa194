import NetBSD.Net.Bpf.Insn

/-!
Owns the byte-code generator of `usr.sbin/npf/npfctl/npf_bpf_comp.c`: the context
under construction and the blocks appended to it. A jump to the failure path is
emitted with the offset `JUMP_MAGIC` and fixed up later; inside a group the two
offsets of every jump are exchanged first.

A function returns `none` where the source leaves through `errx`, `yyerror`,
`abort` or a failed assertion. The byte-code marks, which only describe the
program to `npfctl show`, are left out.
-/

namespace NetBSD.Npfctl

open NetBSD.Net.Bpf

/-- `AF_INET` and `AF_INET6`; `AF_UNSPEC` is `none` of an option. -/
inductive Af where
  | inet
  | inet6
  deriving DecidableEq, Repr

/-- `MATCH_SRC` and `MATCH_DST`. -/
inductive Side where
  | src
  | dst
  deriving DecidableEq, Repr

/-- `npf_addr_t`, as the four 32-bit words in host byte order. -/
structure NpfAddr where
  w0 : UInt32
  w1 : UInt32
  w2 : UInt32
  w3 : UInt32
  deriving DecidableEq, Repr

structure NpfBpf where
  prog : List BpfInsn
  nblocks : Nat
  af : Option Af
  fetchedL3 : Bool
  checkedL4 : Bool
  xEqL4off : Bool
  ingroup : Bool
  goff : Nat
  gblock : Nat
  deriving DecidableEq, Repr

def npfBpfSuccess : UInt32 := 0xffffffff
def npfBpfFailure : UInt32 := 0
def jumpMagic : UInt8 := 0xff

def bpfMwIpver : UInt32 := 0
def bpfMwL4off : UInt32 := 1
def bpfMwL4proto : UInt32 := 2
def npfCopTable : UInt32 := 1
def srcFlagBit : UInt32 := 0x80000000

def ipprotoIcmp : UInt32 := 1
def ipprotoTcp : UInt32 := 6
def ipprotoUdp : UInt32 := 17
def ipprotoIcmpv6 : UInt32 := 58

def npfNoNetmask : UInt8 := 255
def npfMaxNetmask : UInt8 := 128

/-- An `int` of -1, where the source uses it for "not given". -/
def notGiven : UInt32 := 0xffffffff

/-! ### Instructions -/

def insnLdMem (k : UInt32) : BpfInsn := bpfStmt Op.ldMem.code k

def insnLdxMem (k : UInt32) : BpfInsn := bpfStmt Op.ldxMem.code k

def insnLdAbs (k : UInt32) : BpfInsn := bpfStmt (Op.ldAbs .w).code k

def insnLdInd (size : Size) (k : UInt32) : BpfInsn := bpfStmt (Op.ldInd size).code k

def insnLdImm (k : UInt32) : BpfInsn := bpfStmt Op.ldImm.code k

def insnCop (k : UInt32) : BpfInsn := bpfStmt Op.cop.code k

def insnAnd (k : UInt32) : BpfInsn := bpfStmt (Op.alu .and .k).code k

def insnRet (k : UInt32) : BpfInsn := bpfStmt Op.retK.code k

def insnJmp (op : JmpOp) (k : UInt32) (jt jf : UInt8) : BpfInsn :=
  bpfJump (Op.jmp op .k).code k jt jf

/-! ### Jumps -/

/-- The body of the loop in `fixup_jumps`. -/
def fixupInsn (swap : Bool) (failOff : Nat) (insn : BpfInsn) : BpfInsn :=
  if bpfClass insn.code ≠ bpfJmp then insn
  else
    let insn := if swap then { insn with jt := insn.jf, jf := insn.jt } else insn
    let insn := if insn.jt = jumpMagic then { insn with jt := UInt8.ofNat failOff } else insn
    if insn.jf = jumpMagic then { insn with jf := UInt8.ofNat failOff } else insn

/-- `fixup_jumps` over the instructions from `start` to `end`; the offset to the
failure path is the number of instructions left. -/
def fixupInsns (swap : Bool) : List BpfInsn → Option (List BpfInsn)
  | [] => some []
  | insn :: rest => do
      if jumpMagic.toNat ≤ rest.length + 1 then none
      else
        let fixed ← fixupInsns swap rest
        some (fixupInsn swap (rest.length + 1) insn :: fixed)

def fixupJumps (ctx : NpfBpf) (start stop : Nat) (swap : Bool) : Option NpfBpf := do
  let fixed ← fixupInsns swap ((ctx.prog.take stop).drop start)
  some { ctx with prog := ctx.prog.take start ++ fixed ++ ctx.prog.drop stop }

def addInsns (ctx : NpfBpf) (insns : List BpfInsn) : NpfBpf :=
  { ctx with prog := ctx.prog ++ insns }

def doneBlock (ctx : NpfBpf) : NpfBpf := { ctx with nblocks := ctx.nblocks + 1 }

def npfctlBpfCreate : NpfBpf := ⟨[], 0, none, false, false, false, false, 0, 0⟩

/-- `npfctl_bpf_complete`: the program, or `some none` where it was optimised out. -/
def npfctlBpfComplete (ctx : NpfBpf) : Option (Option (List BpfInsn)) := do
  let retoff := ctx.prog.length
  if retoff = 0 then some none
  else
    let ctx := addInsns ctx [insnRet npfBpfSuccess, insnRet npfBpfFailure]
    let ctx ← fixupJumps ctx 0 retoff false
    some (some ctx.prog)

/-! ### Groups -/

def npfctlBpfGroup (ctx : NpfBpf) : Option NpfBpf :=
  if ctx.goff ≠ 0 ∨ ctx.gblock ≠ 0 then none
  else some { ctx with goff := ctx.prog.length, gblock := ctx.nblocks, ingroup := true }

def npfctlBpfEndgroup (ctx : NpfBpf) : Option NpfBpf := do
  let curoff := ctx.prog.length
  if ctx.nblocks - ctx.gblock ≤ 1 then some { ctx with goff := 0, gblock := 0 }
  else
    let ctx := addInsns ctx [insnRet npfBpfFailure]
    let ctx ← fixupJumps ctx ctx.goff curoff true
    some { ctx with goff := 0, gblock := 0 }

/-! ### Blocks -/

/-- The IP version of an address family. -/
def Af.version : Af → UInt32
  | .inet => 4
  | .inet6 => 6

/-- The check of the IP version that `fetch_l3` emits. -/
def insnsAf (af : Option Af) : List BpfInsn :=
  match af with
  | some family => [insnLdMem bpfMwIpver, insnJmp .jeq family.version 0 jumpMagic]
  | none => [insnLdMem bpfMwIpver, insnJmp .jeq 0 jumpMagic 0]

def fetchVersion (ctx : NpfBpf) (af : Option Af) : Option NpfBpf := do
  if !ctx.fetchedL3 ∨ (af.isSome ∧ ctx.af = none) then
    let emitted := fun ctx : NpfBpf => { addInsns ctx (insnsAf af) with fetchedL3 := true, af := af }
    if ctx.ingroup then
      -- The block is put before the group.
      if ctx.nblocks ≠ ctx.gblock then none
      else
        let ctx ← npfctlBpfEndgroup ctx
        npfctlBpfGroup (emitted ctx)
    else some (emitted ctx)
  else if af.isSome ∧ af ≠ ctx.af then none
  else some ctx

/-- `fetch_l3`; the flag asks for `X_EQ_L4OFF`. -/
def fetchL3 (ctx : NpfBpf) (af : Option Af) (wantX : Bool) : Option NpfBpf := do
  let ctx ← fetchVersion ctx af
  if wantX ∧ !ctx.xEqL4off then
    some { addInsns ctx [insnLdxMem bpfMwL4off] with xEqL4off := true }
  else some ctx

def npfctlBpfProto (ctx : NpfBpf) (af : Option Af) (proto : UInt32) : Option NpfBpf := do
  if af = none ∧ proto = notGiven then none
  else
    let ctx ← fetchL3 ctx af false
    if proto = notGiven then some ctx
    else
      let ctx := addInsns ctx [insnLdMem bpfMwL4proto, insnJmp .jeq proto 0 jumpMagic]
      some { doneBlock ctx with checkedL4 := true }

/-- The words of an address that a family compares. -/
def NpfAddr.words (addr : NpfAddr) : Af → List UInt32
  | .inet => [addr.w0]
  | .inet6 => [addr.w0, addr.w1, addr.w2, addr.w3]

def Af.maxmask : Af → Nat
  | .inet => 32
  | .inet6 => 128

/-- The offset of an address in the IP header. -/
def addrOff : Af → Side → UInt32
  | .inet, .src => 12
  | .inet, .dst => 16
  | .inet6, .src => 8
  | .inet6, .dst => 24

def cidrInsns (off : UInt32) : Nat → List UInt32 → List BpfInsn
  | _, [] => []
  | length, word :: rest =>
    if 32 ≤ length then
      -- The mask is a full word - do not apply it.
      [insnLdAbs off, insnJmp .jeq word 0 jumpMagic] ++ cidrInsns (off + 4) (length - 32) rest
    else if length ≠ 0 then
      [insnLdAbs off, insnAnd (0xffffffff <<< UInt32.ofNat (32 - length)),
        insnJmp .jeq word 0 jumpMagic] ++ cidrInsns (off + 4) 0 rest
    else []

def prefixLength (af : Af) (mask : UInt8) : Nat :=
  if mask = npfNoNetmask then af.maxmask else mask.toNat

def npfctlBpfCidr (ctx : NpfBpf) (side : Side) (af : Af) (addr : NpfAddr) (mask : UInt8) :
    Option NpfBpf := do
  if ¬ ((mask ≠ 0 ∧ mask ≤ npfMaxNetmask) ∨ mask = npfNoNetmask) then none
  else
    let ctx ← fetchL3 ctx (some af) false
    let ctx := addInsns ctx (cidrInsns (addrOff af side) (prefixLength af mask) (addr.words af))
    some (doneBlock ctx)

/-- The offset of a port in the TCP or UDP header. -/
def portOff : Side → UInt32
  | .src => 0
  | .dst => 2

def portInsns (lo hi : UInt16) : List BpfInsn :=
  if lo = hi then [insnJmp .jeq lo.toUInt32 0 jumpMagic]
  else [insnJmp .jge lo.toUInt32 0 jumpMagic, insnJmp .jgt hi.toUInt32 jumpMagic 0]

def npfctlBpfPorts (ctx : NpfBpf) (side : Side) (lo hi : UInt16) : Option NpfBpf := do
  if !ctx.checkedL4 then none
  else
    let ctx ← fetchL3 ctx none true
    let ctx := addInsns ctx [insnLdInd .h (portOff side)]
    some (doneBlock (addInsns ctx (portInsns lo hi)))

/-- `offsetof(struct tcphdr, th_flags)`. -/
def tcpflOff : UInt32 := 13

def npfctlBpfTcpfl (ctx : NpfBpf) (tf mask : UInt8) (checktcp : Bool) : Option NpfBpf := do
  let usingmask := mask ≠ tf
  let ctx ← fetchL3 ctx none true
  if checktcp ∧ ctx.ingroup then none
  else if !checktcp ∧ !ctx.checkedL4 then none
  else
    let jf := if usingmask then 3 else 2
    let ctx := if checktcp then
        addInsns ctx [insnLdMem bpfMwL4proto, insnJmp .jeq ipprotoTcp 0 jf]
      else ctx
    let ctx := addInsns ctx [insnLdInd .b tcpflOff]
    let ctx := if usingmask then addInsns ctx [insnAnd mask.toUInt32] else ctx
    let ctx := addInsns ctx [insnJmp .jeq tf.toUInt32 0 jumpMagic]
    some (if checktcp then ctx else doneBlock ctx)

def npfctlBpfIcmp (ctx : NpfBpf) (type code : UInt32) : Option NpfBpf := do
  if !ctx.checkedL4 then none
  else if type = notGiven ∧ code = notGiven then none
  else
    let ctx ← fetchL3 ctx none true
    let ctx := if type ≠ notGiven then
        doneBlock (addInsns ctx [insnLdInd .b 0, insnJmp .jeq type 0 jumpMagic])
      else ctx
    some (if code ≠ notGiven then
        doneBlock (addInsns ctx [insnLdInd .b 1, insnJmp .jeq code 0 jumpMagic])
      else ctx)

def npfctlBpfTable (ctx : NpfBpf) (side : Side) (tid : UInt32) : NpfBpf :=
  let flag := if side = .src then srcFlagBit else 0
  doneBlock (addInsns ctx
    [insnLdImm (flag ||| tid), insnCop npfCopTable, insnJmp .jeq 0 jumpMagic 0])

end NetBSD.Npfctl
