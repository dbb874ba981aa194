import Mathlib.Algebra.BigOperators.Group.List.Basic
import Mathlib.Algebra.Order.Ring.Nat

/-!
Owns the BPF instruction encodings of `sys/net/bpf.h`: the field masks, the
instruction record, and the exact opcodes that the interpreter's
`switch (pc->code)` distinguishes. `Op.decode` is that switch: a code with any
other bit set falls into the `default` branch.
-/

namespace NetBSD.Net.Bpf

/-! ### Field masks -/

def bpfClass (code : UInt16) : UInt16 := code &&& 0x07
def bpfLd : UInt16 := 0x00
def bpfLdx : UInt16 := 0x01
def bpfSt : UInt16 := 0x02
def bpfStx : UInt16 := 0x03
def bpfAlu : UInt16 := 0x04
def bpfJmp : UInt16 := 0x05
def bpfRet : UInt16 := 0x06
def bpfMisc : UInt16 := 0x07

def bpfSize (code : UInt16) : UInt16 := code &&& 0x18
def bpfW : UInt16 := 0x00
def bpfH : UInt16 := 0x08
def bpfB : UInt16 := 0x10

def bpfMode (code : UInt16) : UInt16 := code &&& 0xe0
def bpfImm : UInt16 := 0x00
def bpfAbs : UInt16 := 0x20
def bpfInd : UInt16 := 0x40
def bpfMem : UInt16 := 0x60
def bpfLen : UInt16 := 0x80
def bpfMsh : UInt16 := 0xa0

def bpfOp (code : UInt16) : UInt16 := code &&& 0xf0
def bpfAdd : UInt16 := 0x00
def bpfSub : UInt16 := 0x10
def bpfMul : UInt16 := 0x20
def bpfDiv : UInt16 := 0x30
def bpfOr : UInt16 := 0x40
def bpfAnd : UInt16 := 0x50
def bpfLsh : UInt16 := 0x60
def bpfRsh : UInt16 := 0x70
def bpfNeg : UInt16 := 0x80
def bpfMod : UInt16 := 0x90
def bpfXor : UInt16 := 0xa0
def bpfJa : UInt16 := 0x00
def bpfJeq : UInt16 := 0x10
def bpfJgt : UInt16 := 0x20
def bpfJge : UInt16 := 0x30
def bpfJset : UInt16 := 0x40

def bpfSrc (code : UInt16) : UInt16 := code &&& 0x08
def bpfK : UInt16 := 0x00
def bpfX : UInt16 := 0x08

def bpfRval (code : UInt16) : UInt16 := code &&& 0x18
def bpfA : UInt16 := 0x10

def bpfMiscop (code : UInt16) : UInt16 := code &&& 0xf8
def bpfTax : UInt16 := 0x00
def bpfCop : UInt16 := 0x20
def bpfCopx : UInt16 := 0x40
def bpfTxa : UInt16 := 0x80

def bpfMaxinsns : Nat := 512
def bpfMemwords : Nat := 16
def bpfMaxMemwords : Nat := 30

structure BpfInsn where
  code : UInt16
  jt : UInt8
  jf : UInt8
  k : UInt32
deriving DecidableEq, Repr, Inhabited

def bpfStmt (code : UInt16) (k : UInt32) : BpfInsn := ⟨code, 0, 0, k⟩

def bpfJump (code : UInt16) (k : UInt32) (jt jf : UInt8) : BpfInsn := ⟨code, jt, jf, k⟩

/-! ### The opcodes of the interpreter -/

inductive Size where
  | w | h | b
deriving DecidableEq, Repr

inductive Src where
  | k | x
deriving DecidableEq, Repr

inductive AluOp where
  | add | sub | mul | div | or | and | lsh | rsh | mod | xor
deriving DecidableEq, Repr

inductive JmpOp where
  | jeq | jgt | jge | jset
deriving DecidableEq, Repr

/-- One constructor for each `case` label of `bpf_filter_ext`. -/
inductive Op where
  | retK | retA
  | ldAbs (size : Size) | ldInd (size : Size)
  | ldLen | ldxLen | ldxMsh | ldImm | ldxImm | ldMem | ldxMem
  | st | stx
  | ja | jmp (op : JmpOp) (src : Src)
  | alu (op : AluOp) (src : Src) | neg
  | tax | txa | cop | copx
deriving DecidableEq, Repr

def Size.code : Size → UInt16
  | .w => bpfW
  | .h => bpfH
  | .b => bpfB

def Src.code : Src → UInt16
  | .k => bpfK
  | .x => bpfX

def AluOp.code : AluOp → UInt16
  | .add => bpfAdd
  | .sub => bpfSub
  | .mul => bpfMul
  | .div => bpfDiv
  | .or => bpfOr
  | .and => bpfAnd
  | .lsh => bpfLsh
  | .rsh => bpfRsh
  | .mod => bpfMod
  | .xor => bpfXor

def JmpOp.code : JmpOp → UInt16
  | .jeq => bpfJeq
  | .jgt => bpfJgt
  | .jge => bpfJge
  | .jset => bpfJset

/-- The 16-bit code of a `case` label. -/
def Op.code : Op → UInt16
  | .retK => bpfRet ||| bpfK
  | .retA => bpfRet ||| bpfA
  | .ldAbs size => bpfLd ||| size.code ||| bpfAbs
  | .ldInd size => bpfLd ||| size.code ||| bpfInd
  | .ldLen => bpfLd ||| bpfW ||| bpfLen
  | .ldxLen => bpfLdx ||| bpfW ||| bpfLen
  | .ldxMsh => bpfLdx ||| bpfMsh ||| bpfB
  | .ldImm => bpfLd ||| bpfImm
  | .ldxImm => bpfLdx ||| bpfImm
  | .ldMem => bpfLd ||| bpfMem
  | .ldxMem => bpfLdx ||| bpfMem
  | .st => bpfSt
  | .stx => bpfStx
  | .ja => bpfJmp ||| bpfJa
  | .jmp op src => bpfJmp ||| op.code ||| src.code
  | .alu op src => bpfAlu ||| op.code ||| src.code
  | .neg => bpfAlu ||| bpfNeg
  | .tax => bpfMisc ||| bpfTax
  | .txa => bpfMisc ||| bpfTxa
  | .cop => bpfMisc ||| bpfCop
  | .copx => bpfMisc ||| bpfCopx

def Size.all : List Size := [.w, .h, .b]
def Src.all : List Src := [.k, .x]
def AluOp.all : List AluOp := [.add, .sub, .mul, .div, .or, .and, .lsh, .rsh, .mod, .xor]
def JmpOp.all : List JmpOp := [.jeq, .jgt, .jge, .jset]

def Op.all : List Op :=
  [Op.retK, Op.retA, Op.ldLen, Op.ldxLen, Op.ldxMsh, Op.ldImm, Op.ldxImm, Op.ldMem, Op.ldxMem, Op.st,
    Op.stx, Op.ja, Op.neg, Op.tax, Op.txa, Op.cop, Op.copx] ++
  Size.all.map Op.ldAbs ++ Size.all.map Op.ldInd ++
  JmpOp.all.flatMap (fun op => Src.all.map (Op.jmp op)) ++
  AluOp.all.flatMap (fun op => Src.all.map (Op.alu op))

/-- `switch (pc->code)`; `none` is the `default` branch. -/
def Op.decode (code : UInt16) : Option Op :=
  Op.all.find? (fun op => op.code = code)

theorem Op.code_of_decode {code : UInt16} {op : Op} (dec : Op.decode code = some op) :
    op.code = code := by
  simpa using List.find?_some dec

theorem Op.decode_code (op : Op) : Op.decode op.code = some op := by
  cases op with
  | ldAbs size | ldInd size => cases size <;> decide
  | jmp op src => cases op <;> cases src <;> decide
  | alu op src => cases op <;> cases src <;> decide
  | _ => decide

end NetBSD.Net.Bpf
