import Mathlib.Algebra.Order.Ring.Nat
import Mathlib.Logic.Function.Basic
import NetBSD.Machine.Ring

/-!
Owns the character lists of `kern/tty_subr.c`: a ring of characters, with or without a bitmap of
quote bits. A pointer into the ring is the number of its cell, and a routine that reads through a
null pointer has no result.
-/

namespace NetBSD.Kern

open NetBSD.Machine Function

section Quote

/-- The bytes of `c_cq`. -/
abbrev QuoteMap := Nat → BitVec 8

def isset (a : QuoteMap) (i : Nat) : Bool := (a (i / 8)).getLsbD (i % 8)

def setbit (a : QuoteMap) (i : Nat) : QuoteMap :=
  update a (i / 8) (a (i / 8) ||| BitVec.ofNat 8 (2 ^ (i % 8)))

def clrbit (a : QuoteMap) (i : Nat) : QuoteMap :=
  update a (i / 8) (a (i / 8) &&& ~~~BitVec.ofNat 8 (2 ^ (i % 8)))

/-- The loop at the end of `clrbits`, over so many bytes. -/
def clearBytes (cp : QuoteMap) (scp : Nat) : Nat → QuoteMap
  | 0 => cp
  | count + 1 => clearBytes (update cp scp 0) (scp + 1) count

def clrbits (cp : QuoteMap) (off len : Nat) : QuoteMap :=
  let scp := off / 8
  let sbi := off % 8
  let last := off + len + 8 - 1
  let ecp := last / 8 - 1
  let ebi := last % 8 + 1
  if scp ≥ ecp then
    update cp scp (cp scp &&& ~~~BitVec.ofNat 8 ((2 ^ len - 1) * 2 ^ sbi))
  else
    let cp := update cp scp (cp scp &&& BitVec.ofNat 8 (2 ^ sbi - 1))
    let cp := update cp ecp (cp ecp &&& ~~~BitVec.ofNat 8 (2 ^ ebi - 1))
    clearBytes cp (scp + 1) (ecp - (scp + 1))

end Quote

section Model

/-- `struct clist`, without the pointers to the ends of the ring. -/
structure Clist where
  c_cs : Nat → UInt8
  c_cq : Option QuoteMap
  c_cf : Option Nat
  c_cl : Option Nat
  c_cn : Nat
  c_cc : Nat

def ttyQuote : UInt32 := 0x100

def minusOne : UInt32 := 0xffffffff

/-- `clalloc` when memory is available. -/
def clalloc (size : Nat) (quot : Bool) : Clist :=
  ⟨fun _ => 0, if quot then some fun _ => 0 else none, none, none, size, 0⟩

/-- A cell as an `int`, with its quote bit when there is a bitmap. -/
def Clist.charAt (clp : Clist) (p : Nat) : UInt32 :=
  let c := (clp.c_cs p).toUInt32
  match clp.c_cq with
  | some c_cq => if isset c_cq p then c ||| ttyQuote else c
  | none => c

/-- A pointer past the last cell goes to the first one. -/
def Clist.wrap (clp : Clist) (p : Nat) : Nat := if p = clp.c_cn then 0 else p

/-- `c_cf` and `c_cl` are cleared when nothing is left. -/
def Clist.clearEmpty (clp : Clist) : Clist :=
  if clp.c_cc = 0 then { clp with c_cf := none, c_cl := none } else clp

def getc (clp : Clist) : Option (Clist × UInt32) :=
  if clp.c_cc = 0 then some (clp, minusOne)
  else do
    let p ← clp.c_cf
    let c := clp.charAt p
    let clp := { clp with c_cs := update clp.c_cs p 0 }
    let clp := { clp with c_cf := some (clp.wrap (p + 1)), c_cc := clp.c_cc - 1 }
    some (clp.clearEmpty, c)

/-- The cells that lie side by side from the first one on, up to a count. -/
def Clist.contiguous (clp : Clist) (f l count : Nat) : Nat :=
  min (if f ≥ l then clp.c_cn - f else l - f) count

/-- The loop of `q_to_b` in so many rounds. -/
def qToBLoop : Nat → Clist → Nat → List UInt8 → Option (Clist × List UInt8)
  | 0, _, _, _ => none
  | rounds + 1, clp, count, p =>
    if count > 0 ∧ clp.c_cc > 0 then do
      let f ← clp.c_cf
      let l ← clp.c_cl
      let cc := clp.contiguous f l count
      qToBLoop rounds { clp with c_cc := clp.c_cc - cc, c_cf := some (clp.wrap (f + cc)) }
        (count - cc) (p ++ span clp.c_cs f cc)
    else some (clp.clearEmpty, p)

/-- `q_to_b`: the bytes that are moved. A negative count is like 0. -/
def qToB (clp : Clist) (count : Int) : Option (Clist × List UInt8) :=
  qToBLoop (clp.c_cc + 1) clp count.toNat []

def ndflushLoop : Nat → Clist → Nat → Option Clist
  | 0, _, _ => none
  | rounds + 1, clp, count =>
    if count > 0 ∧ clp.c_cc > 0 then do
      let f ← clp.c_cf
      let l ← clp.c_cl
      let cc := clp.contiguous f l count
      ndflushLoop rounds { clp with c_cc := clp.c_cc - cc, c_cf := some (clp.wrap (f + cc)) }
        (count - cc)
    else some clp.clearEmpty

def ndflush (clp : Clist) (count : Int) : Option Clist :=
  if count = clp.c_cc then some { clp with c_cc := 0, c_cf := none, c_cl := none }
  else ndflushLoop (clp.c_cc + 1) clp count.toNat

def Clist.startEmpty (clp : Clist) : Clist :=
  if clp.c_cc = 0 then { clp with c_cf := some 0, c_cl := some 0 } else clp

def putc (c : UInt32) (clp : Clist) : Option (Clist × UInt32) :=
  if clp.c_cc = clp.c_cn then some (clp, minusOne)
  else do
    let clp := clp.startEmpty
    let i ← clp.c_cl
    let clp := { clp with c_cs := update clp.c_cs i c.toUInt8 }
    let clp := { clp with c_cq := clp.c_cq.map fun c_cq =>
      if c &&& ttyQuote ≠ 0 then setbit c_cq i else clrbit c_cq i }
    some ({ clp with c_cc := clp.c_cc + 1, c_cl := some (clp.wrap (i + 1)) }, 0)

def bToQLoop : Nat → List UInt8 → Clist → Option (Clist × Nat)
  | 0, _, _ => none
  | rounds + 1, p, clp =>
    if p.length > 0 ∧ clp.c_cc < clp.c_cn then do
      let f ← clp.c_cf
      let l ← clp.c_cl
      let cc := min (if f > l then f - l else clp.c_cn - l) p.length
      let clp := { clp with
        c_cs := fill clp.c_cs l (p.take cc)
        c_cq := clp.c_cq.map fun c_cq => clrbits c_cq l cc }
      bToQLoop rounds (p.drop cc)
        { clp with c_cc := clp.c_cc + cc, c_cl := some (clp.wrap (l + cc)) }
    else some (clp, p.length)

/-- `b_to_q` of the bytes in front of the count: how many are not stored. -/
def bToQ (cp : List UInt8) (clp : Clist) : Option (Clist × Nat) :=
  if cp.length = 0 then some (clp, 0)
  else if clp.c_cc = clp.c_cn then some (clp, cp.length)
  else bToQLoop (cp.length + 1) cp clp.startEmpty

def unputc (clp : Clist) : Option (Clist × UInt32) :=
  if clp.c_cc = 0 then some (clp, minusOne)
  else do
    let l ← clp.c_cl
    let l := if l = 0 then clp.c_cn - 1 else l - 1
    let clp := { clp with c_cl := some l, c_cc := clp.c_cc - 1 }
    some (clp.clearEmpty, clp.charAt l)

/-- `firstc`: the pointer, the character and the static count, or null. -/
def firstc (clp : Clist) : Option (Option Nat × UInt32 × Nat) :=
  if clp.c_cc = 0 then none else clp.c_cf.map fun cp => (clp.c_cf, clp.charAt cp, clp.c_cc)

def nextc (clp : Clist) (cc : Nat) (cp : Option Nat) : Option (Option Nat × UInt32 × Nat) :=
  let cc := if clp.c_cf = cp then clp.c_cc else cc
  match cp with
  | none => none
  | some cp =>
    if cc = 0 ∨ cc - 1 = 0 then none
    else
      let cp := clp.wrap (cp + 1)
      some (some cp, clp.charAt cp, cc - 1)

/-- The characters from `nextc` on until it returns null, in so many calls. -/
def nextcs (clp : Clist) : Nat → Nat → Option Nat → Option (List UInt32)
  | 0, _, _ => none
  | calls + 1, cc, cp =>
    match nextc clp cc cp with
    | none => some []
    | some (cp, c, cc) => (nextcs clp calls cc cp).map fun rest => c :: rest

/-- The characters that `firstc` and `nextc` give. -/
def enumerate (clp : Clist) : Option (List UInt32) :=
  match firstc clp with
  | none => some []
  | some (cp, c, cc) => (nextcs clp (clp.c_cn + 1) cc cp).map fun rest => c :: rest

end Model

end NetBSD.Kern
