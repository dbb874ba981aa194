import Mathlib.Algebra.Order.Ring.Nat
import Mathlib.Tactic.Common

/-!
Owns the byte order of a machine: the exchange of the two bytes of a 16-bit
word, and where the bits of a word that was loaded from memory stand on the wire.
-/

namespace NetBSD.Arith

inductive ByteOrder where
  | little
  | big
  deriving DecidableEq, Repr

def htons (order : ByteOrder) (port : UInt16) : UInt16 :=
  match order with
  | .little => port <<< 8 ||| port >>> 8
  | .big => port

/-- The position on the wire, from the first bit sent, of a bit of a loaded 16-bit word. -/
def netPos (order : ByteOrder) (bit : Nat) : Nat :=
  match order with
  | .little => bit / 8 * 8 + (7 - bit % 8)
  | .big => 15 - bit

theorem toNat_swap (port : UInt16) :
    (port <<< 8 ||| port >>> 8).toNat = port.toNat % 256 * 256 + port.toNat / 256 := by
  have bound := port.toNat_lt
  have low : port.toNat / 256 < 2 ^ 8 := by omega
  have high : (port <<< 8).toNat = 2 ^ 8 * (port.toNat % 256) := by
    rw [UInt16.toNat_shiftLeft]
    have shift : (8 : UInt16).toNat % 16 = 8 := rfl
    rw [shift]
    omega
  have right : (port >>> 8).toNat = port.toNat / 256 := by
    rw [UInt16.toNat_shiftRight]
    have shift : (8 : UInt16).toNat % 16 = 8 := rfl
    rw [shift, Nat.shiftRight_eq_div_pow]
  rw [UInt16.toNat_or, high, right, ← Nat.two_pow_add_eq_or_of_lt low]
  omega

@[simp] theorem htons_htons (order : ByteOrder) (port : UInt16) :
    htons order (htons order port) = port := by
  cases order with
  | big => rfl
  | little =>
    apply UInt16.toNat_inj.mp
    have bound := port.toNat_lt
    have once := toNat_swap port
    have twice := toNat_swap (port <<< 8 ||| port >>> 8)
    simp only [htons]
    omega

@[simp] theorem htons_zero (order : ByteOrder) : htons order 0 = 0 := by
  cases order <;> decide

theorem htons_eq_zero_iff {order : ByteOrder}
    {port : UInt16} : htons order port = 0 ↔ port = 0 := by
  constructor
  · intro zero
    rw [← htons_htons order port, zero, htons_zero]
  · intro zero
    rw [zero, htons_zero]

end NetBSD.Arith
