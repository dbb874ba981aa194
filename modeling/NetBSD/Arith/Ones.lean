import Mathlib.Data.Nat.ModEq
import Mathlib.Tactic.Common
import Mathlib.Tactic.Ring

/-!
Owns ones'-complement sums. A number is known to such a sum only through its
residue modulo `r` and through whether it is zero; `SameSum` is that relation,
and it is kept by addition, by scaling and by folding the high part of a number
onto the low part. `endAround` is the representative between 0 and `r`, which
adding with end-around carry computes.
-/

namespace NetBSD.Arith

open List

/-- Two numbers that a ones'-complement sum modulo `r` cannot tell apart. -/
def SameSum (r a b : Nat) : Prop := a ≡ b [MOD r] ∧ (a = 0 ↔ b = 0)

section SameSum

variable {r a b c d : Nat}

theorem SameSum.refl (r a : Nat) : SameSum r a a := ⟨Nat.ModEq.refl a, Iff.rfl⟩

theorem SameSum.symm (same : SameSum r a b) : SameSum r b a := ⟨same.1.symm, same.2.symm⟩

theorem SameSum.trans (left : SameSum r a b) (right : SameSum r b c) : SameSum r a c :=
  ⟨left.1.trans right.1, left.2.trans right.2⟩

theorem SameSum.of_eq (equal : a = b) : SameSum r a b := equal ▸ SameSum.refl r a

theorem SameSum.add (left : SameSum r a b) (right : SameSum r c d) : SameSum r (a + c) (b + d) := by
  refine ⟨left.1.add right.1, ?_⟩
  rw [Nat.add_eq_zero_iff, Nat.add_eq_zero_iff, left.2, right.2]

theorem SameSum.mul (k : Nat) (same : SameSum r a b) : SameSum r (k * a) (k * b) := by
  refine ⟨same.1.mul_left k, ?_⟩
  rw [mul_eq_zero, mul_eq_zero, same.2]

theorem SameSum.scale {k : Nat} (unit : k ≡ 1 [MOD r]) (pos : 0 < k) (a : Nat) :
    SameSum r (k * a) a := by
  constructor
  · have scaled := unit.mul_right a
    rwa [one_mul] at scaled
  · rw [mul_eq_zero]
    omega

theorem SameSum.fold {base : Nat} (unit : base ≡ 1 [MOD r]) (pos : 0 < base) (v : Nat) :
    SameSum r (v / base + v % base) v := by
  have parts := (SameSum.scale unit pos (v / base)).symm.add (SameSum.refl r (v % base))
  rwa [Nat.div_add_mod] at parts

end SameSum

def endAround (r total : Nat) : Nat := if total = 0 then 0 else (total - 1) % r + 1

/-- Addition with end-around carry. -/
def eacAdd (r a b : Nat) : Nat := if r < a + b then a + b - r else a + b

section EndAround

variable {r : Nat}

theorem endAround_sameSum (r total : Nat) : SameSum r (endAround r total) total := by
  by_cases zero : total = 0
  · rw [zero]
    exact SameSum.refl r 0
  constructor
  · have shd : (total - 1) % r + 1 ≡ total - 1 + 1 [MOD r] :=
      (Nat.mod_modEq (total - 1) r).add_right 1
    rw [Nat.sub_add_cancel (by omega)] at shd
    rwa [endAround, if_neg zero]
  · rw [endAround, if_neg zero]
    omega

theorem endAround_le (pos : 0 < r) (total : Nat) : endAround r total ≤ r := by
  have below := Nat.mod_lt (total - 1) pos
  unfold endAround
  split <;> omega

theorem SameSum.eq_of_le {a b : Nat} (same : SameSum r a b) (left : a ≤ r) (right : b ≤ r) :
    a = b := by
  obtain ⟨cong, zero⟩ := same
  rcases lt_or_ge a r with leftLt | leftGe
  · rcases lt_or_ge b r with rightLt | rightGe
    · exact Nat.ModEq.eq_of_lt_of_lt cong leftLt rightLt
    · have isR : b = r := by omega
      rw [isR, Nat.ModEq, Nat.mod_self, Nat.mod_eq_of_lt leftLt] at cong
      omega
  · have isR : a = r := by omega
    rcases lt_or_ge b r with rightLt | rightGe
    · rw [isR, Nat.ModEq, Nat.mod_self, Nat.mod_eq_of_lt rightLt] at cong
      omega
    · omega

theorem SameSum.eq_endAround {v total : Nat} (pos : 0 < r) (same : SameSum r v total)
    (bound : v ≤ r) : v = endAround r total :=
  (same.trans (endAround_sameSum r total).symm).eq_of_le bound (endAround_le pos total)

theorem eacAdd_sameSum {a b : Nat} (left : a ≤ r) (right : b ≤ r) :
    SameSum r (eacAdd r a b) (a + b) ∧ eacAdd r a b ≤ r := by
  unfold eacAdd
  split
  · refine ⟨⟨?_, by omega⟩, by omega⟩
    have shd : a + b - r + r ≡ a + b - r [MOD r] := by simp [Nat.ModEq]
    rw [Nat.sub_add_cancel (by omega)] at shd
    exact shd.symm
  · exact ⟨SameSum.refl r _, by omega⟩

theorem foldl_eacAdd {words : List Nat} (pos : 0 < r) (bnd : ∀ w ∈ words, w ≤ r)
    {beg : Nat} (sml : beg ≤ r) :
    words.foldl (eacAdd r) beg = endAround r (beg + words.sum) := by
  induction words generalizing beg with
  | nil =>
    exact (SameSum.refl r beg).eq_endAround pos sml
  | cons w tl ih =>
    have added := eacAdd_sameSum sml (bnd w mem_cons_self)
    rw [foldl_cons, ih (forall_mem_cons.mp bnd).2 added.2]
    apply SameSum.eq_endAround pos _ (endAround_le pos _)
    have summed := added.1.add (SameSum.refl r tl.sum)
    rw [sum_cons, ← add_assoc]
    exact (endAround_sameSum r _).trans summed

end EndAround

end NetBSD.Arith
