import Mathlib.Algebra.BigOperators.Group.List.Basic
import Mathlib.Algebra.Order.Ring.Nat
import Mathlib.Data.List.Nodup
import Mathlib.Logic.Function.Basic

/-!
Owns counts over a table of buckets: the sum of a measure over all entries of the
buckets in an index list, and how it changes when one bucket is rewritten.
-/

namespace NetBSD.Machine

open Function List

universe u

variable {ν : Type u}

def tally (measure : ν → Nat) (entries : List ν) : Nat := (entries.map measure).sum

section Tally

variable {measure : ν → Nat} {buckets : Nat → List ν} {index : Nat} {bucket : List ν}

@[simp] theorem tally_nil : tally measure [] = 0 := rfl

@[simp] theorem tally_cons (e : ν) (tl : List ν) :
    tally measure (e :: tl) = measure e + tally measure tl := rfl

@[simp] theorem tally_append (left right : List ν) :
    tally measure (left ++ right) = tally measure left + tally measure right := by
  simp [tally]

theorem tally_one (entries : List ν) : tally (fun _ => 1) entries = entries.length := by
  induction entries with
  | nil => rfl
  | cons head tail ih =>
    rw [tally_cons, length_cons]
    omega

theorem tally_flatMap_of_notMem {indices : List Nat} (out : index ∉ indices) :
    indices.flatMap (update buckets index bucket) = indices.flatMap buckets := by
  induction indices with
  | nil => rfl
  | cons head tail ih =>
    simp only [mem_cons, not_or] at out
    rw [flatMap_cons, flatMap_cons, ih out.2, update_of_ne (Ne.symm out.1)]

/-- One bucket rewritten: the old entries are taken off the sum and the new ones added. -/
theorem tally_update {indices : List Nat} (dist : indices.Nodup) (isIn : index ∈ indices) :
    tally measure (indices.flatMap (update buckets index bucket)) +
        tally measure (buckets index) =
      tally measure (indices.flatMap buckets) + tally measure bucket := by
  induction indices with
  | nil => simp at isIn
  | cons head tail ih =>
    rw [nodup_cons] at dist
    by_cases same : head = index
    · subst same
      rw [flatMap_cons, flatMap_cons, tally_flatMap_of_notMem dist.1,
        update_self, tally_append, tally_append]
      omega
    · have isInTail : index ∈ tail := (mem_cons.mp isIn).resolve_left (Ne.symm same)
      have tl := ih dist.2 isInTail
      rw [flatMap_cons, flatMap_cons, update_of_ne same, tally_append,
        tally_append]
      omega

theorem mem_flatMap_update {indices : List Nat} {e : ν}
    (isIn : e ∈ indices.flatMap (update buckets index bucket)) :
    e ∈ bucket ∨ e ∈ indices.flatMap buckets := by
  obtain ⟨i, idx, inBucket⟩ := mem_flatMap.mp isIn
  by_cases same : i = index
  · subst same
    rw [update_self] at inBucket
    exact Or.inl inBucket
  · rw [update_of_ne same] at inBucket
    exact Or.inr (mem_flatMap.mpr ⟨i, idx, inBucket⟩)

variable {entries : List ν}

theorem tally_pos_iff [DecidableEq ν] {e : ν} :
    0 < tally (fun oth => if oth = e then 1 else 0) entries ↔ e ∈ entries := by
  induction entries with
  | nil => simp
  | cons head tail ih =>
    rw [tally_cons, mem_cons, ← ih]
    split
    · rename_i same
      simp [same]
    · rename_i ne
      simp [Ne.symm ne]

theorem tally_congr {oth : ν → Nat} (same : ∀ e ∈ entries, measure e = oth e) :
    tally measure entries = tally oth entries := by
  unfold tally
  rw [map_congr_left same]

theorem tally_mono {oth : ν → Nat} (le : ∀ e ∈ entries, measure e ≤ oth e) :
    tally measure entries ≤ tally oth entries := by
  induction entries with
  | nil => exact le_refl 0
  | cons head tail ih =>
    exact Nat.add_le_add (le head mem_cons_self)
      (ih (forall_mem_cons.mp le).2)

theorem tally_set {plc : Nat} {e : ν} (isAt : entries[plc]? = some e) (fresh : ν) :
    tally measure (entries.set plc fresh) + measure e =
      tally measure entries + measure fresh := by
  induction entries generalizing plc with
  | nil => cases isAt
  | cons head tail ih =>
    cases plc with
    | zero =>
      obtain rfl := Option.some.inj isAt
      rw [set_cons_zero, tally_cons, tally_cons]
      omega
    | succ plc =>
      have tl := ih isAt
      rw [set_cons_succ, tally_cons, tally_cons]
      omega

theorem tally_filter_add (test : ν → Bool) (entries : List ν) :
    tally measure (entries.filter test) + tally measure (entries.filter fun e => !test e) =
      tally measure entries := by
  induction entries with
  | nil => rfl
  | cons head tail ih =>
    cases isTest : test head with
    | true =>
      rw [filter_cons_of_pos isTest, filter_cons_of_neg (by simp [isTest]),
        tally_cons, tally_cons]
      omega
    | false =>
      rw [filter_cons_of_neg (by simp [isTest]), filter_cons_of_pos (by simp [isTest]),
        tally_cons, tally_cons]
      omega

end Tally

end NetBSD.Machine
