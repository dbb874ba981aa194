import Mathlib.Data.List.Basic
import Mathlib.Logic.Function.Basic
import Mathlib.Tactic.Common

/-!
Owns hash tables of entries that carry their own key. A table represents a
partial map from entries to keys when every entry with a key stands, once, in
the bucket of that key, and no two entries have one key. Searching, inserting
and erasing then are reading and writing that map.
-/

namespace NetBSD.Machine

open Function

universe u v

variable {ν : Type u} {κ : Type v} {bucketOf : κ → Nat} {buckets : Nat → List ν}
  {owned : ν → Option κ} {keyOf : ν → Option κ} {e other : ν} {key : κ}

/-- The buckets hold exactly the entries that `owned` gives a key to. -/
structure Represents (bucketOf : κ → Nat) (buckets : Nat → List ν) (owned : ν → Option κ) :
    Prop where
  mem_iff : ∀ index entry, entry ∈ buckets index ↔ ∃ key, owned entry = some key ∧
    bucketOf key = index
  nodup : ∀ index, (buckets index).Nodup
  unique : ∀ entry other key, owned entry = some key → owned other = some key → entry = other

section

variable (represents : Represents bucketOf buckets owned)

include represents

theorem Represents.mem (has : owned e = some key) : e ∈ buckets (bucketOf key) :=
  (represents.mem_iff _ _).mpr ⟨key, has, rfl⟩

theorem Represents.find?_eq_some_iff [DecidableEq κ]
    (kept : ∀ e key, owned e = some key → keyOf e = some key) :
    (buckets (bucketOf key)).find? (fun e => keyOf e = some key) = some e ↔
      owned e = some key := by
  have hit : ∀ other ∈ buckets (bucketOf key), keyOf other = some key → owned other = some key := by
    intro other isIn same
    obtain ⟨otherKey, has, _⟩ := (represents.mem_iff _ _).mp isIn
    rw [kept other otherKey has] at same
    rw [has, same]
  constructor
  · intro fnd
    exact hit e (List.mem_of_find?_eq_some fnd) (by simpa using List.find?_some fnd)
  intro has
  have someFound : ((buckets (bucketOf key)).find? (fun e => keyOf e = some key)).isSome := by
    rw [List.find?_isSome]
    exact ⟨e, represents.mem has, by simpa using kept e key has⟩
  obtain ⟨fnd, isFound⟩ := Option.isSome_iff_exists.mp someFound
  have foundHas := hit fnd (List.mem_of_find?_eq_some isFound)
    (by simpa using List.find?_some isFound)
  rw [isFound, represents.unique fnd e key foundHas has]

theorem Represents.find?_eq_none_iff [DecidableEq κ]
    (kept : ∀ e key, owned e = some key → keyOf e = some key) :
    (buckets (bucketOf key)).find? (fun e => keyOf e = some key) = none ↔
      ∀ e, owned e ≠ some key := by
  rw [Option.eq_none_iff_forall_ne_some]
  exact forall_congr' fun e => not_congr (represents.find?_eq_some_iff kept)

end

section Update

variable [DecidableEq ν]

theorem Represents.insert (represents : Represents bucketOf buckets owned)
    (miss : owned e = none) (unowned : ∀ other, owned other ≠ some key) :
    Represents bucketOf (update buckets (bucketOf key) (e :: buckets (bucketOf key)))
      (update owned e (some key)) := by
  have notIn : ∀ index, e ∉ buckets index := by
    intro index isIn
    obtain ⟨key, has, _⟩ := (represents.mem_iff _ _).mp isIn
    simp [miss] at has
  constructor
  · intro index other
    by_cases sameEntry : other = e <;> by_cases sameIndex : index = bucketOf key
    · subst sameEntry sameIndex
      simp
    · subst sameEntry
      simp [sameIndex, notIn, eq_comm]
    · subst sameIndex
      simp [sameEntry, represents.mem_iff]
    · simp [sameEntry, sameIndex, represents.mem_iff]
  · intro index
    by_cases sameIndex : index = bucketOf key
    · subst sameIndex
      simpa using ⟨notIn _, represents.nodup _⟩
    · simpa [sameIndex] using represents.nodup index
  · intro fst snd shared firstHas secondHas
    have := represents.unique fst snd shared
    grind [update]

theorem Represents.erase (represents : Represents bucketOf buckets owned)
    (has : owned e = some key) :
    Represents bucketOf
      (update buckets (bucketOf key) ((buckets (bucketOf key)).erase e))
      (update owned e none) := by
  constructor
  · intro index other
    by_cases sameIndex : index = bucketOf key
    · subst sameIndex
      rw [update_self, (represents.nodup _).mem_erase_iff, represents.mem_iff]
      by_cases sameEntry : other = e
      · subst sameEntry
        simp
      · simp [sameEntry]
    · rw [update_of_ne sameIndex, represents.mem_iff]
      by_cases sameEntry : other = e
      · subst sameEntry
        simp [has, Ne.symm sameIndex]
      · simp [sameEntry]
  · intro index
    by_cases sameIndex : index = bucketOf key
    · subst sameIndex
      simpa using (represents.nodup _).erase e
    · simpa [sameIndex] using represents.nodup index
  · intro fst snd shared firstHas secondHas
    have := represents.unique fst snd shared
    grind [update]

end Update

end NetBSD.Machine
