import Mathlib.Data.List.Basic
import Mathlib.Tactic.Common

/-!
Owns lists as bounded priority queues: insertion behind the last entry of at
least the same priority, the oldest entry of the highest priority of a list in
order of arrival, and the lane of each priority.
-/

namespace NetBSD.Machine

open List

universe u

variable {α : Type u} (priority : α → Nat)

def insertByPriority (entry : α) : List α → List α
  | [] => [entry]
  | head :: rest =>
    if priority head < priority entry then entry :: head :: rest
    else head :: insertByPriority entry rest

/-- From the highest priority to the lowest. -/
def Descending (entries : List α) : Prop :=
  entries.Pairwise fun first second => priority second ≤ priority first

def lane (level : Nat) (entries : List α) : List α :=
  entries.filter fun entry => decide (priority entry = level)

/-- `entry` is the oldest entry of the highest priority between the older
entries `front` and the newer entries `back`. -/
structure OldestHighest (entry : α) (front back : List α) : Prop where
  older : ∀ other ∈ front, priority other < priority entry
  newer : ∀ other ∈ back, priority other ≤ priority entry

section Priority

variable {priority}

@[simp] theorem lane_nil (lvl : Nat) : lane priority lvl [] = [] := rfl

@[simp] theorem lane_append (lvl : Nat) (pre back : List α) :
    lane priority lvl (pre ++ back) = lane priority lvl pre ++ lane priority lvl back :=
  filter_append ..

variable {lvl : Nat} {e : α}

theorem lane_cons_of_eq (same : priority e = lvl) (tl : List α) :
    lane priority lvl (e :: tl) = e :: lane priority lvl tl :=
  filter_cons_of_pos (by simp [same])

theorem lane_cons_of_ne (oth : priority e ≠ lvl) (tl : List α) :
    lane priority lvl (e :: tl) = lane priority lvl tl :=
  filter_cons_of_neg (by simp [oth])

variable {entries : List α}

theorem mem_lane :
    e ∈ lane priority lvl entries ↔ e ∈ entries ∧ priority e = lvl := by
  simp [lane]

theorem mem_insertByPriority {oth : α} :
    oth ∈ insertByPriority priority e entries ↔ oth = e ∨ oth ∈ entries := by
  induction entries with
  | nil => simp [insertByPriority]
  | cons head tl ih =>
    rw [insertByPriority]
    split
    · simp
    · rw [mem_cons, ih, mem_cons]
      exact or_left_comm

theorem length_insertByPriority (e : α) (entries : List α) :
    (insertByPriority priority e entries).length = entries.length + 1 := by
  induction entries with
  | nil => rfl
  | cons head tl ih =>
    rw [insertByPriority]
    split
    · rfl
    · simp [ih]

theorem Descending.insert (sort : Descending priority entries) (e : α) :
    Descending priority (insertByPriority priority e entries) := by
  induction entries with
  | nil => exact pairwise_singleton _ _
  | cons head tl ih =>
    have tail : Descending priority tl := (pairwise_cons.mp sort).2
    have below := (pairwise_cons.mp sort).1
    rw [insertByPriority]
    split
    · rename_i less
      refine pairwise_cons.mpr ⟨?_, sort⟩
      intro oth isIn
      rcases mem_cons.mp isIn with rfl | later
      · exact Nat.le_of_lt less
      · exact Nat.le_trans (below oth later) (Nat.le_of_lt less)
    rename_i ge
    refine pairwise_cons.mpr ⟨?_, ih tail⟩
    intro oth isIn
    rcases mem_insertByPriority.mp isIn with rfl | later
    · exact Nat.not_lt.mp ge
    · exact below oth later

theorem lane_insert (sort : Descending priority entries) (e : α) (lvl : Nat) :
    lane priority lvl (insertByPriority priority e entries) =
      lane priority lvl (entries ++ [e]) := by
  induction entries with
  | nil => rfl
  | cons head tl ih =>
    have tail : Descending priority tl := (pairwise_cons.mp sort).2
    have below := (pairwise_cons.mp sort).1
    rw [insertByPriority]
    split
    · rename_i less
      by_cases same : priority e = lvl
      · have noOther : lane priority lvl (head :: tl) = [] := by
          apply filter_eq_nil_iff.mpr
          intro oth isIn
          rw [decide_eq_true_eq]
          rcases mem_cons.mp isIn with rfl | later
          · omega
          · have le := below oth later
            omega
        rw [lane_cons_of_eq same, lane_append, noOther, lane_cons_of_eq same]
        rfl
      · rw [lane_cons_of_ne same, lane_append, lane_cons_of_ne same]
        exact (append_nil _).symm
    · by_cases same : priority head = lvl
      · rw [lane_cons_of_eq same, ih tail, cons_append, lane_cons_of_eq same]
      · rw [lane_cons_of_ne same, ih tail, cons_append, lane_cons_of_ne same]

theorem exists_split_of_lane {tl : List α} (isLane : e :: tl = lane priority lvl entries) :
    ∃ pre back, entries = pre ++ e :: back ∧ (∀ oth ∈ pre, priority oth ≠ lvl) ∧
      priority e = lvl ∧ tl = lane priority lvl back := by
  obtain ⟨pre, back, split, notFront, isLevel, restEq⟩ := filter_eq_cons_iff.mp isLane.symm
  refine ⟨pre, back, split, ?_, by simpa using isLevel, restEq.symm⟩
  intro oth isIn
  simpa using notFront oth isIn

/-- The first entry of the highest lane. -/
theorem OldestHighest.of_le {pre back : List α} (notFront : ∀ oth ∈ pre, priority oth ≠ lvl)
    (own : priority e = lvl) (le : ∀ oth ∈ pre ++ e :: back, priority oth ≤ priority e) :
    OldestHighest priority e pre back where
  older oth isIn := by
    have most := le oth (mem_append_left _ isIn)
    have ne := notFront oth isIn
    omega
  newer oth isIn := le oth (mem_append_right _ (mem_cons_of_mem _ isIn))

theorem lane_remove {level' : Nat} {pre back : List α} (own : priority e = lvl)
    (oth : lvl ≠ level') :
    lane priority level' (pre ++ e :: back) = lane priority level' (pre ++ back) := by
  rw [lane_append, lane_append, lane_cons_of_ne (by rw [own]; exact oth)]

theorem lane_removed {pre back : List α} (no : ∀ oth ∈ pre, priority oth ≠ lvl) :
    lane priority lvl (pre ++ back) = lane priority lvl back := by
  have empty : lane priority lvl pre = [] := by
    apply filter_eq_nil_iff.mpr
    intro oth isIn
    simpa using no oth isIn
  rw [lane_append, empty, nil_append]

end Priority

end NetBSD.Machine
