import Mathlib.Data.List.Basic
import Mathlib.Logic.Function.Basic
import Mathlib.Tactic.Common

/-!
Owns singly linked lists in a memory: `next` is the link field of every cell,
and a chain is the list of cells met from a head on. The rules say what pushing,
splicing and unlinking one cell does to the chains through the same memory.
-/

namespace NetBSD.Machine

open Function

universe u

variable {α : Type u}

/-- Following `next` from `head` meets exactly the given cells and arrives at `stop`. -/
def Chain (next : α → Option α) : Option α → List α → Option α → Prop
  | head, [], stop => head = stop
  | head, cell :: rest, stop => head = some cell ∧ Chain next (next cell) rest stop

variable {next next' : α → Option α} {head stop : Option α} {pre back cells : List α} {cell : α}

@[simp]
theorem chain_nil : Chain next head [] stop ↔ head = stop :=
  Iff.rfl

@[simp]
theorem chain_cons :
    Chain next head (cell :: cells) stop ↔ head = some cell ∧ Chain next (next cell) cells stop :=
  Iff.rfl

theorem Chain.congr (chn : Chain next head cells stop)
    (same : ∀ cell ∈ cells, next' cell = next cell) : Chain next' head cells stop := by
  induction cells generalizing head with
  | nil => exact chn
  | cons cell tl ih =>
    refine ⟨chn.1, ?_⟩
    rw [same cell (by simp)]
    exact ih chn.2 (fun oth isIn => same oth (by simp [isIn]))

theorem chain_append : Chain next head (pre ++ back) stop ↔
      ∃ middle, Chain next head pre middle ∧ Chain next middle back stop := by
  induction pre generalizing head with
  | nil => simp
  | cons cell tl ih => simp [ih, and_assoc]

theorem Chain.head_eq (chn : Chain next head cells none) : head = cells.head? := by
  cases cells with
  | nil => exact chn
  | cons cell tl => exact chn.1

theorem Chain.next_eq (chn : Chain next head (pre ++ cell :: back) none) :
    next cell = back.head? := by
  obtain ⟨middle, _, isCell, tl⟩ := chain_append.mp chn
  exact tl.head_eq

theorem Chain.next_getLast (chn : Chain next head cells none)
    (last : cells.getLast? = some cell) : next cell = none := by
  obtain ⟨pre, rfl⟩ := List.getLast?_eq_some_iff.mp last
  exact chn.next_eq

section Update

variable [DecidableEq α]

theorem Chain.redirect {tgt : Option α} (chn : Chain next head (pre ++ [cell]) stop)
    (ge : cell ∉ pre) :
    Chain (update next cell tgt) head (pre ++ [cell]) tgt := by
  obtain ⟨middle, prev, isCell, _⟩ := chain_append.mp chn
  refine chain_append.mpr ⟨middle, ?_, isCell, by simp⟩
  apply prev.congr
  intro oth isIn
  exact update_of_ne (ne_of_mem_of_not_mem isIn ge) _ _

theorem Chain.update_of_notMem {tgt : Option α} (chn : Chain next head cells stop)
    (notMem : cell ∉ cells) : Chain (update next cell tgt) head cells stop :=
  chn.congr fun _ isIn => update_of_ne (ne_of_mem_of_not_mem isIn notMem) _ _

theorem Chain.splice {last : α} {oth : Option α} (chn : Chain next head (pre ++ [last]) none)
    (spliced : Chain next oth back stop) (ge : last ∉ pre) (apart : last ∉ back) :
    Chain (update next last oth) head (pre ++ [last] ++ back) stop :=
  chain_append.mpr ⟨oth, chn.redirect ge, spliced.update_of_notMem apart⟩

theorem Chain.unlink {previous : α}
    (chn : Chain next head (pre ++ [previous] ++ cell :: back) stop)
    (nodup : (pre ++ [previous] ++ cell :: back).Nodup) :
    Chain (update next previous (next cell)) head (pre ++ [previous] ++ back) stop := by
  obtain ⟨middle, prev, isCell, tl⟩ := chain_append.mp chn
  have ge : previous ∉ pre := by grind
  have apart : previous ∉ back := by grind
  exact chain_append.mpr ⟨next cell, prev.redirect ge, tl.update_of_notMem apart⟩

end Update

end NetBSD.Machine
