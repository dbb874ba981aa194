import Mathlib.Data.List.Basic

/-!
Owns computations that read cells of a memory, as trees of reads. What such a
computation reads is part of its meaning, so that "it reads only there" and "it
depends only on that" can be stated and follow from each other.
-/

namespace NetBSD.Machine

universe u v w

inductive Reading (ι : Type u) (β : Type v) (α : Type w) where
  | done (result : α)
  | read (place : ι) (next : β → Reading ι β α)

namespace Reading

variable {ι κ : Type u} {β : Type v} {α γ : Type w}

protected def bind : Reading ι β α → (α → Reading ι β γ) → Reading ι β γ
  | done result, after => after result
  | read place next, after => read place fun cell => (next cell).bind after

instance : Monad (Reading.{u, v, w} ι β) where
  pure := done
  bind := Reading.bind

def cell {β : Type w} (place : ι) : Reading ι β β := read place done

def relocate (move : ι → κ) : Reading ι β α → Reading κ β α
  | done result => done result
  | read place next => read (move place) fun cell => (next cell).relocate move

def value (memory : ι → β) : Reading ι β α → α
  | done result => result
  | read place next => (next (memory place)).value memory

def places (memory : ι → β) : Reading ι β α → List ι
  | done _ => []
  | read place next => place :: (next (memory place)).places memory

def Within (allowed : ι → Prop) (post : α → Prop) : Reading ι β α → Prop
  | done result => post result
  | read place next => allowed place ∧ ∀ cell, (next cell).Within allowed post

variable {memory memory' : ι → β} {allowed : ι → Prop} {post : α → Prop}

@[simp] theorem value_pure (res : α) : (pure res : Reading ι β α).value memory = res := rfl

@[simp] theorem value_cell {β : Type w} {memory : ι → β} (plc : ι) :
    (cell plc).value memory = memory plc := rfl

@[simp] theorem value_bind (fst : Reading ι β α) (s' : α → Reading ι β γ) :
    (fst >>= s').value memory = (s' (fst.value memory)).value memory := by
  induction fst with
  | done res => rfl
  | read plc next ih => exact ih (memory plc)

theorem value_relocate {memory : κ → β} (move : ι → κ) (reading : Reading ι β α) :
    (reading.relocate move).value memory = reading.value fun plc => memory (move plc) := by
  induction reading with
  | done res => rfl
  | read plc next ih => exact ih (memory (move plc))

@[simp] theorem places_bind (fst : Reading ι β α) (s' : α → Reading ι β γ) :
    (fst >>= s').places memory =
      fst.places memory ++ (s' (fst.value memory)).places memory := by
  induction fst with
  | done res => rfl
  | read plc next ih =>
    exact congrArg (plc :: ·) (ih (memory plc))

theorem places_relocate {memory : κ → β} (move : ι → κ) (reading : Reading ι β α) :
    (reading.relocate move).places memory =
      (reading.places fun plc => memory (move plc)).map move := by
  induction reading with
  | done res => rfl
  | read plc next ih =>
    exact congrArg (move plc :: ·) (ih (memory (move plc)))

theorem value_congr (reading : Reading ι β α)
    (agree : ∀ plc ∈ reading.places memory, memory plc = memory' plc) :
    reading.value memory = reading.value memory' := by
  induction reading with
  | done res => rfl
  | read plc next ih =>
    have here : memory plc = memory' plc := agree plc List.mem_cons_self
    change (next (memory plc)).value memory = (next (memory' plc)).value memory'
    rw [← here]
    exact ih _ (List.forall_mem_cons.mp agree).2

/-! ### Rules -/

theorem within_pure {res : α} (holds : post res) :
    (pure res : Reading ι β α).Within allowed post := holds

theorem Within.bind {fst : Reading ι β α} {s' : α → Reading ι β γ} {final : γ → Prop}
    (bnd : fst.Within allowed post)
    (tl : ∀ res, post res → (s' res).Within allowed final) :
    (fst >>= s').Within allowed final := by
  induction fst with
  | done res => exact tl res bnd
  | read plc next ih =>
    exact ⟨bnd.1, fun cell => ih cell (bnd.2 cell)⟩

variable {reading : Reading ι β α}

theorem Within.mono {allowed' : ι → Prop} {post' : α → Prop} (bnd : reading.Within allowed post)
    (wider : ∀ plc, allowed plc → allowed' plc)
    (weaker : ∀ res, post res → post' res) : reading.Within allowed' post' := by
  induction reading with
  | done res => exact weaker res bnd
  | read plc next ih =>
    exact ⟨wider plc bnd.1, fun cell => ih cell (bnd.2 cell)⟩

theorem Within.relocate {allowed' : κ → Prop} {move : ι → κ} (bnd : reading.Within allowed post)
    (moved : ∀ plc, allowed plc → allowed' (move plc)) :
    (reading.relocate move).Within allowed' post := by
  induction reading with
  | done res => exact bnd
  | read plc next ih =>
    exact ⟨moved plc bnd.1, fun cell => ih cell (bnd.2 cell)⟩

theorem Within.allowed_of_mem (bnd : reading.Within allowed post) (memory : ι → β) :
    ∀ plc ∈ reading.places memory, allowed plc := by
  induction reading with
  | done res => exact nofun
  | read plc next ih =>
    exact List.forall_mem_cons.mpr ⟨bnd.1, ih _ (bnd.2 _)⟩

theorem Within.value_congr (bnd : reading.Within allowed post)
    (agree : ∀ plc, allowed plc → memory plc = memory' plc) :
    reading.value memory = reading.value memory' :=
  Reading.value_congr reading fun plc isIn =>
    agree plc (bnd.allowed_of_mem memory plc isIn)

end Reading

end NetBSD.Machine
