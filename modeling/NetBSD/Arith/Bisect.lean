/-!
Owns a binary search that keeps the index that it looked at last. With the target above
the elements in front of a point and below those behind it, the search finds the target
or ends next to the point: at the last element in front of it, or at the first behind it.
-/

namespace NetBSD.Arith

inductive Bisected where
  | found (idx : Nat)
  | near (idx : Nat)
deriving DecidableEq, Repr

/-- The search, from a comparison of the target with the element of an index. -/
def bisect (compare : Nat → Option Int) : Nat → Nat → Nat → Nat → Option Bisected
  | 0, _, _, _ => none
  | fuel + 1, base, distance, idx =>
    if distance = 0 then some (.near idx)
    else
      let idx := base + distance / 2
      match compare idx with
      | none => none
      | some res =>
        if res = 0 then some (.found idx)
        else if res > 0 then bisect compare fuel (idx + 1) ((distance - 1) / 2) idx
        else bisect compare fuel base (distance / 2) idx

/-- The elements in front of a point are below the target, and those behind it above. -/
structure Split (res : Nat → Int) (n point : Nat) : Prop where
  inside : point ≤ n
  below : ∀ i, i < point → 0 < res i
  above : ∀ i, point ≤ i → i < n → res i < 0

def Beside (n point idx : Nat) : Prop := idx + 1 = point ∨ (idx = point ∧ point < n)

def Bisected.Right (res : Nat → Int) (n : Nat) : Bisected → Prop
  | found idx => idx < n ∧ res idx = 0
  | near idx => ∃ point, Split res n point ∧ (0 < n → Beside n point idx)

section Bisect

variable {compare : Nat → Option Int} {res : Nat → Int} {n : Nat}

section

variable (ins : ∀ i, i < n → compare i = some (res i))
  (falling : ∀ i j, i < j → j < n → 0 ≤ res j → 0 < res i)

include ins falling

/-- The halving ends at a hit or beside the place of a miss. -/
theorem bisect_spec {fuel base distance idx : Nat}
    (suff : distance < fuel) (fits : base + distance ≤ n)
    (below : ∀ i, i < base → 0 < res i) (above : ∀ i, base + distance ≤ i → i < n → res i < 0)
    (ended : distance = 0 → 0 < n → Beside n base idx) :
    ∃ result, bisect compare fuel base distance idx = some result ∧ result.Right res n := by
  induction fuel generalizing base distance idx with
  | zero => omega
  | succ fuel ih =>
    rw [bisect]
    by_cases done : distance = 0
    · rw [if_pos done]
      refine ⟨_, rfl, base, ⟨by omega, below, fun i low => above i (by omega)⟩, ended done⟩
    have less : base + distance / 2 < n := by omega
    rw [if_neg done]
    simp only [ins _ less]
    by_cases eq0 : res (base + distance / 2) = 0
    · rw [if_pos eq0]
      exact ⟨_, rfl, less, eq0⟩
    rw [if_neg eq0]
    by_cases pos : 0 < res (base + distance / 2)
    · rw [if_pos pos]
      refine ih (by omega) (by omega) (fun i isLess => ?_)
        (fun i low => above i (by omega)) fun _ _ => .inl rfl
      by_cases here : i = base + distance / 2
      · rw [here]
        exact pos
      · exact falling i _ (by omega) less (by omega)
    rw [if_neg pos]
    refine ih (by omega) (by omega) below (fun i low isLess => ?_)
      fun eq0 _ => .inr ⟨by omega, by omega⟩
    by_cases here : i = base + distance / 2
    · rw [here]
      omega
    · by_cases far : 0 ≤ res i
      · have := falling (base + distance / 2) i (by omega) isLess far
        omega
      · omega

theorem bisect_all :
    ∃ result, bisect compare (n + 1) 0 n 0 = some result ∧ result.Right res n := by
  refine bisect_spec ins falling (Nat.lt_succ_self n) (by omega) (fun i less => by omega)
    (fun i low less => by omega) fun isZero positive => by omega

end

end Bisect

end NetBSD.Arith
