import Mathlib.Order.Basic
import Mathlib.Data.Nat.Basic
import Mathlib.Tactic.Common

/-!
# Frontiers

A cursor moves up as long as a condition holds at it. If conditions only ever become weaker, the
cursor ends at the same place whether it moves after each of them or only after the last.
-/

/-- Under the condition `p` the cursor moves from `c` to `c'` and no further. -/
structure Frontier (p : ℕ → Prop) (c c' : ℕ) : Prop where
  le : c ≤ c'
  passed : ∀ i, c ≤ i → i < c' → p i
  stops : ¬ p c'

namespace Frontier

variable {p q : ℕ → Prop} {a b c : ℕ}

lemma refl (h : ¬ p c) : Frontier p c c := by
  refine ⟨le_rfl, fun i hle hlt => ?_, h⟩
  omega

lemma unique (h : Frontier p c a) (h' : Frontier p c b) : a = b := by
  have hle := h.le
  have hle' := h'.le
  rcases Nat.lt_trichotomy a b with hlt | heq | hgt
  · exact absurd (h'.passed a hle hlt) h.stops
  · exact heq
  · exact absurd (h.passed b hle' hgt) h'.stops

/-- Moving under `p` first makes no difference for a weaker condition `q`. -/
lemma trans (hpq : ∀ i, p i → q i) (h : Frontier p c a) (h' : Frontier q a b) :
    Frontier q c b := by
  have hle := h.le
  have hle' := h'.le
  refine ⟨by omega, fun i hi hib => ?_, h'.stops⟩
  by_cases hia : i < a
  · exact hpq i (h.passed i hi hia)
  · exact h'.passed i (by omega) hib

lemma congr (hpq : ∀ i, p i ↔ q i) (h : Frontier p c a) : Frontier q c a where
  le := h.le
  passed i hi hia := (hpq i).mp (h.passed i hi hia)
  stops hq := h.stops ((hpq a).mpr hq)

end Frontier
