import Mathlib.Algebra.Order.Floor.Div
import Mathlib.Data.List.Basic
import Mathlib.Data.List.Induction
import Mathlib.Data.Nat.Notation
import Mathlib.Tactic.Common

/-!
# Evenly spaced marks

In a list some elements are marked. When the marks stand at every `m`-th place, two of them
that follow each other are `m` places apart, and a window has no more of them than its length
divided by `m`, rounded up.
-/

namespace Comb

variable {α : Type} {m : ℕ} {q : α → Bool} {xs pre post win : List α}

/-- The marked elements are those at the places `m`, `2 * m`, … in the list, counted from one,
as far as there are any. -/
def Spaced (m : ℕ) (q : α → Bool) (xs : List α) : Prop :=
  ∀ pre x post, xs = pre ++ x :: post → q x = true → pre.length + 1 = m * (pre.countP q + 1)

/-- Two marks with none between them are `m` places apart. -/
theorem Spaced.distance (h : Spaced m q xs) {x y : α} {mid : List α}
    (hcut : xs = pre ++ x :: mid ++ y :: post) (hx : q x = true) (hy : q y = true)
    (hmid : ∀ z ∈ mid, q z = false) : mid.length + 1 = m := by
  have hfirst := h pre x (mid ++ y :: post) (by rw [hcut]; simp) hx
  have hsecond := h (pre ++ x :: mid) y post hcut hy
  have hnone : mid.countP q = 0 := by
    rw [List.countP_eq_zero]
    intro z hz
    rw [hmid z hz]
    decide
  rw [List.length_append, List.length_cons, List.countP_append, List.countP_cons_of_pos hx, hnone,
    Nat.zero_add] at hsecond
  have hstep : m * (pre.countP q + 1 + 1) = m * (pre.countP q + 1) + m := Nat.mul_succ _ _
  omega

/-- The marks of a stretch are at multiples of `m`. -/
lemma Spaced.countP_le_sub (h : Spaced m q xs) (hcut : xs = pre ++ win ++ post) :
    win.countP q + pre.length / m ≤ (pre.length + win.length) / m := by
  induction win using List.reverseRecOn generalizing post with
  | nil => simp
  | append_singleton win x ih =>
    have hold := @ih (x :: post) (by rw [hcut]; simp)
    rw [List.countP_append, List.countP_singleton, List.length_append, List.length_singleton,
      ← Nat.add_assoc, Nat.succ_div]
    by_cases hx : q x = true
    · have hplace := h (pre ++ win) x post (by rw [hcut]; simp) hx
      have hdvd : m ∣ pre.length + win.length + 1 := by
        rw [← List.length_append, hplace]
        exact Nat.dvd_mul_right _ _
      rw [if_pos hx, if_pos hdvd]
      omega
    · rw [if_neg hx]
      omega

/-- **The window bound.** -/
theorem Spaced.countP_window_le (hm : 0 < m) (h : Spaced m q xs)
    (hcut : xs = pre ++ win ++ post) : win.countP q ≤ win.length ⌈/⌉ m := by
  have hcount := h.countP_le_sub hcut
  have hlt := Nat.mod_lt pre.length hm
  -- the places before the window take part of an interval at most
  have hsplit : (pre.length + win.length) / m ≤ pre.length / m + (win.length + (m - 1)) / m := by
    calc (pre.length + win.length) / m
        = (m * (pre.length / m) + (pre.length % m + win.length)) / m := by
          rw [← Nat.add_assoc, Nat.div_add_mod]
      _ = pre.length / m + (pre.length % m + win.length) / m := Nat.mul_add_div hm _ _
      _ ≤ pre.length / m + (win.length + (m - 1)) / m :=
          Nat.add_le_add_left (Nat.div_le_div_right (by omega)) _
  have hceil : win.length + m - 1 = win.length + (m - 1) := by omega
  rw [Nat.ceilDiv_eq_add_pred_div, hceil]
  omega

end Comb
