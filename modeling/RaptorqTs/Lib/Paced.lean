import Mathlib.Algebra.Order.Group.Nat
import Mathlib.Algebra.Order.Sub.Basic
import Mathlib.Data.List.Induction
import Mathlib.Order.Bounds.Basic
import Mathlib.Tactic.Common

/-!
# Paced loops

Each round of a loop takes some time, and sleeps until its deadline when it is done before. The
deadlines are an interval apart, so what a round is late by is left to the next one, less what that
one is shorter than the interval. The lag after a run is the greatest excess that any stretch of
rounds at its end has over the intervals of as many rounds.
-/

namespace Paced

section Lag

variable {α : Type*} [AddCommMonoid α] [Sub α]

/-- What the loop is late by after rounds that take the times given. -/
def lag (interval : α) (rounds : List α) : α :=
  rounds.foldl (fun late took => late + took - interval) 0

@[simp] lemma lag_nil (interval : α) : lag interval [] = 0 := rfl

lemma lag_concat (interval : α) (rounds : List α) (took : α) :
    lag interval (rounds ++ [took]) = lag interval rounds + took - interval := by
  rw [lag, List.foldl_append]
  rfl

end Lag

variable {α : Type*} [AddCommMonoid α] [LinearOrder α] [IsOrderedCancelAddMonoid α]
  [CanonicallyOrderedAdd α] [Sub α] [OrderedSub α]
  {interval bound : α} {rounds stretch : List α}

/-! ## The lag as an excess -/

/-- No stretch at the end exceeds its intervals by more than the lag. -/
lemma sum_le_lag (h : stretch <:+ rounds) :
    stretch.sum ≤ lag interval rounds + stretch.length • interval := by
  induction rounds using List.reverseRecOn generalizing stretch with
  | nil =>
    rw [List.eq_nil_of_suffix_nil h]
    simp
  | append_singleton rounds took ih =>
    rcases List.suffix_concat_iff.mp h with rfl | ⟨stretch, rfl, hsuffix⟩
    · simp
    · rw [lag_concat, List.sum_append, List.sum_singleton, List.length_append,
        List.length_singleton, add_nsmul, one_nsmul]
      calc stretch.sum + took
          ≤ lag interval rounds + stretch.length • interval + took :=
            add_le_add_left (ih hsuffix) took
        _ = lag interval rounds + took + stretch.length • interval := add_right_comm _ _ _
        _ ≤ lag interval rounds + took - interval + interval + stretch.length • interval :=
          add_le_add_left le_tsub_add _
        _ = lag interval rounds + took - interval + (stretch.length • interval + interval) := by
          rw [add_assoc, add_comm interval]

/-- Some stretch at the end has just that excess. -/
lemma exists_sum_eq_lag (interval : α) (rounds : List α) : ∃ stretch, stretch <:+ rounds ∧
    stretch.sum = lag interval rounds + stretch.length • interval := by
  induction rounds using List.reverseRecOn with
  | nil => exact ⟨[], List.suffix_rfl, by simp⟩
  | append_singleton rounds took ih =>
    rw [lag_concat]
    rcases le_total (lag interval rounds + took) interval with hearly | hlate
    · -- the round is done before its deadline
      refine ⟨[], List.nil_suffix, ?_⟩
      rw [tsub_eq_zero_of_le hearly]
      simp
    · obtain ⟨stretch, hsuffix, hsum⟩ := ih
      refine ⟨stretch ++ [took], List.suffix_concat_iff.mpr (Or.inr ⟨stretch, rfl, hsuffix⟩), ?_⟩
      rw [List.sum_append, List.sum_singleton, hsum, List.length_append, List.length_singleton,
        add_nsmul, one_nsmul]
      calc lag interval rounds + stretch.length • interval + took
          = lag interval rounds + took + stretch.length • interval := add_right_comm _ _ _
        _ = lag interval rounds + took - interval + interval + stretch.length • interval := by
          rw [tsub_add_cancel_of_le hlate]
        _ = lag interval rounds + took - interval + (stretch.length • interval + interval) := by
          rw [add_assoc, add_comm interval]

/-- **The lag** is at most a bound exactly if no stretch of rounds at the end takes longer than its
intervals and the bound. -/
theorem lag_le_iff : lag interval rounds ≤ bound ↔
    ∀ stretch, stretch <:+ rounds → stretch.sum ≤ bound + stretch.length • interval := by
  constructor
  · intro h stretch hsuffix
    exact (sum_le_lag hsuffix).trans (add_le_add_left h _)
  · intro h
    obtain ⟨stretch, hsuffix, hsum⟩ := exists_sum_eq_lag interval rounds
    have hle := h stretch hsuffix
    rw [hsum] at hle
    exact le_of_add_le_add_right hle

/-! ## Catching up -/

/-- As long as the loop is late behind each round, it loses no time to sleep. -/
lemma lag_append_of_late {rest : List α}
    (hlate : ∀ taken, taken <+: rest → taken ≠ [] → lag interval (rounds ++ taken) ≠ 0) :
    lag interval (rounds ++ rest) + rest.length • interval = lag interval rounds + rest.sum := by
  induction rest using List.reverseRecOn with
  | nil => simp
  | append_singleton rest took ih =>
    have hinit := ih fun taken htaken => hlate taken (htaken.trans (List.prefix_append _ _))
    have hlast := hlate (rest ++ [took]) List.prefix_rfl (List.concat_ne_nil took rest)
    rw [← List.append_assoc, lag_concat] at hlast ⊢
    have hround : interval ≤ lag interval (rounds ++ rest) + took := by
      by_contra hshort
      exact hlast (tsub_eq_zero_of_le (le_of_not_ge hshort))
    rw [List.length_append, List.length_singleton, add_nsmul, one_nsmul, List.sum_append,
      List.sum_singleton]
    calc lag interval (rounds ++ rest) + took - interval + (rest.length • interval + interval)
        = lag interval (rounds ++ rest) + took - interval + interval + rest.length • interval := by
          rw [add_assoc, add_comm interval]
      _ = lag interval (rounds ++ rest) + took + rest.length • interval := by
          rw [tsub_add_cancel_of_le hround]
      _ = lag interval rounds + rest.sum + took := by rw [add_right_comm, hinit]
      _ = lag interval rounds + (rest.sum + took) := add_assoc _ _ _

/-- **Catching up.** Rounds that together take less than their intervals by the lag make up for
it. -/
theorem exists_lag_eq_zero {rest : List α}
    (hmade : lag interval rounds + rest.sum ≤ rest.length • interval) :
    ∃ taken, taken <+: rest ∧ lag interval (rounds ++ taken) = 0 := by
  by_contra hlate
  push Not at hlate
  have hsum := lag_append_of_late fun taken htaken _ => hlate taken htaken
  rw [← hsum] at hmade
  have hzero : lag interval (rounds ++ rest) ≤ 0 :=
    le_of_add_le_add_right (hmade.trans_eq (zero_add _).symm)
  exact hlate rest List.prefix_rfl (nonpos_iff_eq_zero.mp hzero)

end Paced
