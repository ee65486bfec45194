import RaptorqTs.Lib.Machine
import Mathlib.Logic.Function.Basic
import Mathlib.Order.Nat

/-!
# Reorder buffers

The abstract purpose of a reorder buffer: values arrive for numbered slots in any order,
a slot may be overwritten until it leaves, and the slots leave one by one in increasing
order, a slot for which nothing arrived as `none`. The buffer joins the numbering at
whatever slot the first value names.

`run_spec` says all there is to say about a run: the output is, slot by slot from the
first one, the last value put there, and the slots that have not left hold theirs.
-/

/-- A reorder buffer over values `β`. -/
structure Reorder (β : Type*) where
  /-- Nothing happens before the numbering is joined. -/
  started : Bool
  /-- The slot at which the numbering was joined. -/
  first : ℕ
  /-- The next slot to leave. -/
  next : ℕ
  pending : ℕ → Option β
  out : List (ℕ × Option β)

namespace Reorder

variable {β : Type*}

/-- What can happen to a reorder buffer. -/
inductive Op (β : Type*) where
  | join (k : ℕ)
  | put (k : ℕ) (v : β)
  | emit

/-- The buffer before anything arrived. -/
def init : Reorder β := ⟨false, 0, 0, fun _ => none, []⟩

/-- One operation. A slot can be written only while it has not left. -/
def step (r : Reorder β) : Op β → Option (Reorder β)
  | .join k =>
    if r.started then none else some { r with started := true, first := k, next := k }
  | .put k v =>
    if r.started ∧ r.next ≤ k then
      some { r with pending := Function.update r.pending k (some v) }
    else none
  | .emit =>
    if r.started then
      some { r with
        next := r.next + 1
        pending := Function.update r.pending r.next none
        out := r.out ++ [(r.next, r.pending r.next)] }
    else none

/-- The last value that a list of operations puts into slot `k`. -/
def lastPut (k : ℕ) : List (Op β) → Option β
  | [] => none
  | op :: ops =>
    match lastPut k ops, op with
    | some v, _ => some v
    | none, .put k' v => if k' = k then some v else none
    | none, _ => none

/-! ## `lastPut` as operations are appended -/

lemma lastPut_append (k : ℕ) (xs ys : List (Op β)) :
    lastPut k (xs ++ ys) = (lastPut k ys).or (lastPut k xs) := by
  induction xs with
  | nil => simp [lastPut]
  | cons x xs ih =>
    simp only [List.cons_append, lastPut, ih]
    cases lastPut k ys <;> simp

@[simp] lemma lastPut_put_self (k : ℕ) (v : β) (ops : List (Op β)) :
    lastPut k (ops ++ [.put k v]) = some v := by
  simp [lastPut_append, lastPut]

lemma lastPut_put_ne {k k' : ℕ} (v : β) (ops : List (Op β)) (h : k' ≠ k) :
    lastPut k (ops ++ [.put k' v]) = lastPut k ops := by
  simp [lastPut_append, lastPut, h]

@[simp] lemma lastPut_emit (k : ℕ) (ops : List (Op β)) :
    lastPut k (ops ++ [.emit]) = lastPut k ops := by
  simp [lastPut_append, lastPut]

@[simp] lemma lastPut_join (k k' : ℕ) (ops : List (Op β)) :
    lastPut k (ops ++ [.join k']) = lastPut k ops := by
  simp [lastPut_append, lastPut]

/-! ## The specification of a run -/

/-- What a run of `ops` has made of the buffer. -/
structure Spec (ops : List (Op β)) (r : Reorder β) : Prop where
  idle : r.started = false → r.out = [] ∧ ∀ k, lastPut k ops = none
  first_le : r.first ≤ r.next
  out_eq : r.out = (List.range' r.first (r.next - r.first)).map fun k => (k, lastPut k ops)
  pending_eq : ∀ k, r.pending k = if r.next ≤ k then lastPut k ops else none
  first_le_put : ∀ k, (lastPut k ops).isSome → r.first ≤ k

lemma Spec.init : Spec [] (init : Reorder β) where
  idle _ := ⟨rfl, fun _ => rfl⟩
  first_le := le_refl _
  out_eq := rfl
  pending_eq k := by simp [Reorder.init, lastPut]
  first_le_put k h := by simp [lastPut] at h

lemma Spec.join {ops : List (Op β)} {r r' : Reorder β} (h : Spec ops r) {k : ℕ}
    (hs : step r (.join k) = some r') : Spec (ops ++ [.join k]) r' := by
  simp only [step, Option.ite_none_left_eq_some, Option.some.injEq] at hs
  obtain ⟨hidle, rfl⟩ := hs
  obtain ⟨hout, hput⟩ := h.idle (by simpa using hidle)
  refine ⟨by simp, le_refl _, by simp [hout], fun j => ?_, fun j hj => ?_⟩
  · simp [h.pending_eq, hput]
  · simp [hput] at hj

lemma Spec.put {ops : List (Op β)} {r r' : Reorder β} (h : Spec ops r) {k : ℕ} {v : β}
    (hs : step r (.put k v) = some r') : Spec (ops ++ [.put k v]) r' := by
  simp only [step, Option.ite_none_right_eq_some, Option.some.injEq] at hs
  obtain ⟨⟨hstarted, hk⟩, rfl⟩ := hs
  refine ⟨fun hidle => by simp [hstarted] at hidle, h.first_le, ?_, fun j => ?_, fun j hj => ?_⟩
  · -- the slots that have left all lie below `k`
    rw [h.out_eq]
    refine List.map_congr_left fun j hj => ?_
    have hlt : j < r.next := by
      have := List.mem_range'_1.mp hj
      have := h.first_le
      omega
    rw [lastPut_put_ne v ops (by omega)]
  · by_cases hj : j = k
    · subst hj
      simp [hk]
    · have hne : k ≠ j := fun e => hj e.symm
      simp only [Function.update_of_ne hj, h.pending_eq, lastPut_put_ne v ops hne]
  · by_cases hjk : k = j
    · subst hjk
      exact le_trans h.first_le hk
    · exact h.first_le_put j (by rwa [lastPut_put_ne v ops hjk] at hj)

lemma Spec.emit {ops : List (Op β)} {r r' : Reorder β} (h : Spec ops r)
    (hs : step r .emit = some r') : Spec (ops ++ [.emit]) r' := by
  simp only [step, Option.ite_none_right_eq_some, Option.some.injEq] at hs
  obtain ⟨hstarted, rfl⟩ := hs
  have hle := h.first_le
  refine ⟨fun hidle => by simp [hstarted] at hidle, Nat.le_succ_of_le hle, ?_, fun j => ?_, ?_⟩
  · have hlen : r.next + 1 - r.first = (r.next - r.first) + 1 := by omega
    have hlast : r.first + 1 * (r.next - r.first) = r.next := by omega
    simp only [hlen, List.range'_concat, List.map_append, List.map_cons, List.map_nil,
      lastPut_emit, hlast, ← h.out_eq, h.pending_eq, le_refl, if_true]
  · by_cases hj : j = r.next
    · subst hj
      simp only [Function.update_self]
      rw [if_neg (Nat.not_succ_le_self r.next)]
    · simp only [Function.update_of_ne hj, h.pending_eq, lastPut_emit]
      by_cases hlt : r.next ≤ j
      · rw [if_pos hlt, if_pos (by omega)]
      · rw [if_neg hlt, if_neg (by omega)]
  · intro j hj
    exact h.first_le_put j (by rwa [lastPut_emit] at hj)

/-- **What a reorder buffer does.** After any run, the slots that have left are
`first, first + 1, …`, each with the last value put into it, and a slot that has not left
holds the last value put into it. -/
theorem run_spec {ops : List (Op β)} {r : Reorder β} (h : Machine.run step init ops = some r) :
    Spec ops r := by
  refine Machine.run_induction (P := Spec) Spec.init ?_ h
  intro ops r op r' _ hspec hs
  cases op with
  | join k => exact hspec.join hs
  | put k v => exact hspec.put hs
  | emit => exact hspec.emit hs

end Reorder
