import Mathlib.Data.List.TakeDrop
import Mathlib.Tactic.Common

/-!
# Slices of buffers

`slice l off n` is the range `l[off..off + n]` of a buffer, and `copyAt out off src`
overwrites that range with `src`, the way `copy_from_slice` does.
-/

variable {α : Type*}

/-- The `n` elements of `l` from offset `off`. -/
def slice (l : List α) (off n : ℕ) : List α := (l.drop off).take n

/-- `l` with the elements from offset `off` replaced by `src`. -/
def copyAt (out : List α) (off : ℕ) (src : List α) : List α :=
  out.take off ++ src ++ out.drop (off + src.length)

/-! ## Lengths -/

lemma length_slice {l : List α} {off n : ℕ} (h : off + n ≤ l.length) :
    (slice l off n).length = n := by
  simp only [slice, List.length_take, List.length_drop]
  omega

lemma length_copyAt {out src : List α} {off : ℕ} (h : off + src.length ≤ out.length) :
    (copyAt out off src).length = out.length := by
  simp only [copyAt, List.length_append, List.length_take, List.length_drop]
  omega

/-- What stands before the end of a copied piece. -/
lemma take_copyAt {out src : List α} {off : ℕ} (h : off ≤ out.length) :
    (copyAt out off src).take (off + src.length) = out.take off ++ src := by
  have hlen : (out.take off ++ src).length = off + src.length := by
    rw [List.length_append, List.length_take, Nat.min_eq_left h]
  rw [copyAt, ← hlen, List.take_left]

/-! ## Slices of concatenations -/

lemma slice_zero_length (l : List α) : slice l 0 l.length = l := by
  simp [slice]

lemma slice_append_left {xs ys : List α} {off n : ℕ} (h : off + n ≤ xs.length) :
    slice (xs ++ ys) off n = slice xs off n := by
  simp only [slice]
  rw [List.drop_append_of_le_length (by omega), List.take_append_of_le_length]
  rw [List.length_drop]
  omega

lemma slice_append_right {xs ys : List α} {off n : ℕ} :
    slice (xs ++ ys) (xs.length + off) n = slice ys off n := by
  simp only [slice]
  rw [List.drop_append, List.drop_eq_nil_of_le (by omega), List.nil_append]
  congr 2
  omega

/-- A slice in the middle of a concatenation, the offset given by its value. -/
lemma slice_append_of_eq {xs ys : List α} {off n : ℕ} (off' : ℕ) (h : off = xs.length + off') :
    slice (xs ++ ys) off n = slice ys off' n := by
  rw [h, slice_append_right]

/-- The slice that a copied piece occupies is that piece. -/
lemma slice_copyAt_self {out src : List α} {off : ℕ} (h : off ≤ out.length) :
    slice (copyAt out off src) off src.length = src := by
  have hlen : (out.take off).length = off := by simp [h]
  rw [copyAt, List.append_assoc, slice_append_of_eq 0 (by rw [hlen]; rfl),
    slice_append_left (by omega), slice_zero_length]

/-- A slice apart from the copied piece is unchanged. -/
lemma slice_copyAt_disjoint {out src : List α} {off off' n : ℕ}
    (h : off + src.length ≤ out.length) (hd : off' + n ≤ off ∨ off + src.length ≤ off') :
    slice (copyAt out off src) off' n = slice out off' n := by
  have hlen : (out.take off).length = off := by
    rw [List.length_take]
    omega
  rcases hd with hd | hd
  · rw [copyAt, List.append_assoc, slice_append_left (by omega)]
    conv_rhs => rw [← List.take_append_drop off out]
    rw [slice_append_left (by omega)]
  · obtain ⟨d, rfl⟩ := Nat.exists_eq_add_of_le hd
    rw [copyAt, slice_append_of_eq d (by rw [List.length_append, hlen])]
    simp only [slice, List.drop_drop]

/-! ## Blocks of equal length -/

lemma length_flatten_of_length {ls : List (List α)} {n : ℕ} (h : ∀ l ∈ ls, l.length = n) :
    ls.flatten.length = ls.length * n := by
  induction ls with
  | nil => simp
  | cons l ls ih =>
    rw [List.flatten_cons, List.length_append, h l (List.mem_cons_self ..),
      ih fun l' hl' => h l' (List.mem_cons_of_mem _ hl'), List.length_cons, Nat.succ_mul,
      Nat.add_comm]

/-- In a concatenation of blocks of length `n`, the slice at `i * n` is block `i`. -/
lemma slice_flatten {ls : List (List α)} {n i : ℕ} (h : ∀ l ∈ ls, l.length = n)
    (hi : i < ls.length) : slice ls.flatten (i * n) n = ls[i] := by
  induction ls generalizing i with
  | nil => simp at hi
  | cons l ls ih =>
    have hl : l.length = n := h l (List.mem_cons_self ..)
    cases i with
    | zero =>
      subst hl
      simp only [List.flatten_cons, Nat.zero_mul, List.getElem_cons_zero]
      rw [slice_append_left (by omega), slice_zero_length]
    | succ i =>
      simp only [List.flatten_cons, List.getElem_cons_succ]
      rw [slice_append_of_eq (i * n) (by rw [hl, Nat.succ_mul, Nat.add_comm])]
      exact ih (fun l' hl' => h l' (List.mem_cons_of_mem _ hl')) (by simpa using hi)

lemma slice_slice {l : List α} {off n off' n' : ℕ} (h : off' + n' ≤ n) :
    slice (slice l off n) off' n' = slice l (off + off') n' := by
  simp only [slice]
  rw [List.drop_take, List.take_take, List.drop_drop]
  congr 1
  omega

lemma slice_replicate {a : α} {m off n : ℕ} (h : off + n ≤ m) :
    slice (List.replicate m a) off n = List.replicate n a := by
  simp only [slice, List.drop_replicate, List.take_replicate]
  congr 1
  omega
