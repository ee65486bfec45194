import Mathlib.Data.List.Basic
import Mathlib.Tactic.Common

/-!
# Buffered output

A writer with a buffer before it. A write appends to the buffer and may push some of what is
held downstream, at the buffer's discretion; a flush pushes all of it; a failure loses what has
not gone downstream by then. Whatever the buffer does, what is downstream is an initial segment
of what has been written, and all of it right after a flush.
-/

universe u

/-- What has gone downstream, and what is held back. -/
structure WriteBehind (α : Type u) where
  delivered : List α
  buffered : List α
deriving DecidableEq, Repr

namespace WriteBehind

variable {α : Type u} {b : WriteBehind α} {xs ys : List α} {n : ℕ}

def empty : WriteBehind α := ⟨[], []⟩

/-- What has been written, downstream or not. -/
def written (b : WriteBehind α) : List α := b.delivered ++ b.buffered

/-- Write `xs`; `n` elements of those held then go downstream. -/
def write (b : WriteBehind α) (xs : List α) (n : ℕ) : WriteBehind α where
  delivered := b.delivered ++ (b.buffered ++ xs).take n
  buffered := (b.buffered ++ xs).drop n

def flush (b : WriteBehind α) : WriteBehind α := ⟨b.written, []⟩

/-- A write of `xs` fails, with `n` elements gone downstream. -/
def fail (b : WriteBehind α) (xs : List α) (n : ℕ) : WriteBehind α where
  delivered := (b.write xs n).delivered
  buffered := []

@[simp] lemma written_empty : (empty : WriteBehind α).written = [] := rfl

@[simp] lemma written_write : (b.write xs n).written = b.written ++ xs := by
  simp only [written, write, List.append_assoc, List.take_append_drop]

@[simp] lemma written_flush : b.flush.written = b.written := List.append_nil _

@[simp] lemma buffered_flush : b.flush.buffered = [] := rfl

@[simp] lemma delivered_flush : b.flush.delivered = b.written := rfl

lemma delivered_initial (b : WriteBehind α) : b.delivered <+: b.written := List.prefix_append _ _

lemma delivered_of_buffered (h : b.buffered = []) : b.delivered = b.written := by
  rw [written, h, List.append_nil]

/-- What goes downstream in a failure is part of what was to be written. -/
lemma delivered_fail (h : b.written ++ xs = ys) : (b.fail xs n).delivered <+: ys := by
  rw [← h, ← @written_write _ b xs n]
  exact delivered_initial (b.write xs n)

end WriteBehind
