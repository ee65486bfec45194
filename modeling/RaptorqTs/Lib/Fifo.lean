import Mathlib.Data.List.Basic
import Mathlib.Tactic.Common

/-!
# First-in first-out channels

A channel loses, duplicates and reorders nothing: what has been sent into it is what has been
received from it and, after that, what is queued.
-/

namespace Fifo

universe u

variable {α : Type u} {sent queue received : List α} {x : α}

/-- What has been sent is accounted for. -/
def Conserved (sent queue received : List α) : Prop := sent = received ++ queue

lemma Conserved.nil : Conserved ([] : List α) [] [] := rfl

/-- A message is put into the queue. -/
lemma Conserved.send (h : Conserved sent queue received) (x : α) :
    Conserved (sent ++ [x]) (queue ++ [x]) received := by
  unfold Conserved at h ⊢
  rw [h, List.append_assoc]

/-- The front of the queue is taken out. -/
lemma Conserved.recv (h : Conserved sent (x :: queue) received) :
    Conserved sent queue (received ++ [x]) := by
  unfold Conserved at h ⊢
  rw [h, List.append_assoc]
  rfl

/-- A message is handed over without being queued. -/
lemma Conserved.hand (h : Conserved sent [] received) (x : α) :
    Conserved (sent ++ [x]) [] (received ++ [x]) := by
  unfold Conserved at h ⊢
  rw [h, List.append_nil, List.append_nil]

lemma Conserved.received_initial (h : Conserved sent queue received) : received <+: sent := by
  unfold Conserved at h
  rw [h]
  exact List.prefix_append _ _

lemma Conserved.received_eq (h : Conserved sent [] received) : received = sent := by
  unfold Conserved at h
  rw [h, List.append_nil]

end Fifo
