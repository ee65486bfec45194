import Mathlib.Algebra.Order.Field.Rat
import Mathlib.Tactic.FieldSimp
import Mathlib.Tactic.Ring
import RaptorqTs.Common.Reference
import RaptorqTs.Enc.Writer

/-!
# Pacing

Behind each frame `writer_thread` sleeps until the deadline of the frames written so far. The
interval of one frame is cut to whole nanoseconds before it is multiplied with their number.
-/

namespace RaptorqTs.Enc

def bitsPerPacket : ℕ := tsPacketSize * 8

/-- `nanos_per_packet`, in `u128`. -/
def nanosPerPacket (rateBps : ℕ) : ℕ := 1000000000 * bitsPerPacket / rateBps

/-- `next_deadline_ns`, in `u128`. -/
def Writer.nextDeadlineNs (rateBps : ℕ) (w : Writer) : ℕ :=
  nanosPerPacket rateBps * (w.packetsSent + w.noopsSent)

/-! ## The exact deadlines -/

/-- The nanoseconds that one packet takes at the rate. -/
def packetInterval (rateBps : ℕ) : ℚ := ((1000000000 * bitsPerPacket : ℕ) : ℚ) / rateBps

/-- The deadline of the frames written is less than the interval of one packet away from what
the rate says. -/
def Writer.InPace (rateBps : ℕ) (w : Writer) : Prop :=
  |(w.nextDeadlineNs rateBps : ℚ) - w.wire.length * packetInterval rateBps| <
    packetInterval rateBps

variable {rateBps n : ℕ}

/-- The deadline runs ahead by the same fraction of a nanosecond with each packet. -/
lemma exact_sub_deadline (hrate : 1 ≤ rateBps) (n : ℕ) :
    n * packetInterval rateBps - (nanosPerPacket rateBps * n : ℕ) =
      ((n * (1000000000 * bitsPerPacket % rateBps) : ℕ) : ℚ) / rateBps := by
  have hpos : (rateBps : ℚ) ≠ 0 := by exact_mod_cast (Nat.pos_of_ne_zero (by omega)).ne'
  have hdiv : (rateBps : ℚ) * nanosPerPacket rateBps +
      (1000000000 * bitsPerPacket % rateBps : ℕ) = (1000000000 * bitsPerPacket : ℕ) := by
    exact_mod_cast Nat.div_add_mod (1000000000 * bitsPerPacket) rateBps
  rw [packetInterval, ← hdiv]
  push_cast
  field_simp
  ring

/-- **The drift.** -/
lemma abs_deadline_sub_exact_lt_iff (hrate : 1 ≤ rateBps) (n : ℕ) :
    |((nanosPerPacket rateBps * n : ℕ) : ℚ) - n * packetInterval rateBps| <
        packetInterval rateBps ↔
      n * (1000000000 * bitsPerPacket % rateBps) < 1000000000 * bitsPerPacket := by
  have hpos : (0 : ℚ) < rateBps := by exact_mod_cast hrate
  rw [abs_sub_comm, exact_sub_deadline hrate,
    abs_of_nonneg (div_nonneg (Nat.cast_nonneg _) hpos.le), packetInterval,
    div_lt_div_iff_of_pos_right hpos, Nat.cast_lt]

/-! ## The frames counted -/

namespace Writer

variable {codec : WireCodec} {pid : UInt16} {oti : ObjectTransmissionInformation} {w w' : Writer}

/-- The counters are ahead of the wire by the frame in the buffer. -/
def Counted (w : Writer) : Prop :=
  (w.point = .polling → w.packetsSent + w.noopsSent = w.wire.length) ∧
    ∀ origin, w.point = .writing origin → w.packetsSent + w.noopsSent = w.wire.length + 1

lemma Counted.step (h : Counted w) {a : WriterAction} (hstep : step codec pid oti w a = some w') :
    Counted w' := by
  unfold Writer.step at hstep
  split at hstep
  · rename_i hpoint
    have hcount := h.1 hpoint
    rw [← Option.some.inj hstep]
    exact ⟨nofun, fun _ _ => by show w.packetsSent + 1 + w.noopsSent = w.wire.length + 1; omega⟩
  · rename_i hpoint
    have hcount := h.1 hpoint
    rw [← Option.some.inj hstep]
    exact ⟨nofun, fun _ _ => by show w.packetsSent + (w.noopsSent + 1) = w.wire.length + 1; omega⟩
  · rw [← Option.some.inj hstep]
    exact ⟨nofun, nofun⟩
  · rename_i origin hpoint
    have hcount := h.2 origin hpoint
    rw [← Option.some.inj hstep]
    exact ⟨fun _ => by rw [List.length_append, List.length_singleton]; exact hcount, nofun⟩
  · rw [← Option.some.inj hstep]
    exact ⟨nofun, nofun⟩
  · cases hstep

theorem Reachable.counted (h : Reachable codec pid oti w) : Counted w :=
  Machine.Reachable.invariant ⟨fun _ => rfl, nofun⟩ (fun _ _ _ _ ih hstep => ih.step hstep) h

/-- An encoder without input writes as many noop packets as one likes. -/
lemma exists_reachable (codec : WireCodec) (pid : UInt16) (oti : ObjectTransmissionInformation)
    (n : ℕ) : ∃ w, Reachable codec pid oti w ∧ w.point = .polling ∧ w.wire.length = n := by
  induction n with
  | zero => exact ⟨init, ⟨[], rfl⟩, rfl, rfl⟩
  | succ n ih =>
    obtain ⟨w, ⟨acts, hrun⟩, hpoint, hlen⟩ := ih
    obtain ⟨w', hw', hpoint', hlen'⟩ : ∃ w',
        Machine.run (step codec pid oti) w [.empty, .written] = some w' ∧
          w'.point = .polling ∧ w'.wire.length = n + 1 := by
      obtain ⟨point, cc, buf, packetsSent, noopsSent, received, wire⟩ := w
      subst hpoint
      refine ⟨_, rfl, rfl, ?_⟩
      rw [List.length_append, List.length_singleton, hlen]
    exact ⟨w', ⟨_, Machine.run_append_eq_some.mpr ⟨w, hrun, hw'⟩⟩, hpoint', hlen'⟩

lemma Counted.inPace_iff_dropped (h : Counted w) (hrate : 1 ≤ rateBps)
    (hpoint : w.point = .polling) : InPace rateBps w ↔
      w.wire.length * (1000000000 * bitsPerPacket % rateBps) < 1000000000 * bitsPerPacket := by
  rw [← abs_deadline_sub_exact_lt_iff hrate, InPace, nextDeadlineNs, h.1 hpoint]

/-- **Pacing.** The deadline of the frames written is in pace exactly as long as the remainder of
the interval, which is dropped with each frame, has not added up to the interval. All deadlines
of all runs are in pace exactly if the rate divides the interval's numerator. -/
theorem inPace_iff (codec : WireCodec) (pid : UInt16) (oti : ObjectTransmissionInformation)
    (hrate : 1 ≤ rateBps) :
    (∀ w, Reachable codec pid oti w → w.point = .polling → (InPace rateBps w ↔
        w.wire.length * (1000000000 * bitsPerPacket % rateBps) < 1000000000 * bitsPerPacket)) ∧
      ((∀ w, Reachable codec pid oti w → w.point = .polling → InPace rateBps w) ↔
        rateBps ∣ 1000000000 * bitsPerPacket) := by
  have hiff (w : Writer) (h : Reachable codec pid oti w) (hpoint : w.point = .polling) :=
    h.counted.inPace_iff_dropped hrate hpoint
  refine ⟨hiff, ?_, ?_⟩
  · intro hall
    rw [Nat.dvd_iff_mod_eq_zero]
    by_contra hrem
    -- a run so long that the remainders add up
    obtain ⟨w, hw, hpoint, hlen⟩ := exists_reachable codec pid oti (1000000000 * bitsPerPacket)
    have hlt := (hiff w hw hpoint).mp (hall w hw hpoint)
    rw [hlen] at hlt
    exact absurd (Nat.le_mul_of_pos_right _ (Nat.pos_of_ne_zero hrem)) (Nat.not_le.mpr hlt)
  · intro hdvd w hw hpoint
    rw [hiff w hw hpoint, Nat.dvd_iff_mod_eq_zero.mp hdvd, Nat.mul_zero]
    decide

/-- The rate of the examples in the README, after 25 minutes. -/
theorem inPace_default : ∃ w,
    Reachable Reference.codec 0x100 (blockOti defaultBlockSize symbolSize) w ∧
      w.point = .polling ∧ w.wire.length = 50000000 ∧ InPace 50000000 w := by
  obtain ⟨w, hw, hpoint, hlen⟩ := exists_reachable Reference.codec 0x100
    (blockOti defaultBlockSize symbolSize) 50000000
  exact ⟨w, hw, hpoint, hlen, (inPace_iff _ _ _ (by decide)).2.mpr (by decide) w hw hpoint⟩

/-- At one bit per second less. -/
theorem not_inPace_long_run : ∃ w,
    Reachable Reference.codec 0x100 (blockOti defaultBlockSize symbolSize) w ∧
      w.point = .polling ∧ w.wire.length = 50000000 ∧ ¬ InPace 49999999 w := by
  obtain ⟨w, hw, hpoint, hlen⟩ := exists_reachable Reference.codec 0x100
    (blockOti defaultBlockSize symbolSize) 50000000
  refine ⟨w, hw, hpoint, hlen, fun h => ?_⟩
  have hlt := (hw.counted.inPace_iff_dropped (by decide) hpoint).mp h
  rw [hlen] at hlt
  exact absurd hlt (by decide)

end Writer

end RaptorqTs.Enc
