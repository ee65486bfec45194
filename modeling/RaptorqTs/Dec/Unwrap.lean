import RaptorqTs.Dec.Sbn
import RaptorqTs.Enc.Encoder

/-!
# Unwrapping block numbers in machine integers

`unwrapSbn` takes its sums over `ℤ`. The code adds in `i64`, so the two agree up to the largest
cursors whose half period fits there.
-/

namespace RaptorqTs

/-- `unwrap_sbn`, in a release build. -/
def unwrapSbnU64 (cursor : UInt64) (sbnU8 : UInt8) : UInt64 :=
  let cursorLow : UInt8 := (cursor &&& 0xFF).toUInt8
  let diff : Int64 := (sbnU8 - cursorLow).toInt8.toInt64
  (max (cursor.toInt64 + diff) 0).toUInt64

/-- What is left of a clamped `i64` when it is cast back. -/
lemma toNat_toUInt64_max (x : Int64) : (max x 0).toUInt64.toNat = x.toInt.toNat := by
  by_cases hle : x ≤ 0
  · have hmax : max x 0 = 0 := if_pos hle
    have hint : x.toInt ≤ 0 := Int64.le_iff_toInt_le.mp hle
    rw [hmax, Int.toNat_of_nonpos hint]
    rfl
  · have hmax : max x 0 = x := if_neg hle
    have hint : ¬ x.toInt ≤ 0 := fun h => hle (Int64.le_iff_toInt_le.mpr h)
    rw [hmax, Int64.toNat_toUInt64_of_le]
    · rfl
    · exact Int64.le_iff_toInt_le.mpr (by show 0 ≤ x.toInt; omega)

/-- The sum is taken modulo `2^64`, and read as a signed number. -/
lemma unwrapSbnU64_spec (cursor : UInt64) (sbnU8 : UInt8) :
    ∃ diff : ℤ, -128 ≤ diff ∧ diff ≤ 127 ∧ ((cursor.toNat : ℤ) + diff) % 256 = sbnU8.toNat ∧
      unwrapSbn cursor.toNat sbnU8 = (max ((cursor.toNat : ℤ) + diff) 0).toNat ∧
      (unwrapSbnU64 cursor sbnU8).toNat =
        (((cursor.toNat : ℤ) + diff).bmod (2 ^ 64)).toNat := by
  obtain ⟨hlo, hhi, hmod⟩ := signedDiff_spec cursor.toNat sbnU8
  refine ⟨_, hlo, hhi, hmod, rfl, ?_⟩
  have hlow : (cursor &&& 0xFF).toUInt8 = UInt8.ofNat (cursor.toNat &&& 0xFF) := by
    apply UInt8.toNat_inj.mp
    simp
  have hcursor : cursor.toInt64.toInt = (cursor.toNat : ℤ).bmod (2 ^ 64) := by
    show cursor.toBitVec.toInt = _
    rw [BitVec.toInt_eq_toNat_bmod]
    rfl
  unfold unwrapSbnU64
  rw [toNat_toUInt64_max, Int64.toInt_add, Int8.toInt_toInt64, hlow, hcursor, Int.bmod_add_bmod]
  rfl

/-- **The naturals are enough** for cursors whose half period fits in an `i64`. -/
theorem toNat_unwrapSbnU64 {cursor : UInt64} (h : cursor.toNat + 128 ≤ 2 ^ 63)
    (sbnU8 : UInt8) : (unwrapSbnU64 cursor sbnU8).toNat = unwrapSbn cursor.toNat sbnU8 := by
  obtain ⟨diff, hlo, hhi, -, hnat, hu64⟩ := unwrapSbnU64_spec cursor sbnU8
  rw [hu64, hnat, Int.bmod_eq_of_le (by omega) (by omega)]
  omega

/-- For larger cursors, half a period on, the sum is out of range. -/
lemma unwrapSbnU64_wrapped {cursor : UInt64} (h : ¬ cursor.toNat + 128 ≤ 2 ^ 63) :
    (unwrapSbnU64 cursor (sbnOf (cursor.toNat + 127))).toNat ≤ 126 := by
  obtain ⟨diff, hlo, hhi, hmod, -, hu64⟩ :=
    unwrapSbnU64_spec cursor (sbnOf (cursor.toNat + 127))
  have hlt := cursor.toNat_lt
  have hdiff : diff = 127 := by
    rw [toNat_sbnOf] at hmod
    omega
  have hbmod : ((cursor.toNat : ℤ) + diff).bmod (2 ^ 64) = cursor.toNat + diff - (2 ^ 64 : ℕ) := by
    rw [← Int.sub_bmod_right, Int.bmod_eq_of_le (by omega) (by omega)]
  rw [hu64, hbmod, hdiff]
  omega

/-! ## The encoder's numbers -/

/-- A `u8` that is advanced `n` times. -/
lemma iterate_wrapping_add (n : ℕ) : (fun sbn : UInt8 => sbn + 1)^[n] 0 = sbnOf n := by
  induction n with
  | zero => rfl
  | succ n ih => rw [Function.iterate_succ_apply', ih, sbnOf_succ]

namespace Enc.Encoder

variable {E R : Type} {enc : SourceBlockEncoder E} {coin : R → Bool × R} {args : Params}
  {s s' : Encoder E R}

/-- The SBN counts the blocks received, of which the last is still being emitted. -/
def Numbered (s : Encoder E R) : Prop :=
  match s.point with
  | .receiving | .sendingExtra _ _ => s.sbn = sbnOf s.received.length
  | .emitting _ _ => ∃ n, s.received.length = n + 1 ∧ s.sbn = sbnOf n
  | .exited => True

lemma Numbered.step {a : EncoderAction} (h : s.Numbered)
    (hstep : Encoder.step enc coin args s a = some s') : s'.Numbered := by
  unfold Numbered at h
  cases step_moves hstep with
  | recv hpoint =>
    rw [hpoint] at h
    exact ⟨s.received.length, List.length_append, h⟩
  | nap hpoint _ _ =>
    rw [hpoint] at h
    unfold Numbered
    simp only [hpoint]
    exact h
  | @mint _ _ _ bg hpoint _ _ _ =>
    rw [hpoint] at h
    unfold Numbered
    cases (enc.repairPackets bg.encoder bg.nextRepairId 1).getLast? with
    | none => exact h
    | some packet => exact h
  | send hpoint _ =>
    rw [hpoint] at h
    exact h
  | finish hpoint _ =>
    rw [hpoint] at h
    obtain ⟨n, hlen, hsbn⟩ := h
    show s.sbn + 1 = sbnOf s.received.length
    rw [hlen, hsbn, sbnOf_succ]
  | sendExtra hpoint =>
    rw [hpoint] at h
    exact h
  | exit _ => trivial

theorem numbered_of_reachable {rng : R}
    (h : Machine.Reachable (Encoder.step enc coin args) (Encoder.init rng) s) : s.Numbered :=
  Machine.Reachable.invariant (P := Numbered) (show (init rng).Numbered from rfl)
    (fun _ _ _ _ ih hstep => ih.step hstep) h

end Enc.Encoder

/-! ## Unwrapping -/

/-- Within half a period of the cursor. -/
lemma toNat_unwrapSbnU64_sbnOf {cursor : UInt64} {t : ℕ} (hcursor : cursor.toNat + 128 ≤ 2 ^ 63)
    (hlo : cursor.toNat ≤ t + 128) (hhi : t ≤ cursor.toNat + 127) :
    (unwrapSbnU64 cursor (sbnOf t)).toNat = t := by
  rw [toNat_unwrapSbnU64 hcursor, unwrapSbn_sbnOf hlo hhi]

/-- **Unwrapping.** For a cursor below `2^62` the number of every block within half a period is
got back from its SBN. The result is within half a period of the cursor for every SBN exactly as
long as the half period behind the cursor fits in an `i64`. So the numbers that the decoder
unwraps, from cursors that stay within half a period of the blocks, are those that the encoder
counts, although its SBN wraps. -/
theorem unwrap_sbn_undoes_wrap :
    (∀ (cursor : UInt64) (t : ℕ), cursor.toNat < 2 ^ 62 → cursor.toNat ≤ t + 128 →
      t ≤ cursor.toNat + 127 → (unwrapSbnU64 cursor (UInt8.ofNat (t % 256))).toNat = t) ∧
    (∀ cursor : UInt64,
      (∀ sbnU8, cursor.toNat ≤ (unwrapSbnU64 cursor sbnU8).toNat + 128 ∧
        (unwrapSbnU64 cursor sbnU8).toNat ≤ cursor.toNat + 127) ↔
      cursor.toNat + 128 ≤ 2 ^ 63) ∧
    (∀ (cursors : ℕ → UInt64) (blocks : ℕ → ℕ),
      (∀ i, (cursors i).toNat + 128 ≤ 2 ^ 63 ∧ (cursors i).toNat ≤ blocks i + 128 ∧
        blocks i ≤ (cursors i).toNat + 127) →
      ∀ i, (unwrapSbnU64 (cursors i) ((fun sbn : UInt8 => sbn + 1)^[blocks i] 0)).toNat =
        blocks i) ∧
    ∀ (E R : Type) (enc : SourceBlockEncoder E) (coin : R → Bool × R) (args : Enc.Params)
      (rng : R) (s : Enc.Encoder E R) (encoder : E) (packets : Enc.Interleave) (cursor : UInt64),
      Machine.Reachable (Enc.Encoder.step enc coin args) (Enc.Encoder.init rng) s →
      s.point = .emitting encoder packets → cursor.toNat + 128 ≤ 2 ^ 63 →
      cursor.toNat ≤ s.received.length - 1 + 128 → s.received.length - 1 ≤ cursor.toNat + 127 →
      (unwrapSbnU64 cursor s.sbn).toNat = s.received.length - 1 := by
  refine ⟨?_, ?_, ?_, ?_⟩
  · intro cursor t hcursor hlo hhi
    have hsbn : UInt8.ofNat (t % 256) = sbnOf t := by
      apply UInt8.toNat_inj.mp
      rw [toNat_sbnOf, UInt8.toNat_ofNat', Nat.mod_mod]
    rw [hsbn, toNat_unwrapSbnU64_sbnOf (by omega) hlo hhi]
  · intro cursor
    constructor
    · intro hnear
      by_contra hlarge
      have hle := unwrapSbnU64_wrapped hlarge
      have hcursor := (hnear (sbnOf (cursor.toNat + 127))).1
      omega
    · intro hfit sbnU8
      rw [toNat_unwrapSbnU64 hfit]
      exact unwrapSbn_near cursor.toNat sbnU8
  · intro cursors blocks hwindow i
    obtain ⟨hcursor, hlo, hhi⟩ := hwindow i
    rw [iterate_wrapping_add, toNat_unwrapSbnU64_sbnOf hcursor hlo hhi]
  · intro E R enc coin args rng s encoder packets cursor hreach hpoint hcursor hlo hhi
    have hnumbered := Enc.Encoder.numbered_of_reachable hreach
    unfold Enc.Encoder.Numbered at hnumbered
    rw [hpoint] at hnumbered
    obtain ⟨n, hlen, hsbn⟩ := hnumbered
    rw [hlen, Nat.add_sub_cancel] at hlo hhi ⊢
    rw [hsbn, toNat_unwrapSbnU64_sbnOf hcursor hlo hhi]

/-- Half a period after the 300th block, its SBN having wrapped once. -/
theorem unwrap_sbn_undoes_wrap_300 : (unwrapSbnU64 300 (UInt8.ofNat (427 % 256))).toNat = 427 :=
  unwrap_sbn_undoes_wrap.1 300 427 (by decide) (by decide) (by decide)

/-- A cursor that is negative as an `i64` is clamped. -/
theorem unwrap_sbn_far : ¬ ∀ (cursor : UInt64) (sbnU8 : UInt8),
    cursor.toNat ≤ (unwrapSbnU64 cursor sbnU8).toNat + 128 ∧
      (unwrapSbnU64 cursor sbnU8).toNat ≤ cursor.toNat + 127 := by
  intro h
  have hcursor := (h 0x8000000000000000 0).1
  revert hcursor
  decide +kernel

end RaptorqTs
