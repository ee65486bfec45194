import RaptorqTs.Common.Raptorq
import Mathlib.Order.Nat

/-!
# Source block numbers and continuity counters

The encoder numbers blocks with a wrapping `u8`; the decoder counts them in a `u64`.
`unwrapSbn` picks the block number nearest to the decoder's cursor with the SBN of the
frame, and clamps it at zero. The sums are taken over `ℤ`: `cursor as i64` is exact as
long as fewer than `2^63` blocks have been emitted.
-/

namespace RaptorqTs

/-- `unwrap_sbn`. -/
def unwrapSbn (cursor : ℕ) (sbnU8 : UInt8) : ℕ :=
  let cursorLow : UInt8 := UInt8.ofNat (cursor &&& 0xFF)
  let diff : ℤ := (sbnU8 - cursorLow).toInt8.toInt
  (max ((cursor : ℤ) + diff) 0).toNat

/-- The SBN the encoder gives to the block with index `t`. -/
def sbnOf (t : ℕ) : UInt8 := UInt8.ofNat t

@[simp] lemma toNat_sbnOf (t : ℕ) : (sbnOf t).toNat = t % 256 := by
  simp [sbnOf]

lemma sbnOf_succ (t : ℕ) : sbnOf (t + 1) = sbnOf t + 1 := by
  apply UInt8.toNat_inj.mp
  simp [sbnOf]

/-- Reinterpreting a byte as `i8`. -/
lemma toInt_toInt8 (x : UInt8) :
    x.toInt8.toInt = if x.toNat < 128 then (x.toNat : ℤ) else x.toNat - 256 := by
  have h : x.toInt8.toInt = x.toBitVec.toInt := rfl
  rw [h, BitVec.toInt_eq_toNat_cond]
  have hx : x.toBitVec.toNat = x.toNat := rfl
  rw [hx]
  split <;> split <;> omega

/-- What is added to the cursor. -/
def signedDiff (cursor : ℕ) (sbnU8 : UInt8) : ℤ :=
  (sbnU8 - UInt8.ofNat (cursor &&& 0xFF)).toInt8.toInt

/-- It is a signed byte, and it makes the sum congruent to the SBN. -/
lemma signedDiff_spec (cursor : ℕ) (sbnU8 : UInt8) :
    -128 ≤ signedDiff cursor sbnU8 ∧ signedDiff cursor sbnU8 ≤ 127 ∧
      ((cursor : ℤ) + signedDiff cursor sbnU8) % 256 = sbnU8.toNat := by
  unfold signedDiff
  rw [toInt_toInt8, UInt8.toNat_sub, UInt8.toNat_ofNat']
  have hlow : cursor &&& 0xFF = cursor % 256 := Nat.and_two_pow_sub_one_eq_mod cursor 8
  have hs := sbnU8.toNat_lt
  rw [hlow]
  split <;> omega

/-- `unwrapSbn` in integers, the sum being clamped at zero. -/
lemma unwrapSbn_spec (cursor : ℕ) (sbnU8 : UInt8) :
    ∃ diff : ℤ, -128 ≤ diff ∧ diff ≤ 127 ∧ ((cursor : ℤ) + diff) % 256 = sbnU8.toNat ∧
      unwrapSbn cursor sbnU8 = (max ((cursor : ℤ) + diff) 0).toNat := by
  obtain ⟨hlo, hhi, hmod⟩ := signedDiff_spec cursor sbnU8
  exact ⟨_, hlo, hhi, hmod, rfl⟩

/-- **Unwrapping undoes the wrap** within half a period of the cursor. -/
theorem unwrapSbn_sbnOf {cursor t : ℕ} (hlo : cursor ≤ t + 128) (hhi : t ≤ cursor + 127) :
    unwrapSbn cursor (sbnOf t) = t := by
  obtain ⟨diff, h₁, h₂, hmod, h⟩ := unwrapSbn_spec cursor (sbnOf t)
  rw [toNat_sbnOf] at hmod
  have hsum : (cursor : ℤ) + diff = t := by omega
  rw [h, hsum]
  omega

/-- The unwrapped number stays within half a period of the cursor. -/
theorem unwrapSbn_near (cursor : ℕ) (sbnU8 : UInt8) :
    cursor ≤ unwrapSbn cursor sbnU8 + 128 ∧ unwrapSbn cursor sbnU8 ≤ cursor + 127 := by
  obtain ⟨diff, h₁, h₂, -, h⟩ := unwrapSbn_spec cursor sbnU8
  omega

/-- The unwrapped number has the SBN of the frame unless the clamp was needed. -/
theorem unwrapSbn_mod_or_clamped (cursor : ℕ) (sbnU8 : UInt8) :
    unwrapSbn cursor sbnU8 % 256 = sbnU8.toNat ∨
      (unwrapSbn cursor sbnU8 = 0 ∧ cursor < 128 ∧ cursor + 128 ≤ sbnU8.toNat) := by
  obtain ⟨diff, h₁, h₂, hmod, h⟩ := unwrapSbn_spec cursor sbnU8
  have hs := sbnU8.toNat_lt
  omega

/-- At cursor zero, exactly the SBNs of the upper half are clamped. -/
lemma unwrapSbn_zero_of_ge {sbnU8 : UInt8} (h : 128 ≤ sbnU8.toNat) : unwrapSbn 0 sbnU8 = 0 := by
  obtain ⟨diff, h₁, h₂, hmod, heq⟩ := unwrapSbn_spec 0 sbnU8
  have hs := sbnU8.toNat_lt
  omega

example : unwrapSbn 300 50 = 306 ∧ unwrapSbn 300 44 = 300 ∧ unwrapSbn 300 200 = 200 := by decide

/-! ## Continuity counters -/

/-- `cc_gap`: the packets missed since the previous one, and the new `last_cc`. -/
def ccGap (lastCc : Option UInt8) (cc : UInt8) : ℕ × Option UInt8 :=
  let gap :=
    match lastCc with
    | some prev =>
      let expected := (prev + 1) &&& 0x0F
      (cc - expected).toNat &&& 0x0F
    | none => 0
  (gap, some cc)

end RaptorqTs
