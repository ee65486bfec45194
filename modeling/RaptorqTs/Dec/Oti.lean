import RaptorqTs.Common.Reference

/-!
# The OTI filter

`otiIsSane` stands between the OTI field of a received frame and the FEC crate. It looks
at the symbol size and at the transfer length; the other three fields pass unchecked.
-/

namespace RaptorqTs

/-- Largest number of source symbols per block the crate accepts. -/
def maxSourceSymbolsPerBlock : ℕ := 56403

/-- `oti_is_sane`. -/
def otiIsSane (oti : ObjectTransmissionInformation) : Bool :=
  if oti.symbolSize ≠ symbolSize then false
  else
    let sym := symbolSize
    let transfer := oti.transferLength
    decide (0 < transfer ∧ transfer % sym = 0 ∧ transfer / sym ≤ maxSourceSymbolsPerBlock)

/-- What the filter admits: the wire's symbol size, and a whole number of symbols in the
range of the crate. -/
theorem otiIsSane_iff {oti : ObjectTransmissionInformation} :
    otiIsSane oti = true ↔ oti.symbolSize = symbolSize ∧
      ∃ k, 1 ≤ k ∧ k ≤ maxSourceSymbolsPerBlock ∧ oti.transferLength = k * symbolSize := by
  unfold otiIsSane
  by_cases hsym : oti.symbolSize = symbolSize
  · simp only [hsym, ne_eq, not_true_eq_false, if_false, decide_eq_true_eq, true_and]
    constructor
    · rintro ⟨hpos, hmod, hle⟩
      have hdiv := Nat.div_add_mod' oti.transferLength symbolSize
      rw [hmod, Nat.add_zero] at hdiv
      refine ⟨oti.transferLength / symbolSize, ?_, hle, hdiv.symm⟩
      exact Nat.div_pos (Nat.le_of_dvd hpos (Nat.dvd_of_mod_eq_zero hmod)) symbolSize_pos
    · rintro ⟨k, hk, hle, htransfer⟩
      rw [htransfer, Nat.mul_mod_left, Nat.mul_div_cancel _ symbolSize_pos]
      exact ⟨Nat.mul_pos hk symbolSize_pos, rfl, hle⟩
  · simp [hsym]

/-- The number of source symbols that a sane OTI announces. -/
lemma otiIsSane_blockSymbols {oti : ObjectTransmissionInformation} (h : otiIsSane oti = true) :
    oti.transferLength / oti.symbolSize * symbolSize = oti.transferLength ∧
      oti.transferLength / oti.symbolSize ≤ maxSourceSymbolsPerBlock := by
  obtain ⟨hsym, k, -, hle, htransfer⟩ := otiIsSane_iff.mp h
  rw [hsym, htransfer, Nat.mul_div_cancel _ symbolSize_pos]
  exact ⟨rfl, hle⟩

/-- The encoder's OTI passes, for every block size in range. -/
lemma otiIsSane_blockOti {k : ℕ} (hk : 1 ≤ k) (hle : k ≤ maxSourceSymbolsPerBlock) :
    otiIsSane (blockOti (k * symbolSize) symbolSize) = true :=
  otiIsSane_iff.mpr ⟨rfl, k, hk, hle, rfl⟩

lemma blockOti_inRange {k : ℕ} (hle : k ≤ maxSourceSymbolsPerBlock) :
    (blockOti (k * symbolSize) symbolSize).InRange := by
  have h : k * symbolSize ≤ maxSourceSymbolsPerBlock * symbolSize := Nat.mul_le_mul_right _ hle
  have hmax : maxSourceSymbolsPerBlock * symbolSize < 2 ^ 40 := by decide
  have hsym : symbolSize < 2 ^ 16 := by decide
  have hone : 1 < 2 ^ 8 := by decide
  exact ⟨lt_of_le_of_lt h hmax, hsym, hone, lt_trans hone (by decide), hone⟩

/-- The crate refuses the blocks that the filter would refuse. -/
lemma makeBlockOti_eq_some {k : ℕ} {oti : ObjectTransmissionInformation} :
    makeBlockOti (k * symbolSize) symbolSize = some oti ↔
      k ≤ maxSourceSymbolsPerBlock ∧ blockOti (k * symbolSize) symbolSize = oti := by
  have hceil : (k * symbolSize) ⌈/⌉ symbolSize ⌈/⌉ 1 = k := by
    rw [ceilDiv_one, Nat.ceilDiv_eq_add_pred_div, symbolSize_eq]
    omega
  unfold makeBlockOti ObjectTransmissionInformation.new
  rw [hceil]
  by_cases hle : k ≤ maxSourceSymbolsPerBlock
  · -- the length is bounded by the number of symbols
    have hlength : k * symbolSize ≤ 942574504275 := by
      unfold maxSourceSymbolsPerBlock at hle
      rw [symbolSize_eq]
      omega
    rw [if_pos ⟨hlength, one_ne_zero, Nat.mod_one _, fun _ _ => hle⟩, Option.some_inj]
    exact (and_iff_right hle).symm
  · rw [if_neg fun h => hle (h.2.2.2 symbolSize_pos.ne' one_ne_zero)]
    simp [hle]

/-! ## Against the bytes of the field -/

/-- What the filter is meant for, on the OTI field `b`: it admits the OTIs of the encoder and
no others, so that the FEC crate never divides by a zero in them. -/
structure AdmitsEncoderOnly (w : WireCodec) (b : Vector UInt8 12) : Prop where
  sane_iff : otiIsSane (w.deserializeOti b) = true ↔
    ∃ k, 1 ≤ k ∧ k ≤ maxSourceSymbolsPerBlock ∧
      w.deserializeOti b = blockOti (k * symbolSize) symbolSize
  layout : otiIsSane (w.deserializeOti b) = true →
    (w.deserializeOti b).sourceBlocks = 1 ∧ (w.deserializeOti b).subBlocks = 1 ∧
      (w.deserializeOti b).symbolAlignment = 1

/-- The size bytes of the field are those of an encoder's OTI. -/
def EncoderSizes (b : Vector UInt8 12) : Prop :=
  (∃ k, 1 ≤ k ∧ k ≤ maxSourceSymbolsPerBlock ∧
    bigEndian [octet b 0, octet b 1, octet b 2, octet b 3, octet b 4] = k * symbolSize) ∧
    octet b 6 = 0 ∧ octet b 7 = 167

/-- The layout bytes of the field are those of an encoder's OTI. -/
def EncoderLayout (b : Vector UInt8 12) : Prop :=
  octet b 8 = 1 ∧ octet b 9 = 0 ∧ octet b 10 = 1 ∧ octet b 11 = 1

lemma bigEndian_pair_eq {x y : UInt8} {hi lo : ℕ} (hlo : lo < 256) :
    bigEndian [x, y] = hi * 256 + lo ↔ x.toNat = hi ∧ y.toNat = lo := by
  have hy := y.toNat_lt
  simp only [bigEndian, List.foldl_cons, List.foldl_nil, Nat.zero_mul, Nat.zero_add]
  omega

section Bytes

variable {w : WireCodec} (hw : w.ReadsFields) (b : Vector UInt8 12)
include hw

/-- The filter reads the size bytes only. -/
lemma otiIsSane_deserialize : otiIsSane (w.deserializeOti b) = true ↔ EncoderSizes b := by
  have hsize : bigEndian [octet b 6, octet b 7] = symbolSize ↔ octet b 6 = 0 ∧ octet b 7 = 167 := by
    rw [show symbolSize = 0 * 256 + 167 from rfl, bigEndian_pair_eq (by decide)]
    simp [← UInt8.toNat_inj]
  rw [otiIsSane_iff, hw.symbolSize, hw.transferLength, hsize]
  exact and_comm

/-- The layout bytes and the three fields that go unchecked. -/
lemma encoderLayout_iff : EncoderLayout b ↔ (w.deserializeOti b).sourceBlocks = 1 ∧
    (w.deserializeOti b).subBlocks = 1 ∧ (w.deserializeOti b).symbolAlignment = 1 := by
  have hone : ∀ x : UInt8, bigEndian [x] = 1 ↔ x = 1 := by
    intro x
    simp [bigEndian, ← UInt8.toNat_inj]
  have hpair : bigEndian [octet b 9, octet b 10] = 0 * 256 + 1 ↔
      (octet b 9).toNat = 0 ∧ (octet b 10).toNat = 1 :=
    bigEndian_pair_eq (by decide)
  have hsub : bigEndian [octet b 9, octet b 10] = 1 ↔ octet b 9 = 0 ∧ octet b 10 = 1 := by
    rw [← UInt8.toNat_inj, ← UInt8.toNat_inj]
    exact hpair
  rw [hw.sourceBlocks, hw.subBlocks, hw.symbolAlignment, hone, hone, hsub, EncoderLayout,
    and_assoc]

/-- **The OTI filter.** It admits the encoder's OTIs and no others exactly on the fields whose
layout bytes are the encoder's whenever the size bytes are. -/
theorem admitsEncoderOnly_iff : AdmitsEncoderOnly w b ↔ (EncoderSizes b → EncoderLayout b) := by
  rw [encoderLayout_iff hw, ← otiIsSane_deserialize hw]
  refine ⟨fun h => h.layout, fun h => ⟨⟨fun hsane => ?_, ?_⟩, h⟩⟩
  · obtain ⟨hsym, k, hk, hle, htransfer⟩ := otiIsSane_iff.mp hsane
    obtain ⟨hblocks, hsub, halign⟩ := h hsane
    refine ⟨k, hk, hle, ?_⟩
    calc w.deserializeOti b
        = ⟨(w.deserializeOti b).transferLength, (w.deserializeOti b).symbolSize,
            (w.deserializeOti b).sourceBlocks, (w.deserializeOti b).subBlocks,
            (w.deserializeOti b).symbolAlignment⟩ := rfl
      _ = blockOti (k * symbolSize) symbolSize := by
        rw [htransfer, hsym, hblocks, hsub, halign, blockOti]
  · rintro ⟨k, hk, hle, hoti⟩
    rw [hoti]
    exact otiIsSane_blockOti hk hle

end Bytes

/-- The field of the default block size. -/
def defaultOtiBytes : Vector UInt8 12 := #v[0, 0, 0, 0xFF, 0xB8, 0, 0, 167, 1, 0, 1, 1]

theorem admitsEncoderOnly_default : AdmitsEncoderOnly Reference.codec defaultOtiBytes :=
  (admitsEncoderOnly_iff Reference.codec_readsFields defaultOtiBytes).mpr fun _ => by
    exact ⟨rfl, rfl, rfl, rfl⟩

/-- The same field with its last byte, the alignment, lost. -/
def zeroAlignmentBytes : Vector UInt8 12 := #v[0, 0, 0, 0xFF, 0xB8, 0, 0, 167, 1, 0, 1, 0]

/-- The alignment is zero, and the filter lets the field through. -/
theorem admitsEncoderOnly_zero_alignment :
    otiIsSane (Reference.codec.deserializeOti zeroAlignmentBytes) = true ∧
      (Reference.codec.deserializeOti zeroAlignmentBytes).symbolAlignment = 0 ∧
      ¬ AdmitsEncoderOnly Reference.codec zeroAlignmentBytes := by
  have hsane : otiIsSane (Reference.codec.deserializeOti zeroAlignmentBytes) = true := by
    decide
  have halign : (Reference.codec.deserializeOti zeroAlignmentBytes).symbolAlignment = 0 := by
    decide
  refine ⟨hsane, halign, fun h => ?_⟩
  have hone := (h.layout hsane).2.2
  rw [halign] at hone
  cases hone

end RaptorqTs
