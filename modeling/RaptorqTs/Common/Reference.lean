import RaptorqTs.Common.Wire
import Mathlib.Tactic.IntervalCases

/-!
# A reference instance of the crate's interface

The layout of the two header fields, and the plainest systematic code there is:
the encoding symbol with ESI `e` of a block of `k` symbols is its source symbol `e % k`.
The instance satisfies all the laws, so they can be assumed together, and it computes.
-/

namespace RaptorqTs.Reference

/-! ## Header fields -/

/-- Byte `i` of `n`, counted from the least significant one. -/
def byteAt (n i : ℕ) : UInt8 := UInt8.ofNat (n / 256 ^ i)

@[simp] lemma toNat_byteAt (n i : ℕ) : (byteAt n i).toNat = n / 256 ^ i % 256 := by
  simp [byteAt]

/-- The 12 bytes of the FEC OTI; byte 5 is reserved. -/
def serializeOti (oti : ObjectTransmissionInformation) : Vector UInt8 12 :=
  #v[byteAt oti.transferLength 4, byteAt oti.transferLength 3, byteAt oti.transferLength 2,
    byteAt oti.transferLength 1, byteAt oti.transferLength 0, 0,
    byteAt oti.symbolSize 1, byteAt oti.symbolSize 0, byteAt oti.sourceBlocks 0,
    byteAt oti.subBlocks 1, byteAt oti.subBlocks 0, byteAt oti.symbolAlignment 0]

/-- The fields at their offsets, without validation. -/
def deserializeOti (b : Vector UInt8 12) : ObjectTransmissionInformation where
  transferLength := (octet b 0).toNat * 2 ^ 32 + (octet b 1).toNat * 2 ^ 24
    + (octet b 2).toNat * 2 ^ 16 + (octet b 3).toNat * 2 ^ 8 + (octet b 4).toNat
  symbolSize := (octet b 6).toNat * 2 ^ 8 + (octet b 7).toNat
  sourceBlocks := (octet b 8).toNat
  subBlocks := (octet b 9).toNat * 2 ^ 8 + (octet b 10).toNat
  symbolAlignment := (octet b 11).toNat

def serializePayloadId (id : PayloadId) : Vector UInt8 4 :=
  #v[id.sourceBlockNumber, byteAt id.encodingSymbolId 2, byteAt id.encodingSymbolId 1,
    byteAt id.encodingSymbolId 0]

def deserializePayloadId (b : Vector UInt8 4) : PayloadId where
  sourceBlockNumber := octet b 0
  encodingSymbolId := (octet b 1).toNat * 2 ^ 16 + (octet b 2).toNat * 2 ^ 8 + (octet b 3).toNat

def codec : WireCodec where
  serializeOti := serializeOti
  deserializeOti := deserializeOti
  serializePayloadId := serializePayloadId
  deserializePayloadId := deserializePayloadId

theorem codec_laws : codec.Laws where
  oti_roundtrip oti h := by
    obtain ⟨h₁, h₂, h₃, h₄, h₅⟩ := h
    obtain ⟨transfer, size, blocks, sub, align⟩ := oti
    simp only at h₁ h₂ h₃ h₄ h₅
    show ObjectTransmissionInformation.mk
      ((byteAt transfer 4).toNat * 2 ^ 32 + (byteAt transfer 3).toNat * 2 ^ 24
        + (byteAt transfer 2).toNat * 2 ^ 16 + (byteAt transfer 1).toNat * 2 ^ 8
        + (byteAt transfer 0).toNat)
      ((byteAt size 1).toNat * 2 ^ 8 + (byteAt size 0).toNat) (byteAt blocks 0).toNat
      ((byteAt sub 1).toNat * 2 ^ 8 + (byteAt sub 0).toNat) (byteAt align 0).toNat = _
    simp only [toNat_byteAt, ObjectTransmissionInformation.mk.injEq]
    omega
  payloadId_roundtrip id h := by
    obtain ⟨sbn, esi⟩ := id
    simp only at h
    show PayloadId.mk sbn ((byteAt esi 2).toNat * 2 ^ 16 + (byteAt esi 1).toNat * 2 ^ 8
      + (byteAt esi 0).toNat) = _
    simp only [toNat_byteAt, PayloadId.mk.injEq, true_and]
    omega

/-- A base-256 digit of a number is the byte it is made of. -/
lemma byteAt_eq {n i : ℕ} {b : UInt8} (h : n / 256 ^ i % 256 = b.toNat) : byteAt n i = b := by
  apply UInt8.toNat_inj.mp
  rw [toNat_byteAt, h]

lemma ext_octet {n : ℕ} {b b' : Vector UInt8 n} (h : ∀ i < n, octet b i = octet b' i) :
    b = b' := by
  apply Vector.ext
  intro i hi
  have := h i hi
  simpa [octet, hi] using this

theorem codec_inverseLaws : codec.InverseLaws where
  oti_bytes b hreserved := by
    have h (j : ℕ) := (octet b j).toNat_lt
    have hlow := And.intro (h 0) (And.intro (h 1) (And.intro (h 2) (And.intro (h 3) (h 4))))
    have hmid := And.intro (h 6) (And.intro (h 7) (h 8))
    have hhigh := And.intro (h 9) (And.intro (h 10) (h 11))
    have hbytes : serializeOti (deserializeOti b) =
        #v[octet b 0, octet b 1, octet b 2, octet b 3, octet b 4, octet b 5, octet b 6, octet b 7,
          octet b 8, octet b 9, octet b 10, octet b 11] := by
      unfold serializeOti deserializeOti
      rw [show octet b 5 = 0 from hreserved]
      congr 2
      simp only [List.cons.injEq, and_true, true_and]
      refine ⟨?_, ?_, ?_, ?_, ?_, ?_, ?_, ?_, ?_, ?_, ?_⟩ <;> apply byteAt_eq <;> omega
    show serializeOti (deserializeOti b) = b
    rw [hbytes]
    apply ext_octet
    intro i hi
    interval_cases i <;> rfl
  payloadId_bytes b := by
    have h (j : ℕ) := (octet b j).toNat_lt
    have hesi := And.intro (h 1) (And.intro (h 2) (h 3))
    have hbytes : serializePayloadId (deserializePayloadId b) =
        #v[octet b 0, octet b 1, octet b 2, octet b 3] := by
      unfold serializePayloadId deserializePayloadId
      congr 2
      simp only [List.cons.injEq, and_true, true_and]
      refine ⟨?_, ?_, ?_⟩ <;> apply byteAt_eq <;> omega
    show serializePayloadId (deserializePayloadId b) = b
    rw [hbytes]
    apply ext_octet
    intro i hi
    interval_cases i <;> rfl

theorem codec_readsFields : codec.ReadsFields where
  transferLength b := by simp [codec, deserializeOti, bigEndian]; omega
  symbolSize b := by simp [codec, deserializeOti, bigEndian]
  sourceBlocks b := by simp [codec, deserializeOti, bigEndian]
  subBlocks b := by simp [codec, deserializeOti, bigEndian]
  symbolAlignment b := by simp [codec, deserializeOti, bigEndian]

/-! ## The code -/

def code : FountainCode where
  symbol k block esi := slice block (esi % k * symbolSize) symbolSize
  Sufficient k esis := ∀ i < k, ∃ e ∈ esis, e % k = i

lemma fit_symbol {k i : ℕ} (hi : i < k) : i * symbolSize + symbolSize ≤ k * symbolSize := by
  rw [← Nat.succ_mul]
  exact Nat.mul_le_mul_right _ hi

theorem code_laws : code.Laws symbolSize where
  symbol_length hk hblock := length_slice (by
    rw [hblock]
    exact fit_symbol (Nat.mod_lt _ hk))
  systematic _ hesi := by simp only [code, Nat.mod_eq_of_lt hesi]

theorem code_monotone (k : ℕ) : code.Monotone k := by
  intro s t hst hsuff i hi
  obtain ⟨e, he, hmod⟩ := hsuff i hi
  exact ⟨e, hst he, hmod⟩

/-! ## The decoder -/

/-- The positions received so far, the latest first. -/
structure Decoder where
  sbn : UInt8
  length : ℕ
  symbols : List (ℕ × Bytes)

/-- Cut or fill up to `n` bytes. -/
def fit (n : ℕ) (bytes : Bytes) : Bytes := (bytes ++ List.replicate n 0).take n

lemma length_fit (n : ℕ) (bytes : Bytes) : (fit n bytes).length = n := by
  simp [fit]

lemma fit_of_length {n : ℕ} {bytes : Bytes} (h : bytes.length = n) : fit n bytes = bytes := by
  rw [fit, List.take_append_of_le_length (le_of_eq h.symm), List.take_of_length_le (le_of_eq h)]

/-- The block, if every position has been received. -/
def Decoder.assemble (d : Decoder) : Option Bytes :=
  let parts := (List.range (d.length / symbolSize)).map fun i => d.symbols.lookup i
  if parts.all Option.isSome then some (fit d.length (parts.flatMap (·.getD []))) else none

def Decoder.feed (d : Decoder) (pkt : EncodingPacket) : Decoder :=
  let position := pkt.payloadId.encodingSymbolId % (d.length / symbolSize)
  { d with symbols := (position, pkt.data) :: d.symbols }

def decoder : SourceBlockDecoder Decoder where
  new sbn _ length := ⟨sbn, length, []⟩
  decode d pkt :=
    if pkt.payloadId.sourceBlockNumber = d.sbn then
      some ((d.feed pkt).assemble, d.feed pkt)
    else none
  sourceBlockId d := d.sbn
  blockLength d := d.length

lemma decode_eq_some {d d' : Decoder} {pkt : EncodingPacket} {r : Option Bytes} :
    decoder.decode d pkt = some (r, d') ↔
      pkt.payloadId.sourceBlockNumber = d.sbn ∧ r = d'.assemble ∧ d' = d.feed pkt := by
  simp only [decoder, Option.ite_none_right_eq_some, Option.some.injEq, Prod.mk.injEq]
  constructor
  · rintro ⟨hsbn, rfl, rfl⟩
    exact ⟨hsbn, rfl, rfl⟩
  · rintro ⟨hsbn, rfl, rfl⟩
    exact ⟨hsbn, rfl, rfl⟩

theorem decoder_sbnLaws : decoder.SbnLaws where
  new_sourceBlockId _ _ _ := rfl
  decode_sourceBlockId h := by
    obtain ⟨-, -, rfl⟩ := decode_eq_some.mp h
    rfl
  decode_asserts h := (decode_eq_some.mp h).1

theorem decoder_lengthLaws : decoder.LengthLaws where
  new_blockLength _ _ _ := rfl
  decode_blockLength h := by
    obtain ⟨-, -, rfl⟩ := decode_eq_some.mp h
    rfl
  decode_length h := by
    obtain ⟨-, hr, rfl⟩ := decode_eq_some.mp h
    simp only [Decoder.assemble, Option.some_eq_ite_none_right, Option.some.injEq] at hr
    rw [hr.2, length_fit]
    rfl

section Genuine

variable {sbn : UInt8} {oti : ObjectTransmissionInformation} {k : ℕ} {block : Bytes}

/-- A decoder fed with genuine packets holds their symbols. -/
lemma fed_symbols (htransfer : oti.transferLength = k * symbolSize) {esis : List ℕ}
    {d : Decoder} (h : decoder.Fed code sbn oti k block esis d) :
    d.sbn = sbn ∧ d.length = k * symbolSize ∧
      d.symbols = esis.reverse.map fun e => (e % k, code.symbol k block e) := by
  induction h with
  | new => exact ⟨rfl, htransfer, rfl⟩
  | @feed esis d esi d' _ hdecode ih =>
    obtain ⟨-, -, rfl⟩ := decode_eq_some.mp hdecode
    obtain ⟨hsbn, hlen, hsymbols⟩ := ih
    refine ⟨hsbn, hlen, ?_⟩
    simp only [Decoder.feed, hlen, Nat.mul_div_cancel _ symbolSize_pos, hsymbols,
      List.reverse_append, List.reverse_cons, List.reverse_nil, List.nil_append,
      List.singleton_append, List.map_cons]
    rfl

/-- A position is filled with its source symbol as soon as one of its ESIs is received. -/
lemma lookup_symbols (esis : List ℕ) (i : ℕ) :
    (esis.map fun e => (e % k, code.symbol k block e)).lookup i =
      if ∃ e ∈ esis, e % k = i then some (slice block (i * symbolSize) symbolSize) else none := by
  induction esis with
  | nil => simp
  | cons e esis ih =>
    rw [List.map_cons, List.lookup_cons]
    by_cases he : e % k = i
    · subst he
      simp [code]
    · have hbeq : (i == e % k) = false := by simpa using fun h => he h.symm
      simp [hbeq, ih, he]

/-- The pieces of a block, put together. -/
lemma flatMap_slice (hblock : block.length = k * symbolSize) :
    (List.range k).flatMap (fun i => slice block (i * symbolSize) symbolSize) = block := by
  induction k generalizing block with
  | zero => simp at hblock; simp [hblock]
  | succ k ih =>
    have htake : (block.take (k * symbolSize)).length = k * symbolSize := by
      rw [List.length_take, hblock, Nat.succ_mul]
      omega
    rw [List.range_succ, List.flatMap_append]
    have hinit : (List.range k).flatMap (fun i => slice block (i * symbolSize) symbolSize)
        = block.take (k * symbolSize) := by
      rw [← ih htake]
      refine List.flatMap_congr fun i hi => ?_
      conv_lhs => rw [← List.take_append_drop (k * symbolSize) block]
      rw [slice_append_left (by rw [htake]; exact fit_symbol (List.mem_range.mp hi))]
    have hrest : (block.drop (k * symbolSize)).length ≤ symbolSize := by
      rw [List.length_drop, hblock, Nat.succ_mul]
      omega
    rw [hinit, List.flatMap_singleton, slice, List.take_of_length_le hrest,
      List.take_append_drop]

/-- What the decoder returns on genuine packets. -/
lemma assemble_fed (htransfer : oti.transferLength = k * symbolSize)
    (hblock : block.length = k * symbolSize) {esis : List ℕ} {d : Decoder}
    (h : decoder.Fed code sbn oti k block esis d) (esi : ℕ) :
    (d.feed (code.packet sbn k block esi)).assemble =
      if ∀ i < k, ∃ e ∈ esi :: esis.reverse, e % k = i then some block else none := by
  obtain ⟨-, hlen, hsymbols⟩ := fed_symbols htransfer h
  have hk : d.length / symbolSize = k := by rw [hlen, Nat.mul_div_cancel _ symbolSize_pos]
  have hfeed : (d.feed (code.packet sbn k block esi)).symbols
      = (esi :: esis.reverse).map fun e => (e % k, code.symbol k block e) := by
    simp only [Decoder.feed, hk, hsymbols, List.map_cons]
    rfl
  have hlen' : (d.feed (code.packet sbn k block esi)).length = k * symbolSize := hlen
  simp only [Decoder.assemble, hfeed, hlen', Nat.mul_div_cancel _ symbolSize_pos]
  -- `assemble` succeeds if each position has been filled
  by_cases hall : ∀ i < k, ∃ e ∈ esi :: esis.reverse, e % k = i
  · have hparts : (List.range k).map (fun i => ((esi :: esis.reverse).map fun e =>
        (e % k, code.symbol k block e)).lookup i)
        = (List.range k).map fun i => some (slice block (i * symbolSize) symbolSize) := by
      refine List.map_congr_left fun i hi => ?_
      rw [lookup_symbols, if_pos (hall i (List.mem_range.mp hi))]
    rw [if_pos hall, hparts, if_pos (by simp), List.flatMap_map]
    simp only [Option.getD_some]
    rw [flatMap_slice hblock, fit_of_length hblock]
  · rw [if_neg hall, if_neg]
    intro hparts
    refine hall fun i hi => ?_
    by_contra hi'
    rw [List.all_eq_true] at hparts
    have := hparts _ (List.mem_map.mpr ⟨i, List.mem_range.mpr hi, rfl⟩)
    rw [lookup_symbols, if_neg hi'] at this
    cases this

theorem decoder_decodesWhenSufficient (htransfer : oti.transferLength = k * symbolSize)
    (hblock : block.length = k * symbolSize) :
    decoder.DecodesWhenSufficient code sbn oti k block := by
  intro esis d esi hfed _
  obtain ⟨hsbn, -, -⟩ := fed_symbols htransfer hfed
  refine ⟨_, _, decode_eq_some.mpr ⟨hsbn.symm, rfl, rfl⟩, fun hsuff => ?_, fun hinsuff => ?_⟩
  · rw [assemble_fed htransfer hblock hfed, if_pos]
    simpa [code] using hsuff
  · rw [assemble_fed htransfer hblock hfed, if_neg]
    simpa [code] using hinsuff

theorem decoder_neverWrong (htransfer : oti.transferLength = k * symbolSize)
    (hblock : block.length = k * symbolSize) : decoder.NeverWrong code sbn oti k block := by
  intro esis d esi data d' hfed hdecode
  obtain ⟨-, hr, rfl⟩ := decode_eq_some.mp hdecode
  rw [assemble_fed htransfer hblock hfed, Option.some_eq_ite_none_right,
    Option.some.injEq] at hr
  exact hr.2

theorem decoder_laws (hk : 1 ≤ k) (htransfer : oti.transferLength = k * symbolSize) :
    decoder.Laws code oti k where
  neverWrong _ _ hblock := decoder_neverWrong htransfer (by rw [hblock, htransfer])
  decodes _ _ hblock := decoder_decodesWhenSufficient htransfer (by rw [hblock, htransfer])
  not_sufficient_empty h := by
    obtain ⟨e, he, -⟩ := h 0 hk
    simp at he

end Genuine

/-! ## The encoder -/

structure Encoder where
  sbn : UInt8
  block : Bytes

/-- The number of symbols of the encoder's block. -/
def Encoder.k (e : Encoder) : ℕ := e.block.length / symbolSize

def encoder : SourceBlockEncoder Encoder where
  new sbn _ block := ⟨sbn, block⟩
  sourcePackets e := (List.range e.k).map (code.packet e.sbn e.k e.block)
  repairPackets e start n :=
    (List.range n).map fun i => code.packet e.sbn e.k e.block (e.k + start + i)

theorem encoder_laws {oti : ObjectTransmissionInformation} {k : ℕ}
    (htransfer : oti.transferLength = k * symbolSize) : encoder.Laws code oti k where
  sourcePackets_new sbn block hblock := by
    have hk : block.length / symbolSize = k := by
      rw [hblock, htransfer, Nat.mul_div_cancel _ symbolSize_pos]
    simp only [encoder, Encoder.k, hk]
  repairPackets_new sbn block start n hblock _ := by
    have hk : block.length / symbolSize = k := by
      rw [hblock, htransfer, Nat.mul_div_cancel _ symbolSize_pos]
    simp only [encoder, Encoder.k, hk]

end RaptorqTs.Reference
