import RaptorqTs.Lib.Slice
import Mathlib.Data.Finset.Insert
import Mathlib.Algebra.Order.Ring.Nat
import Mathlib.Algebra.Order.Floor.Div
import Mathlib.Data.Nat.Notation

/-!
# What the binaries use of the `raptorq` crate

The crate is not part of the repository, so its functions are parameters here:
`WireCodec` (the two header fields on the wire), `SourceBlockDecoder` and
`SourceBlockEncoder`. The structures ending in `Laws`, and the predicates next to them,
state the documented behaviour a theorem relies on; a theorem takes only those it needs.

`FountainCode` is the mathematics behind the crate: a systematic code that assigns an
encoding symbol to every encoding symbol id (ESI) of a block, and says which sets of ESIs
determine the block.
-/

namespace RaptorqTs

/-- Byte buffers and slices. -/
abbrev Bytes : Type := List UInt8

/-- Monotonic clock readings and durations, in nanoseconds. -/
abbrev Instant : Type := ℕ

/-- `Instant::elapsed` at the clock reading `now`; it saturates at zero. -/
def elapsed (now since : Instant) : ℕ := now - since

/-- The fields of an `ObjectTransmissionInformation`. -/
structure ObjectTransmissionInformation where
  transferLength : ℕ
  symbolSize : ℕ
  sourceBlocks : ℕ
  subBlocks : ℕ
  symbolAlignment : ℕ
deriving DecidableEq, Repr

/-- Every field fits the bits it has on the wire. -/
structure ObjectTransmissionInformation.InRange (oti : ObjectTransmissionInformation) : Prop where
  transferLength_lt : oti.transferLength < 2 ^ 40
  symbolSize_lt : oti.symbolSize < 2 ^ 16
  sourceBlocks_lt : oti.sourceBlocks < 2 ^ 8
  subBlocks_lt : oti.subBlocks < 2 ^ 16
  symbolAlignment_lt : oti.symbolAlignment < 2 ^ 8

/-- `MAX_SOURCE_SYMBOLS_PER_BLOCK` of the crate, which is private. -/
def ObjectTransmissionInformation.maxSourceSymbols : ℕ := 56403

/-- `ObjectTransmissionInformation::new`; it is `none` when one of the crate's assertions fails,
which panics the calling thread. -/
def ObjectTransmissionInformation.new (transferLength symbolSize sourceBlocks subBlocks
    symbolAlignment : ℕ) : Option ObjectTransmissionInformation :=
  -- the remainder by an alignment of zero panics as well
  if transferLength ≤ 942574504275 ∧ symbolAlignment ≠ 0 ∧ symbolSize % symbolAlignment = 0 ∧
      (symbolSize ≠ 0 → sourceBlocks ≠ 0 →
        (transferLength ⌈/⌉ symbolSize) ⌈/⌉ sourceBlocks ≤ maxSourceSymbols) then
    some ⟨transferLength, symbolSize, sourceBlocks, subBlocks, symbolAlignment⟩
  else none

/-- FEC payload id: the source block number and the encoding symbol id. -/
structure PayloadId where
  sourceBlockNumber : UInt8
  encodingSymbolId : ℕ
deriving DecidableEq, Repr

structure EncodingPacket where
  payloadId : PayloadId
  data : Bytes
deriving DecidableEq, Repr

/-! ## Header fields on the wire -/

/-- `serialize` and `deserialize` of the OTI and of the payload id. -/
structure WireCodec where
  serializeOti : ObjectTransmissionInformation → Vector UInt8 12
  deserializeOti : Vector UInt8 12 → ObjectTransmissionInformation
  serializePayloadId : PayloadId → Vector UInt8 4
  deserializePayloadId : Vector UInt8 4 → PayloadId

/-- Deserialising undoes serialising on values that fit their fields. -/
structure WireCodec.Laws (w : WireCodec) : Prop where
  oti_roundtrip : ∀ oti : ObjectTransmissionInformation, oti.InRange →
    w.deserializeOti (w.serializeOti oti) = oti
  payloadId_roundtrip : ∀ id : PayloadId, id.encodingSymbolId < 2 ^ 24 →
    w.deserializePayloadId (w.serializePayloadId id) = id

/-- The number a sequence of bytes stands for, the most significant byte first. -/
def bigEndian (bytes : Bytes) : ℕ := bytes.foldl (fun n b => n * 256 + b.toNat) 0

/-- Octet `i` of a header field. -/
def octet {n : ℕ} (field : Vector UInt8 n) (i : ℕ) : UInt8 := field.toList.getD i 0

/-- `ObjectTransmissionInformation::deserialize` reads the fields at their offsets, and validates
none. Byte 5 is reserved. -/
structure WireCodec.ReadsFields (w : WireCodec) : Prop where
  transferLength : ∀ b, (w.deserializeOti b).transferLength =
    bigEndian [octet b 0, octet b 1, octet b 2, octet b 3, octet b 4]
  symbolSize : ∀ b, (w.deserializeOti b).symbolSize = bigEndian [octet b 6, octet b 7]
  sourceBlocks : ∀ b, (w.deserializeOti b).sourceBlocks = bigEndian [octet b 8]
  subBlocks : ∀ b, (w.deserializeOti b).subBlocks = bigEndian [octet b 9, octet b 10]
  symbolAlignment : ∀ b, (w.deserializeOti b).symbolAlignment = bigEndian [octet b 11]

/-- Serialising undoes deserialising, on the OTI fields whose reserved byte is zero and on all
payload ids. -/
structure WireCodec.InverseLaws (w : WireCodec) : Prop where
  oti_bytes : ∀ b : Vector UInt8 12, octet b 5 = 0 → w.serializeOti (w.deserializeOti b) = b
  payloadId_bytes : ∀ b : Vector UInt8 4, w.serializePayloadId (w.deserializePayloadId b) = b

/-! ## The code -/

/-- A systematic fountain code on blocks of `k` symbols. -/
structure FountainCode where
  /-- The encoding symbol of a block of `k` symbols with the given ESI. -/
  symbol : (k : ℕ) → (block : Bytes) → (esi : ℕ) → Bytes
  /-- The sets of ESIs whose symbols determine a block of `k` symbols. -/
  Sufficient : (k : ℕ) → Finset ℕ → Prop

/-- The code works on symbols of `size` bytes and is systematic: the symbols with ESIs
below `k` are the block, cut into pieces. -/
structure FountainCode.Laws (code : FountainCode) (size : ℕ) : Prop where
  symbol_length : ∀ {k block esi}, 0 < k → block.length = k * size →
    (code.symbol k block esi).length = size
  systematic : ∀ {k block esi}, block.length = k * size → esi < k →
    code.symbol k block esi = slice block (esi * size) size

/-- More symbols determine no less. -/
def FountainCode.Monotone (code : FountainCode) (k : ℕ) : Prop :=
  ∀ s t, s ⊆ t → code.Sufficient k s → code.Sufficient k t

/-- The packet of a block with the given SBN and ESI. -/
def FountainCode.packet (code : FountainCode) (sbn : UInt8) (k : ℕ) (block : Bytes) (esi : ℕ) :
    EncodingPacket :=
  ⟨⟨sbn, esi⟩, code.symbol k block esi⟩

/-! ## `SourceBlockDecoder` -/

/-- `raptorq::SourceBlockDecoder`. `decode` feeds one packet; it is `none` when one of the
crate's assertions fails, which panics the calling thread. `sourceBlockId` and
`blockLength` observe what the decoder was constructed with. -/
structure SourceBlockDecoder (D : Type) where
  new : (sbn : UInt8) → (oti : ObjectTransmissionInformation) → (blockLength : ℕ) → D
  decode : D → EncodingPacket → Option (Option Bytes × D)
  sourceBlockId : D → UInt8
  blockLength : D → ℕ

namespace SourceBlockDecoder

variable {D : Type} (dec : SourceBlockDecoder D)

/-- `decode` asserts that the packet's SBN is the one the decoder was constructed with,
and never changes it. -/
structure SbnLaws : Prop where
  new_sourceBlockId : ∀ sbn oti len, dec.sourceBlockId (dec.new sbn oti len) = sbn
  decode_sourceBlockId : ∀ {d pkt r d'}, dec.decode d pkt = some (r, d') →
    dec.sourceBlockId d' = dec.sourceBlockId d
  decode_asserts : ∀ {d pkt r d'}, dec.decode d pkt = some (r, d') →
    pkt.payloadId.sourceBlockNumber = dec.sourceBlockId d

/-- A decoded block has the length the decoder was constructed with. -/
structure LengthLaws : Prop where
  new_blockLength : ∀ sbn oti len, dec.blockLength (dec.new sbn oti len) = len
  decode_blockLength : ∀ {d pkt r d'}, dec.decode d pkt = some (r, d') →
    dec.blockLength d' = dec.blockLength d
  decode_length : ∀ {d pkt data d'}, dec.decode d pkt = some (some data, d') →
    data.length = dec.blockLength d

/-- `Fed code sbn oti k block esis d`: the decoder `d` was constructed for the block and
has then been fed, without completing, the block's packets with the given ESIs. -/
inductive Fed (code : FountainCode) (sbn : UInt8) (oti : ObjectTransmissionInformation)
    (k : ℕ) (block : Bytes) : List ℕ → D → Prop
  | new : Fed code sbn oti k block [] (dec.new sbn oti oti.transferLength)
  | feed {esis d esi d'} : Fed code sbn oti k block esis d →
      dec.decode d (code.packet sbn k block esi) = some (none, d') →
      Fed code sbn oti k block (esis ++ [esi]) d'

/-- On genuine packets `decode` never returns a block other than the one encoded. -/
def NeverWrong (code : FountainCode) (sbn : UInt8) (oti : ObjectTransmissionInformation)
    (k : ℕ) (block : Bytes) : Prop :=
  ∀ {esis d esi data d'}, dec.Fed code sbn oti k block esis d →
    dec.decode d (code.packet sbn k block esi) = some (some data, d') → data = block

/-- On genuine packets with 24-bit ESIs `decode` does not panic, and it returns the block
exactly when the set of ESIs received is sufficient. -/
def DecodesWhenSufficient (code : FountainCode) (sbn : UInt8)
    (oti : ObjectTransmissionInformation) (k : ℕ) (block : Bytes) : Prop :=
  ∀ {esis d esi}, dec.Fed code sbn oti k block esis d → esi < 2 ^ 24 →
    ∃ r d', dec.decode d (code.packet sbn k block esi) = some (r, d') ∧
      (code.Sufficient k (insert esi esis.toFinset) → r = some block) ∧
      (¬ code.Sufficient k (insert esi esis.toFinset) → r = none)

/-- The decoder of blocks of `k` symbols: it returns the block encoded as soon as the packets
received are sufficient, and nothing else before; no packets at all are never sufficient. -/
structure Laws (code : FountainCode) (oti : ObjectTransmissionInformation) (k : ℕ) : Prop where
  neverWrong : ∀ sbn block, block.length = oti.transferLength →
    dec.NeverWrong code sbn oti k block
  decodes : ∀ sbn block, block.length = oti.transferLength →
    dec.DecodesWhenSufficient code sbn oti k block
  not_sufficient_empty : ¬ code.Sufficient k ∅

end SourceBlockDecoder

/-! ## `SourceBlockEncoder` -/

/-- `raptorq::SourceBlockEncoder`. -/
structure SourceBlockEncoder (E : Type) where
  new : (sbn : UInt8) → (oti : ObjectTransmissionInformation) → (block : Bytes) → E
  sourcePackets : E → List EncodingPacket
  repairPackets : E → (startRepairId : ℕ) → (packets : ℕ) → List EncodingPacket

/-- The encoder of a block of `k` symbols yields the packets of the code: the source
packets with ESIs `0, …, k - 1`, and repair id `r` with ESI `k + r`. -/
structure SourceBlockEncoder.Laws {E : Type} (enc : SourceBlockEncoder E) (code : FountainCode)
    (oti : ObjectTransmissionInformation) (k : ℕ) : Prop where
  sourcePackets_new : ∀ sbn block, block.length = oti.transferLength →
    enc.sourcePackets (enc.new sbn oti block) = (List.range k).map (code.packet sbn k block)
  repairPackets_new : ∀ sbn block start n, block.length = oti.transferLength →
    k + start + n ≤ 2 ^ 24 →
    enc.repairPackets (enc.new sbn oti block) start n =
      (List.range n).map fun i => code.packet sbn k block (k + start + i)

end RaptorqTs
