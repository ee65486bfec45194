import RaptorqTs.Common.Raptorq

/-!
# Wire format

The 188-byte TS-shaped packets both binaries share: the TS header, the two frame builders
and the parser. Buffers are byte lists; a builder receives the previous contents of the
buffer it writes into, because the writer reuses one buffer for the whole run.
-/

namespace RaptorqTs

/-! ## Sizes and offsets -/

def tsPacketSize : ℕ := 188
def tsSyncByte : UInt8 := 0x47
def tsHeaderSize : ℕ := 4
def tsPayloadSize : ℕ := tsPacketSize - tsHeaderSize

def frameTypeOffset : ℕ := 0
def frameOtiOffset : ℕ := 1
def framePayloadIdOffset : ℕ := 13
def frameSymbolOffset : ℕ := 17
def frameOverhead : ℕ := frameSymbolOffset
def symbolSize : ℕ := tsPayloadSize - frameOverhead

def frameTypeData : UInt8 := 0x01
def frameTypeNoop : UInt8 := 0x02

def defaultBlockSymbols : ℕ := 392
def defaultBlockSize : ℕ := defaultBlockSymbols * symbolSize

lemma symbolSize_eq : symbolSize = 167 := rfl

lemma symbolSize_pos : 0 < symbolSize := by decide

/-! ## The TS header -/

structure TsHeader where
  tei : Bool
  payloadUnitStart : Bool
  priority : Bool
  pid : UInt16
  scrambling : UInt8
  adaptation : UInt8
  continuityCounter : UInt8
deriving DecidableEq, Repr

inductive ParseError where
  | wrongLength (got : ℕ)
  | badSync
  | transportError
  | wrongPid (got want : UInt16)
  | unknownFrameType (frameType : UInt8)
deriving DecidableEq, Repr

/-- `TsHeader::parse` of the four header bytes. -/
def TsHeader.parse (bytes : Bytes) : Except ParseError TsHeader :=
  let b (i : ℕ) : UInt8 := bytes.getD i 0
  if b 0 ≠ tsSyncByte then .error .badSync
  else .ok {
    tei := b 1 &&& 0x80 != 0
    payloadUnitStart := b 1 &&& 0x40 != 0
    priority := b 1 &&& 0x20 != 0
    pid := ((b 1 &&& 0x1F).toUInt16 <<< 8) ||| (b 2).toUInt16
    scrambling := (b 3 >>> 6) &&& 0x03
    adaptation := (b 3 >>> 4) &&& 0x03
    continuityCounter := b 3 &&& 0x0F }

/-- `TsHeader::write`: the four header bytes. -/
def TsHeader.write (h : TsHeader) : Bytes :=
  [ tsSyncByte,
    (h.tei.toUInt8 <<< 7) ||| (h.payloadUnitStart.toUInt8 <<< 6) ||| (h.priority.toUInt8 <<< 5)
      ||| ((h.pid >>> 8).toUInt8 &&& 0x1F),
    (h.pid &&& 0xFF).toUInt8,
    ((h.scrambling &&& 0x03) <<< 6) ||| ((h.adaptation &&& 0x03) <<< 4)
      ||| (h.continuityCounter &&& 0x0F) ]

@[simp] lemma TsHeader.length_write (h : TsHeader) : h.write.length = tsHeaderSize := rfl

/-- The header both builders write. -/
def frameHeader (pid : UInt16) (cc : UInt8) : TsHeader where
  tei := false
  payloadUnitStart := false
  priority := false
  pid := pid
  scrambling := 0
  adaptation := 1
  continuityCounter := cc

/-! ## Builders -/

/-- `build_data_packet` into the buffer `out`. -/
def buildDataPacket (w : WireCodec) (pid : UInt16) (cc : UInt8)
    (oti : ObjectTransmissionInformation) (pkt : EncodingPacket) (out : Bytes) : Bytes :=
  let out := copyAt out 0 (frameHeader pid cc).write
  let out := out.set (tsHeaderSize + frameTypeOffset) frameTypeData
  let out := copyAt out (tsHeaderSize + frameOtiOffset) (w.serializeOti oti).toList
  let out := copyAt out (tsHeaderSize + framePayloadIdOffset)
    (w.serializePayloadId pkt.payloadId).toList
  copyAt out (tsHeaderSize + frameSymbolOffset) pkt.data

/-- `build_noop_packet` into the buffer `out`. -/
def buildNoopPacket (pid : UInt16) (cc : UInt8) (out : Bytes) : Bytes :=
  let out := copyAt out 0 (frameHeader pid cc).write
  let out := out.set tsHeaderSize frameTypeNoop
  copyAt out (tsHeaderSize + 1) (List.replicate (out.length - (tsHeaderSize + 1)) 0xFF)

/-! ## Parser -/

inductive ParsedFrame where
  | data (cc : UInt8) (oti : ObjectTransmissionInformation) (payloadId : PayloadId)
      (symbol : Bytes)
  | noop (cc : UInt8)
deriving DecidableEq, Repr

/-- `try_into` of a slice into a fixed-size array. -/
def toArray (n : ℕ) (bytes : Bytes) : Vector UInt8 n := Vector.ofFn fun i => bytes.getD i 0

/-- `parse_packet`. -/
def parsePacket (w : WireCodec) (bytes : Bytes) (expectedPid : UInt16) :
    Except ParseError ParsedFrame :=
  if bytes.length ≠ tsPacketSize then .error (.wrongLength bytes.length)
  else
    match TsHeader.parse (bytes.take tsHeaderSize) with
    | .error e => .error e
    | .ok hdr =>
      if hdr.tei then .error .transportError
      else if hdr.pid ≠ expectedPid then .error (.wrongPid hdr.pid expectedPid)
      else
        let payload := bytes.drop tsHeaderSize
        let frameType := payload.getD frameTypeOffset 0
        if frameType = frameTypeNoop then .ok (.noop hdr.continuityCounter)
        else if frameType = frameTypeData then
          .ok (.data hdr.continuityCounter
            (w.deserializeOti (toArray 12 (slice payload frameOtiOffset 12)))
            (w.deserializePayloadId (toArray 4 (slice payload framePayloadIdOffset 4)))
            (slice payload frameSymbolOffset symbolSize))
        else .error (.unknownFrameType frameType)

/-- The OTI of a block that is one source block. -/
def blockOti (blockSize symbolSize : ℕ) : ObjectTransmissionInformation where
  transferLength := blockSize
  symbolSize := symbolSize
  sourceBlocks := 1
  subBlocks := 1
  symbolAlignment := 1

/-- `make_block_oti`; it is `none` when the crate panics on the block size. -/
def makeBlockOti (blockSize symbolSize : ℕ) : Option ObjectTransmissionInformation :=
  ObjectTransmissionInformation.new blockSize symbolSize 1 1 1

/-- `ContinuityCounter::advance`: the value to use now, and the next state. -/
def ContinuityCounter.advance (cc : UInt8) : UInt8 × UInt8 := (cc, (cc + 1) &&& 0x0F)

end RaptorqTs
