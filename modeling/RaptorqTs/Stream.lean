import RaptorqTs.Dec.Oti
import RaptorqTs.Dec.Sbn

/-!
# The stream between the encoder and the decoder

Both sides speak of the packets of a sequence of blocks. The encoder counts its blocks
without bound but writes only the low byte of the count into a packet, so the origin of a
packet, the index of its block and its ESI, is a notion of the proofs, not of the wire.
-/

namespace RaptorqTs

/-! ## Origins -/

/-- The block a packet belongs to, counted from the encoder's start, and its ESI. -/
structure Origin where
  block : ℕ
  esi : ℕ
deriving DecidableEq, Repr

/-- The ESIs among some origins that belong to block `l`. -/
def esisOf (l : ℕ) (os : List Origin) : List ℕ := (os.filter fun o => o.block = l).map (·.esi)

lemma esisOf_append (l : ℕ) (os os' : List Origin) :
    esisOf l (os ++ os') = esisOf l os ++ esisOf l os' := by
  unfold esisOf
  rw [List.filter_append, List.map_append]

lemma esisOf_concat (l : ℕ) (os : List Origin) (o : Origin) :
    esisOf l (os ++ [o]) = esisOf l os ++ if o.block = l then [o.esi] else [] := by
  rw [esisOf_append]
  congr 1
  by_cases h : o.block = l <;> simp [esisOf, h]

/-- The ESIs of a block with one more packet. -/
lemma toFinset_esisOf_concat (os : List Origin) (o : Origin) :
    (esisOf o.block (os ++ [o])).toFinset = insert o.esi (esisOf o.block os).toFinset := by
  rw [esisOf_concat, if_pos rfl]
  ext e
  simp

lemma mem_esisOf {l i : ℕ} {os : List Origin} : i ∈ esisOf l os ↔ ⟨l, i⟩ ∈ os := by
  simp only [esisOf, List.mem_map, List.mem_filter, decide_eq_true_eq]
  constructor
  · rintro ⟨⟨l', i'⟩, ⟨hmem, rfl⟩, rfl⟩
    exact hmem
  · intro hmem
    exact ⟨⟨l, i⟩, ⟨hmem, rfl⟩, rfl⟩

/-! ## Streams -/

/-- The stream the encoder sends: blocks of `k` symbols under the code `code`. -/
structure Stream where
  code : FountainCode
  k : ℕ
  block : ℕ → Bytes

namespace Stream

variable (S : Stream)

/-- The size of a block. -/
def blockSize : ℕ := S.k * symbolSize

/-- The OTI of every packet. -/
def oti : ObjectTransmissionInformation := blockOti S.blockSize symbolSize

/-- The packet with the given origin. -/
def packet (o : Origin) : EncodingPacket :=
  S.code.packet (sbnOf o.block) S.k (S.block o.block) o.esi

/-- The source symbol `i` of block `l`. -/
def sourceSymbol (l i : ℕ) : Bytes := slice (S.block l) (i * symbolSize) symbolSize

/-- A stream as the encoder's arguments and input allow it, over a lawful code. -/
structure Wf : Prop where
  code_laws : S.code.Laws symbolSize
  k_pos : 1 ≤ S.k
  k_le : S.k ≤ maxSourceSymbolsPerBlock
  block_length : ∀ l, (S.block l).length = S.blockSize

variable {S}

lemma Wf.oti_sane (h : S.Wf) : otiIsSane S.oti = true := otiIsSane_blockOti h.k_pos h.k_le

lemma packet_sbn (o : Origin) : (S.packet o).payloadId.sourceBlockNumber = sbnOf o.block := rfl

lemma Wf.packet_length (h : S.Wf) (o : Origin) : (S.packet o).data.length = symbolSize :=
  h.code_laws.symbol_length h.k_pos (h.block_length o.block)

/-- The packet is one of block `l` of the stream, with a 24-bit ESI. -/
def Mints (S : Stream) (l : ℕ) (p : EncodingPacket) : Prop :=
  p = S.packet ⟨l, p.payloadId.encodingSymbolId⟩ ∧ p.payloadId.encodingSymbolId < 2 ^ 24

lemma mints_packet {l esi : ℕ} (h : esi < 2 ^ 24) : S.Mints l (S.packet ⟨l, esi⟩) := ⟨rfl, h⟩

end Stream

/-! ## Frames -/

/-- A frame on the wire. -/
structure WireFrame where
  bytes : Bytes
  /-- History variable: the origin of the packet that a data frame carries. -/
  origin : Option Origin
deriving DecidableEq, Repr

/-- The frame is as the writer builds it: around the packet with its origin, or a noop. -/
def WireFrame.Built (w : WireCodec) (pid : UInt16) (S : Stream) (f : WireFrame) : Prop :=
  ∃ cc out, out.length = tsPacketSize ∧ f.bytes =
    match f.origin with
    | some o => buildDataPacket w pid cc S.oti (S.packet o) out
    | none => buildNoopPacket pid cc out

/-- The origins of the data frames, in order. -/
def origins (frames : List WireFrame) : List Origin := frames.filterMap WireFrame.origin

lemma origins_append (frames frames' : List WireFrame) :
    origins (frames ++ frames') = origins frames ++ origins frames' :=
  List.filterMap_append ..

lemma origins_concat (frames : List WireFrame) (f : WireFrame) :
    origins (frames ++ [f]) = origins frames ++ f.origin.toList := by
  unfold origins
  rw [List.filterMap_append]
  cases h : f.origin <;> simp [h]

namespace Reference

/-- A stream of blocks of `k` symbols over the reference code; block `l` repeats the byte
`l + 1`. -/
def stream (k : ℕ) : Stream where
  code := code
  k := k
  block l := List.replicate (k * symbolSize) (UInt8.ofNat (l + 1))

lemma stream_wf {k : ℕ} (hk : 1 ≤ k) (hle : k ≤ maxSourceSymbolsPerBlock) : (stream k).Wf where
  code_laws := code_laws
  k_pos := hk
  k_le := hle
  block_length _ := List.length_replicate ..

/-- An input of two blocks of two symbols, and three bytes more. -/
def pairStdin : Bytes := (List.range (4 * symbolSize + 3)).map UInt8.ofNat

/-- Its blocks, the last one padded with zeros. -/
def pairStream : Stream where
  code := code
  k := 2
  block l := fit (2 * symbolSize) (pairStdin.drop (l * (2 * symbolSize)))

lemma pairStream_block_length (l : ℕ) : (pairStream.block l).length = 2 * symbolSize :=
  length_fit _ _

lemma stream_neverWrong (k l : ℕ) : decoder.NeverWrong (stream k).code (sbnOf l) (stream k).oti
    (stream k).k ((stream k).block l) :=
  decoder_neverWrong rfl (List.length_replicate ..)

end Reference

end RaptorqTs
