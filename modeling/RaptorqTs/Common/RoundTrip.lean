import RaptorqTs.Common.WireTheorems
import RaptorqTs.Common.Reference

/-!
# The wire format, in both directions

What the builders write is read back by the parser, and what the parser reads is built
again, byte for byte, as long as the header bits the builders never set are clear.
-/

namespace RaptorqTs

/-! ## The header, written again -/

/-- A property of bytes that holds of all 256. -/
lemma forall_byte {P : UInt8 → Prop} (h : ∀ n < 256, P (UInt8.ofNat n)) (b : UInt8) : P b := by
  have hb := h b.toNat b.toNat_lt
  rwa [UInt8.ofNat_toNat] at hb

/-- The second header byte is its three flags and its low five bits. -/
lemma headerFlags_join (b : UInt8) :
    ((b &&& 0x80 != 0).toUInt8 <<< 7) ||| ((b &&& 0x40 != 0).toUInt8 <<< 6)
      ||| ((b &&& 0x20 != 0).toUInt8 <<< 5) ||| (b &&& 0x1F) = b := by
  revert b
  apply forall_byte
  decide +kernel

/-- The PID field gives back its two bytes. -/
lemma headerPid_split (b c : UInt8) :
    let pid : UInt16 := ((b &&& 0x1F).toUInt16 <<< 8) ||| c.toUInt16
    (pid >>> 8).toUInt8 &&& 0x1F = b &&& 0x1F ∧ (pid &&& 0xFF).toUInt8 = c := by
  refine ⟨?_, ?_⟩ <;> apply UInt8.eq_of_toBitVec_eq
  · simp only [UInt16.toBitVec_or, UInt16.toBitVec_shiftLeft, UInt8.toBitVec_toUInt16,
      UInt8.toBitVec_and, UInt16.toBitVec_toUInt8, UInt16.toBitVec_shiftRight,
      UInt16.toBitVec_ofNat]
    ext i hi
    interval_cases i <;> simp
  · simp only [UInt16.toBitVec_or, UInt16.toBitVec_shiftLeft, UInt8.toBitVec_toUInt16,
      UInt8.toBitVec_and, UInt16.toBitVec_toUInt8, UInt16.toBitVec_and, UInt16.toBitVec_ofNat]
    ext i hi
    interval_cases i <;> simp

/-- The last header byte is its three fields. -/
lemma headerTail_join (b : UInt8) :
    ((((b >>> 6) &&& 0x03) &&& 0x03) <<< 6) ||| ((((b >>> 4) &&& 0x03) &&& 0x03) <<< 4)
      ||| ((b &&& 0x0F) &&& 0x0F) = b := by
  apply UInt8.eq_of_toBitVec_eq
  ext i hi
  interval_cases i <;> simp

/-- A header that parses is written again as it was. -/
theorem TsHeader.write_of_parse {bytes : Bytes} {h : TsHeader}
    (hlen : bytes.length = tsHeaderSize) (hparse : TsHeader.parse bytes = .ok h) :
    h.write = bytes := by
  obtain ⟨b₀, b₁, b₂, b₃, rfl⟩ : ∃ b₀ b₁ b₂ b₃, bytes = [b₀, b₁, b₂, b₃] :=
    List.length_eq_four.mp hlen
  unfold TsHeader.parse at hparse
  simp only [List.getD_cons_zero, List.getD_cons_succ] at hparse
  split at hparse
  · cases hparse
  · rename_i hsync
    rw [not_not] at hsync
    rw [Except.ok.injEq] at hparse
    obtain ⟨hhigh, hlow⟩ := headerPid_split b₁ b₂
    rw [← hparse]
    simp only [TsHeader.write, hhigh, hlow, headerFlags_join, headerTail_join, hsync]

/-! ## Frames, built again -/

/-- What the parser has checked of the header of a data frame. -/
lemma parsePacket_header {w : WireCodec} {bytes : Bytes} {pid : UInt16} {cc : UInt8}
    {oti : ObjectTransmissionInformation} {id : PayloadId} {symbol : Bytes} {hdr : TsHeader}
    (h : parsePacket w bytes pid = .ok (.data cc oti id symbol))
    (hhdr : TsHeader.parse (bytes.take tsHeaderSize) = .ok hdr) :
    hdr.tei = false ∧ hdr.pid = pid ∧ hdr.continuityCounter = cc ∧
      (bytes.drop tsHeaderSize).getD frameTypeOffset 0 = frameTypeData := by
  have hlen := (parsePacket_eq_data h).1
  unfold parsePacket at h
  rw [if_neg (by simpa using hlen)] at h
  simp only [hhdr] at h
  split at h
  · cases h
  · rename_i htei
    split at h
    · cases h
    · rename_i hpid
      split at h
      · cases h
      · split at h
        · rename_i htype
          simp only [Except.ok.injEq, ParsedFrame.data.injEq] at h
          exact ⟨by simpa using htei, not_not.mp hpid, h.1, htype⟩
        · cases h

lemma toList_toArray {n : ℕ} {bytes : Bytes} (h : bytes.length = n) :
    (toArray n bytes).toList = bytes := by
  apply List.ext_getElem
  · simp [h]
  · intro i hi hi'
    simp [toArray, hi']

/-- The header bits that the builders never set are clear. -/
structure TsHeader.Plain (h : TsHeader) : Prop where
  payloadUnitStart : h.payloadUnitStart = false
  priority : h.priority = false
  scrambling : h.scrambling = 0
  adaptation : h.adaptation = 1

lemma TsHeader.Plain.eq_frameHeader {h : TsHeader} (hplain : h.Plain) (htei : h.tei = false) :
    h = frameHeader h.pid h.continuityCounter := by
  obtain ⟨tei, payloadUnitStart, priority, pid, scrambling, adaptation, cc⟩ := h
  obtain ⟨hpusi, hprio, hscr, hada⟩ := hplain
  simp only at htei hpusi hprio hscr hada
  rw [htei, hpusi, hprio, hscr, hada, frameHeader]

/-- **Rebuilding.** A data frame that parses, with a plain header and a zero reserved byte, is
built again from what has been parsed. -/
theorem buildDataPacket_of_parsePacket {w : WireCodec} (hw : w.InverseLaws) {bytes out : Bytes}
    {pid : UInt16} {cc : UInt8} {oti : ObjectTransmissionInformation} {id : PayloadId}
    {symbol : Bytes} {hdr : TsHeader}
    (hparse : parsePacket w bytes pid = .ok (.data cc oti id symbol))
    (hhdr : TsHeader.parse (bytes.take tsHeaderSize) = .ok hdr) (hplain : hdr.Plain)
    (hreserved : bytes.getD (tsHeaderSize + frameOtiOffset + 5) 0 = 0)
    (hout : out.length = tsPacketSize) :
    buildDataPacket w pid cc oti ⟨id, symbol⟩ out = bytes := by
  obtain ⟨htei, hpid, hcc, htype⟩ := parsePacket_header hparse hhdr
  obtain ⟨hlen, hoti, hid, hsymbol⟩ := parsePacket_eq_data hparse
  obtain ⟨h₄, ft, o, p, sym, hbytes, hh, ho, hp, hs⟩ := exists_packet_pieces hlen
  obtain ⟨hotiSlice, hpidSlice, hsymSlice⟩ := slice_payload ft ho hp hs
  rw [buildDataPacket_eq w pid cc oti _ hout (parsePacket_symbol_length hparse)]
  -- the five pieces, one by one
  have hhead : (frameHeader pid cc).write = h₄ := by
    rw [hbytes, List.take_left' hh] at hhdr
    rw [← TsHeader.write_of_parse hh hhdr, hplain.eq_frameHeader htei, ← hpid, ← hcc]
  rw [hbytes, List.drop_left' hh] at hoti hid hsymbol htype
  rw [hotiSlice] at hoti
  rw [hpidSlice] at hid
  rw [hsymSlice] at hsymbol
  have hft : ft = frameTypeData := htype
  have hserOti : (w.serializeOti oti).toList = o := by
    have hfive : bytes.getD (tsHeaderSize + frameOtiOffset + 5) 0 = o.getD 5 0 := by
      rw [hbytes]
      simp only [List.getD_eq_getElem?_getD]
      rw [List.getElem?_append_right (by rw [hh]; decide), hh]
      show ((o ++ (p ++ sym))[5]?).getD 0 = o[5]?.getD 0
      rw [List.getElem?_append_left (by omega)]
    have hzero : octet (toArray 12 o) 5 = 0 := by
      rw [octet, toList_toArray ho, ← hfive, hreserved]
    rw [hoti, hw.oti_bytes _ hzero, toList_toArray ho]
  have hserId : (w.serializePayloadId id).toList = p := by
    rw [hid, hw.payloadId_bytes, toList_toArray hp]
  rw [hhead, hserOti, hserId, hbytes, hft, hsymbol]

/-- The low four bits are the remainder. -/
lemma and_0x0F (cc : UInt8) : cc &&& 0x0F = cc % 16 := by
  apply UInt8.toNat_inj.mp
  rw [UInt8.toNat_and, UInt8.toNat_mod]
  exact Nat.and_two_pow_sub_one_eq_mod cc.toNat 4

section RoundTrip

variable {w : WireCodec} {pid : UInt16}

/-- **The wire format round trip**, in both directions. -/
theorem wire_roundtrip (hw : w.Laws) (hinv : w.InverseLaws) (hpid : pid < 0x2000) :
    (∀ cc oti pkt out, out.length = tsPacketSize → oti.InRange →
      pkt.payloadId.encodingSymbolId < 2 ^ 24 → pkt.data.length = symbolSize →
        parsePacket w (buildDataPacket w pid cc oti pkt out) pid =
          .ok (.data (cc % 16) oti pkt.payloadId pkt.data)) ∧
    (∀ cc out, out.length = tsPacketSize →
      parsePacket w (buildNoopPacket pid cc out) pid = .ok (.noop (cc % 16))) ∧
    (∀ bytes cc oti id symbol hdr out, parsePacket w bytes pid = .ok (.data cc oti id symbol) →
      TsHeader.parse (bytes.take tsHeaderSize) = .ok hdr → hdr.Plain →
      bytes.getD (tsHeaderSize + frameOtiOffset + 5) 0 = 0 → out.length = tsPacketSize →
        buildDataPacket w pid cc oti ⟨id, symbol⟩ out = bytes) := by
  refine ⟨?_, ?_, ?_⟩
  · intro cc oti pkt out hout hoti hesi hdata
    rw [parsePacket_buildDataPacket w pid cc hw hpid hout hoti hesi hdata, and_0x0F]
  · intro cc out hout
    rw [parsePacket_buildNoopPacket w pid cc hout, if_pos hpid, and_0x0F]
  · intro bytes cc oti id symbol hdr out hparse hhdr hplain hreserved hout
    exact buildDataPacket_of_parsePacket hinv hparse hhdr hplain hreserved hout

end RoundTrip

/-- The round trip at the default PID, on a data packet and back. -/
theorem wire_roundtrip_default :
    let bytes := buildDataPacket Reference.codec 0x100 0x25 (blockOti 167 symbolSize)
      ⟨⟨7, 3⟩, List.replicate symbolSize 9⟩ (List.replicate tsPacketSize 0xAA)
    parsePacket Reference.codec bytes 0x100 =
        .ok (.data 5 (blockOti 167 symbolSize) ⟨7, 3⟩ (List.replicate symbolSize 9)) ∧
      buildDataPacket Reference.codec 0x100 5 (blockOti 167 symbolSize)
        ⟨⟨7, 3⟩, List.replicate symbolSize 9⟩ (List.replicate tsPacketSize 0xBB) = bytes := by
  intro bytes
  have hpid : (0x100 : UInt16) < 0x2000 := by decide
  obtain ⟨hdata, -, hback⟩ :=
    wire_roundtrip Reference.codec_laws Reference.codec_inverseLaws hpid
  have hparse := hdata 0x25 (blockOti 167 symbolSize) ⟨⟨7, 3⟩, List.replicate symbolSize 9⟩
    (List.replicate tsPacketSize 0xAA) (List.length_replicate ..)
    ⟨by decide, by decide, by decide, by decide, by decide⟩ (by decide) (List.length_replicate ..)
  have hhdr : TsHeader.parse (bytes.take tsHeaderSize) = .ok (frameHeader 0x100 5) := by
    decide +kernel
  exact ⟨hparse, hback bytes _ _ _ _ (frameHeader 0x100 5) _ hparse hhdr ⟨rfl, rfl, rfl, rfl⟩
    (by decide +kernel) (List.length_replicate ..)⟩

end RaptorqTs
