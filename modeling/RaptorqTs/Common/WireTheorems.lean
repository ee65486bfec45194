import RaptorqTs.Common.Wire
import Mathlib.Tactic.IntervalCases

/-!
# Theorems about the wire format

`TsHeader.parse` undoes `TsHeader.write` up to the widths of the fields, the builders lay
out their pieces one after the other whatever the buffer held before, and `parsePacket`
reads a built packet back, provided the PID fits its 13 bits; otherwise the packet is
rejected by the very PID it was built with.
-/

namespace RaptorqTs

/-! ## The header -/

/-- A flag stored in its bit is read back. -/
lemma flag_ne_zero (t : Bool) :
    ((t.toUInt8 <<< 7 : UInt8) != 0) = t ∧ ((t.toUInt8 <<< 6 : UInt8) != 0) = t ∧
      ((t.toUInt8 <<< 5 : UInt8) != 0) = t := by
  cases t <;> decide

/-- The fields of the second header byte, each at its mask. -/
lemma headerFlags (t u r : Bool) (p : UInt8) :
    let b : UInt8 := (t.toUInt8 <<< 7) ||| (u.toUInt8 <<< 6) ||| (r.toUInt8 <<< 5) ||| (p &&& 0x1F)
    b &&& (0x80 : UInt8) = t.toUInt8 <<< 7 ∧ b &&& (0x40 : UInt8) = u.toUInt8 <<< 6 ∧
      b &&& (0x20 : UInt8) = r.toUInt8 <<< 5 ∧ b &&& 0x1F = p &&& 0x1F := by
  -- the masks are disjoint, so each one keeps its own field and clears the other three
  have hlow (m : UInt8) : (p &&& 0x1F) &&& m = p &&& (0x1F &&& m) := UInt8.and_assoc ..
  have hflag (b : Bool) : (b.toUInt8 <<< 7) &&& (0x80 : UInt8) = b.toUInt8 <<< 7 ∧
      (b.toUInt8 <<< 6) &&& (0x80 : UInt8) = 0 ∧ (b.toUInt8 <<< 5) &&& (0x80 : UInt8) = 0 ∧
      (b.toUInt8 <<< 7) &&& (0x40 : UInt8) = 0 ∧
      (b.toUInt8 <<< 6) &&& (0x40 : UInt8) = b.toUInt8 <<< 6 ∧
      (b.toUInt8 <<< 5) &&& (0x40 : UInt8) = 0 ∧
      (b.toUInt8 <<< 7) &&& (0x20 : UInt8) = 0 ∧ (b.toUInt8 <<< 6) &&& (0x20 : UInt8) = 0 ∧
      (b.toUInt8 <<< 5) &&& (0x20 : UInt8) = b.toUInt8 <<< 5 ∧
      (b.toUInt8 <<< 7) &&& (0x1F : UInt8) = 0 ∧ (b.toUInt8 <<< 6) &&& (0x1F : UInt8) = 0 ∧
      (b.toUInt8 <<< 5) &&& (0x1F : UInt8) = 0 := by
    cases b <;> decide
  have hdist (x y z : UInt8) : (x ||| y) &&& z = (x &&& z) ||| (y &&& z) :=
    UInt8.eq_of_toBitVec_eq BitVec.and_or_distrib_right
  have h₁ : (0x1F : UInt8) &&& 0x80 = 0 := by decide
  have h₂ : (0x1F : UInt8) &&& 0x40 = 0 := by decide
  have h₃ : (0x1F : UInt8) &&& 0x20 = 0 := by decide
  simp only [hdist, hlow, hflag, h₁, h₂, h₃, UInt8.and_self, UInt8.and_zero, UInt8.or_zero,
    UInt8.zero_or, and_self]

/-- The PID field keeps the low 13 bits. -/
lemma headerPid (pid : UInt16) :
    (((pid >>> 8).toUInt8 &&& 0x1F).toUInt16 <<< 8) ||| ((pid &&& 0xFF).toUInt8).toUInt16
      = pid &&& 0x1FFF := by
  apply UInt16.eq_of_toBitVec_eq
  simp only [UInt16.toBitVec_or, UInt16.toBitVec_shiftLeft, UInt8.toBitVec_toUInt16,
    UInt8.toBitVec_and, UInt16.toBitVec_toUInt8, UInt16.toBitVec_and, UInt16.toBitVec_shiftRight,
    UInt16.toBitVec_ofNat]
  ext i hi
  interval_cases i <;> simp

/-- The three fields of the last header byte. -/
lemma headerTail (s a c : UInt8) :
    let b : UInt8 := ((s &&& 0x03) <<< 6) ||| ((a &&& 0x03) <<< 4) ||| (c &&& 0x0F)
    (b >>> 6) &&& 0x03 = s &&& 0x03 ∧ (b >>> 4) &&& 0x03 = a &&& 0x03 ∧
      b &&& 0x0F = c &&& 0x0F := by
  refine ⟨?_, ?_, ?_⟩ <;> apply UInt8.eq_of_toBitVec_eq <;> ext i hi <;>
    interval_cases i <;> simp

/-- Reading a header back masks each field to its width. -/
theorem TsHeader.parse_write (h : TsHeader) :
    TsHeader.parse h.write = .ok { h with
      pid := h.pid &&& 0x1FFF
      scrambling := h.scrambling &&& 0x03
      adaptation := h.adaptation &&& 0x03
      continuityCounter := h.continuityCounter &&& 0x0F } := by
  obtain ⟨htei, hpusi, hprio, hlow⟩ :=
    headerFlags h.tei h.payloadUnitStart h.priority (h.pid >>> 8).toUInt8
  obtain ⟨hscr, hada, hcc⟩ := headerTail h.scrambling h.adaptation h.continuityCounter
  simp only [TsHeader.parse, TsHeader.write, List.getD_cons_zero, List.getD_cons_succ, ne_eq,
    not_true_eq_false, if_false, htei, hpusi, hprio, hlow, hscr, hada, hcc, headerPid,
    (flag_ne_zero h.tei).1, (flag_ne_zero h.payloadUnitStart).2.1, (flag_ne_zero h.priority).2.2]

/-- The header both builders write, read back. -/
lemma parse_frameHeader (pid : UInt16) (cc : UInt8) :
    TsHeader.parse (frameHeader pid cc).write =
      .ok (frameHeader (pid &&& 0x1FFF) (cc &&& 0x0F)) := by
  rw [TsHeader.parse_write]
  have hscr : (0 : UInt8) &&& 0x03 = 0 := by decide
  have hada : (1 : UInt8) &&& 0x03 = 1 := by decide
  simp only [frameHeader, hscr, hada]

lemma maskPid_eq_self_iff (pid : UInt16) : pid &&& 0x1FFF = pid ↔ pid < 0x2000 := by
  have hmask : (pid &&& 0x1FFF).toNat = pid.toNat % 2 ^ 13 := by
    rw [UInt16.toNat_and, ← Nat.and_two_pow_sub_one_eq_mod]
    rfl
  rw [← UInt16.toNat_inj, hmask, UInt16.lt_iff_toNat_lt]
  have : (0x2000 : UInt16).toNat = 2 ^ 13 := rfl
  omega

/-! ## Layout of a built packet -/

/-- Copying over a middle piece of the same length replaces that piece. -/
lemma copyAt_middle {α : Type} (xs ys zs src : List α) (off : ℕ)
    (hoff : off = xs.length) (hlen : src.length = ys.length) :
    copyAt (xs ++ (ys ++ zs)) off src = xs ++ (src ++ zs) := by
  subst hoff
  simp only [copyAt, List.take_left, List.append_assoc]
  rw [List.drop_append, hlen, List.drop_eq_nil_of_le (by omega), Nat.add_sub_cancel_left,
    List.drop_left, List.nil_append]

/-- Any packet buffer is a header, a type byte, an OTI field, a payload id and a symbol. -/
lemma exists_packet_pieces {out : Bytes} (h : out.length = tsPacketSize) :
    ∃ (hdr : Bytes) (ft : UInt8) (oti pid sym : Bytes),
      out = hdr ++ ([ft] ++ (oti ++ (pid ++ sym))) ∧ hdr.length = tsHeaderSize ∧
        oti.length = 12 ∧ pid.length = 4 ∧ sym.length = symbolSize := by
  have hlen : out.length = 188 := h
  -- the header, the type byte, and then the other three pieces
  obtain ⟨hdr, rest, rfl, hhdr⟩ : ∃ hdr rest : Bytes, out = hdr ++ rest ∧ hdr.length = 4 :=
    ⟨out.take 4, out.drop 4, (List.take_append_drop 4 out).symm, by simp [hlen]⟩
  obtain ⟨ft, rest, rfl⟩ : ∃ (ft : UInt8) (rest' : Bytes), rest = ft :: rest' := by
    cases rest with
    | nil => simp [hhdr] at hlen
    | cons ft rest' => exact ⟨ft, rest', rfl⟩
  simp only [List.length_append, List.length_cons, hhdr] at hlen
  refine ⟨hdr, ft, rest.take 12, (rest.drop 12).take 4, rest.drop 16, ?_, hhdr, ?_, ?_, ?_⟩
  · have h₁ : (rest.drop 12).take 4 ++ rest.drop 16 = rest.drop 12 := by
      rw [← List.drop_drop (i := 4) (j := 12), List.take_append_drop]
    rw [h₁, List.take_append_drop]
    rfl
  · simp only [List.length_take]
    omega
  · simp only [List.length_take, List.length_drop]
    omega
  · simp only [List.length_drop, symbolSize_eq]
    omega

/-- **Layout.** The data packet is its five pieces, whatever the buffer held before. -/
theorem buildDataPacket_eq (w : WireCodec) (pid : UInt16) (cc : UInt8)
    (oti : ObjectTransmissionInformation) (pkt : EncodingPacket) {out : Bytes}
    (hout : out.length = tsPacketSize) (hdata : pkt.data.length = symbolSize) :
    buildDataPacket w pid cc oti pkt out =
      (frameHeader pid cc).write ++ ([frameTypeData] ++ ((w.serializeOti oti).toList ++
        ((w.serializePayloadId pkt.payloadId).toList ++ pkt.data))) := by
  obtain ⟨hdr, ft, o, p, sym, rfl, hhdr, ho, hp, hsym⟩ := exists_packet_pieces hout
  -- the five writes of the builder, each over the piece that stood there
  have h₁ : copyAt (hdr ++ ([ft] ++ (o ++ (p ++ sym)))) 0 (frameHeader pid cc).write
      = (frameHeader pid cc).write ++ ([ft] ++ (o ++ (p ++ sym))) :=
    copyAt_middle [] hdr _ _ _ rfl (by rw [TsHeader.length_write, hhdr])
  have h₂ : ((frameHeader pid cc).write ++ ([ft] ++ (o ++ (p ++ sym)))).set
        (tsHeaderSize + frameTypeOffset) frameTypeData
      = (frameHeader pid cc).write ++ ([frameTypeData] ++ (o ++ (p ++ sym))) := rfl
  have h₃ := copyAt_middle ((frameHeader pid cc).write ++ [frameTypeData]) o (p ++ sym)
    (w.serializeOti oti).toList (tsHeaderSize + frameOtiOffset) rfl (by simp [ho])
  have h₄ := copyAt_middle ((frameHeader pid cc).write ++ ([frameTypeData] ++
    (w.serializeOti oti).toList)) p sym (w.serializePayloadId pkt.payloadId).toList
    (tsHeaderSize + framePayloadIdOffset) (by simp; rfl) (by simp [hp])
  have h₅ := copyAt_middle ((frameHeader pid cc).write ++ ([frameTypeData] ++
    ((w.serializeOti oti).toList ++ (w.serializePayloadId pkt.payloadId).toList))) sym []
    pkt.data (tsHeaderSize + frameSymbolOffset) (by simp; rfl)
    (by rw [hdata, hsym])
  simp only [List.append_assoc, List.append_nil] at h₃ h₄ h₅
  simp only [buildDataPacket, h₁, h₂, h₃, h₄, h₅]

lemma length_buildDataPacket (w : WireCodec) (pid : UInt16) (cc : UInt8)
    (oti : ObjectTransmissionInformation) (pkt : EncodingPacket) {out : Bytes}
    (hout : out.length = tsPacketSize) (hdata : pkt.data.length = symbolSize) :
    (buildDataPacket w pid cc oti pkt out).length = tsPacketSize := by
  rw [buildDataPacket_eq w pid cc oti pkt hout hdata]
  simp [hdata]
  rfl

/-- The noop packet is its header, its type byte and stuffing. -/
theorem buildNoopPacket_eq (pid : UInt16) (cc : UInt8) {out : Bytes}
    (hout : out.length = tsPacketSize) :
    buildNoopPacket pid cc out = (frameHeader pid cc).write ++
      ([frameTypeNoop] ++ List.replicate (tsPayloadSize - 1) 0xFF) := by
  obtain ⟨hdr, ft, o, p, sym, rfl, hhdr, ho, hp, hsym⟩ := exists_packet_pieces hout
  set rest := o ++ (p ++ sym) with hrest
  have hlen : rest.length = tsPayloadSize - 1 := by
    simp only [hrest, List.length_append, ho, hp, hsym]
    rfl
  have h₁ : copyAt (hdr ++ ([ft] ++ rest)) 0 (frameHeader pid cc).write
      = (frameHeader pid cc).write ++ ([ft] ++ rest) :=
    copyAt_middle [] hdr _ _ _ rfl (by rw [TsHeader.length_write, hhdr])
  have h₂ : ((frameHeader pid cc).write ++ ([ft] ++ rest)).set tsHeaderSize frameTypeNoop
      = (frameHeader pid cc).write ++ ([frameTypeNoop] ++ rest) := rfl
  have h₃ : ((frameHeader pid cc).write ++ ([frameTypeNoop] ++ rest)).length
      - (tsHeaderSize + 1) = tsPayloadSize - 1 := by
    simp only [List.length_append, TsHeader.length_write, List.length_singleton, hlen]
    omega
  have h₄ := copyAt_middle ((frameHeader pid cc).write ++ [frameTypeNoop]) rest []
    (List.replicate (tsPayloadSize - 1) 0xFF) (tsHeaderSize + 1) rfl (by simp [hlen])
  simp only [List.append_assoc, List.append_nil] at h₄
  simp only [buildNoopPacket, h₁, h₂, h₃, h₄]

lemma length_buildNoopPacket (pid : UInt16) (cc : UInt8) {out : Bytes}
    (hout : out.length = tsPacketSize) : (buildNoopPacket pid cc out).length = tsPacketSize := by
  rw [buildNoopPacket_eq pid cc hout]
  simp
  rfl

/-! ## Parsing a built packet -/

lemma toArray_toList {n : ℕ} (v : Vector UInt8 n) : toArray n v.toList = v := by
  apply Vector.ext
  intro i hi
  simp [toArray]

/-- The slices the parser takes of a payload are its pieces. -/
lemma slice_payload (ft : UInt8) {oti pid sym : Bytes} (hoti : oti.length = 12)
    (hpid : pid.length = 4) (hsym : sym.length = symbolSize) :
    slice ([ft] ++ (oti ++ (pid ++ sym))) frameOtiOffset 12 = oti ∧
      slice ([ft] ++ (oti ++ (pid ++ sym))) framePayloadIdOffset 4 = pid ∧
      slice ([ft] ++ (oti ++ (pid ++ sym))) frameSymbolOffset symbolSize = sym := by
  refine ⟨?_, ?_, ?_⟩
  · rw [slice_append_of_eq 0 (by rfl), slice_append_left (by omega), ← hoti, slice_zero_length]
  · rw [slice_append_of_eq 12 (by rfl), slice_append_of_eq 0 (by omega),
      slice_append_left (by omega), ← hpid, slice_zero_length]
  · rw [slice_append_of_eq 16 (by rfl), slice_append_of_eq 4 (by omega),
      slice_append_of_eq 0 (by omega), ← hsym, slice_zero_length]

/-- What the parser has read when it returns a data frame. -/
lemma parsePacket_eq_data {w : WireCodec} {bytes : Bytes} {pid : UInt16} {cc : UInt8}
    {oti : ObjectTransmissionInformation} {id : PayloadId} {symbol : Bytes}
    (h : parsePacket w bytes pid = .ok (.data cc oti id symbol)) :
    bytes.length = tsPacketSize ∧
      oti = w.deserializeOti (toArray 12 (slice (bytes.drop tsHeaderSize) frameOtiOffset 12)) ∧
      id = w.deserializePayloadId
        (toArray 4 (slice (bytes.drop tsHeaderSize) framePayloadIdOffset 4)) ∧
      symbol = slice (bytes.drop tsHeaderSize) frameSymbolOffset symbolSize := by
  unfold parsePacket at h
  by_cases hlen : bytes.length = tsPacketSize
  · rw [if_neg (by simpa using hlen)] at h
    cases hhdr : TsHeader.parse (bytes.take tsHeaderSize) with
    | error e => simp [hhdr] at h
    | ok hdr =>
      simp only [hhdr] at h
      -- the two checks of the header and the two frame types
      split at h
      · cases h
      · split at h
        · cases h
        · split at h
          · cases h
          · split at h
            · simp only [Except.ok.injEq, ParsedFrame.data.injEq] at h
              obtain ⟨-, ho, hi, hs⟩ := h
              exact ⟨hlen, ho.symm, hi.symm, hs.symm⟩
            · cases h
  · rw [if_pos hlen] at h
    cases h

/-- The symbol of a parsed data frame has the wire's size. -/
lemma parsePacket_symbol_length {w : WireCodec} {bytes : Bytes} {pid : UInt16} {cc : UInt8}
    {oti : ObjectTransmissionInformation} {id : PayloadId} {symbol : Bytes}
    (h : parsePacket w bytes pid = .ok (.data cc oti id symbol)) :
    symbol.length = symbolSize := by
  obtain ⟨hlen, -, -, rfl⟩ := parsePacket_eq_data h
  refine length_slice ?_
  rw [List.length_drop, hlen]
  decide

/-- A packet whose header is a builder's, in general. -/
lemma parsePacket_of_header (w : WireCodec) {pid expectedPid : UInt16} {cc : UInt8}
    {payload : Bytes} (hlen : payload.length = tsPayloadSize) :
    parsePacket w ((frameHeader pid cc).write ++ payload) expectedPid =
      if pid &&& 0x1FFF ≠ expectedPid then .error (.wrongPid (pid &&& 0x1FFF) expectedPid)
      else if payload.getD frameTypeOffset 0 = frameTypeNoop then .ok (.noop (cc &&& 0x0F))
      else if payload.getD frameTypeOffset 0 = frameTypeData then
        .ok (.data (cc &&& 0x0F)
          (w.deserializeOti (toArray 12 (slice payload frameOtiOffset 12)))
          (w.deserializePayloadId (toArray 4 (slice payload framePayloadIdOffset 4)))
          (slice payload frameSymbolOffset symbolSize))
      else .error (.unknownFrameType (payload.getD frameTypeOffset 0)) := by
  have hsize : ((frameHeader pid cc).write ++ payload).length = tsPacketSize := by
    rw [List.length_append, hlen]
    rfl
  have htake : ((frameHeader pid cc).write ++ payload).take tsHeaderSize
      = (frameHeader pid cc).write :=
    List.take_left' (TsHeader.length_write _)
  have hdrop : ((frameHeader pid cc).write ++ payload).drop tsHeaderSize = payload :=
    List.drop_left' (TsHeader.length_write _)
  simp only [parsePacket, hsize, ne_eq, not_true_eq_false, if_false, htake, parse_frameHeader,
    hdrop]
  rfl

section

variable (w : WireCodec) (pid : UInt16) (cc : UInt8) {oti : ObjectTransmissionInformation}
  {pkt : EncodingPacket} {out : Bytes}

/-- A data packet built with a 13-bit PID parses as data, with the OTI and the payload id that
the FEC crate reads from what it has written. -/
lemma parsePacket_buildDataPacket_read (hpid : pid < 0x2000) (hout : out.length = tsPacketSize)
    (hdata : pkt.data.length = symbolSize) :
    parsePacket w (buildDataPacket w pid cc oti pkt out) pid =
      .ok (.data (cc &&& 0x0F) (w.deserializeOti (w.serializeOti oti))
        (w.deserializePayloadId (w.serializePayloadId pkt.payloadId)) pkt.data) := by
  rw [buildDataPacket_eq w pid cc oti pkt hout hdata, parsePacket_of_header]
  · have hmask : pid &&& 0x1FFF = pid := (maskPid_eq_self_iff pid).mpr hpid
    set O := (w.serializeOti oti).toList with hO
    set P := (w.serializePayloadId pkt.payloadId).toList with hP
    have hOlen : O.length = 12 := by simp [hO]
    have hPlen : P.length = 4 := by simp [hP]
    -- the parser's slices of the payload are the pieces
    have htype : ([frameTypeData] ++ (O ++ (P ++ pkt.data))).getD frameTypeOffset 0
        = frameTypeData := rfl
    obtain ⟨hotiSlice, hpidSlice, hsymSlice⟩ :=
      slice_payload frameTypeData hOlen hPlen hdata
    have hne : frameTypeData ≠ frameTypeNoop := by decide
    rw [htype, hotiSlice, hpidSlice, hsymSlice, hO, hP, toArray_toList, toArray_toList]
    simp [hmask, hne]
  · simp [hdata]
    rfl

/-- **Data round trip.** A data packet built with a 13-bit PID parses to what it was built
from. -/
theorem parsePacket_buildDataPacket (hw : w.Laws) (hpid : pid < 0x2000)
    (hout : out.length = tsPacketSize) (hoti : oti.InRange)
    (hesi : pkt.payloadId.encodingSymbolId < 2 ^ 24) (hdata : pkt.data.length = symbolSize) :
    parsePacket w (buildDataPacket w pid cc oti pkt out) pid =
      .ok (.data (cc &&& 0x0F) oti pkt.payloadId pkt.data) := by
  rw [parsePacket_buildDataPacket_read w pid cc hpid hout hdata, hw.oti_roundtrip oti hoti,
    hw.payloadId_roundtrip pkt.payloadId hesi]

/-- A PID above 13 bits is rejected by its own packets. -/
theorem parsePacket_buildDataPacket_wide (hpid : ¬ pid < 0x2000)
    (hout : out.length = tsPacketSize) (hdata : pkt.data.length = symbolSize) :
    parsePacket w (buildDataPacket w pid cc oti pkt out) pid =
      .error (.wrongPid (pid &&& 0x1FFF) pid) := by
  rw [buildDataPacket_eq w pid cc oti pkt hout hdata, parsePacket_of_header]
  · rw [if_pos (mt (maskPid_eq_self_iff pid).mp hpid)]
  · simp [hdata]
    rfl

/-- A noop packet is never parsed as data. -/
theorem parsePacket_buildNoopPacket (hout : out.length = tsPacketSize) :
    parsePacket w (buildNoopPacket pid cc out) pid =
      if pid < 0x2000 then .ok (.noop (cc &&& 0x0F))
      else .error (.wrongPid (pid &&& 0x1FFF) pid) := by
  rw [buildNoopPacket_eq pid cc hout, parsePacket_of_header _ (by simp; rfl)]
  have htype : ([frameTypeNoop] ++ List.replicate (tsPayloadSize - 1) 0xFF).getD frameTypeOffset 0
      = frameTypeNoop := rfl
  rw [htype]
  by_cases hpid : pid < 0x2000
  · simp [hpid, (maskPid_eq_self_iff pid).mpr hpid]
  · rw [if_pos (mt (maskPid_eq_self_iff pid).mp hpid), if_neg hpid]

end

end RaptorqTs
