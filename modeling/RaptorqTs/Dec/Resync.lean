import RaptorqTs.Common.Reference
import RaptorqTs.Common.RoundTrip
import RaptorqTs.Dec.Reader

/-!
# Resynchronisation

A receiver tunes in anywhere, so the first packet it reads may be cut. The reader takes the
first 0x47 for the start of a packet and goes on 188 bytes behind it. When that byte was inside a
packet, the next one may have a 0x47 at the same place, and nothing makes the reader give it up.
-/

namespace RaptorqTs.Dec

/-- What the two builders write for a PID, whatever the buffer held before. -/
inductive IsWirePacket (codec : WireCodec) (pid : UInt16) : Bytes → Prop where
  | data (cc : UInt8) (oti : ObjectTransmissionInformation) (pkt : EncodingPacket) (out : Bytes)
      (hout : out.length = tsPacketSize) (hdata : pkt.data.length = symbolSize) :
      IsWirePacket codec pid (buildDataPacket codec pid cc oti pkt out)
  | noop (cc : UInt8) (out : Bytes) (hout : out.length = tsPacketSize) :
      IsWirePacket codec pid (buildNoopPacket pid cc out)

/-- Behind the garbage the reader sends at most `bound` packets before it sends exactly the
packets that are left, each from its place. -/
def RegainsAlignment (bound : ℕ) (garbage : Bytes) (packets : List Bytes) : Prop :=
  ∀ r, Reader.Finished (garbage ++ packets.flatten) r →
    ∃ early m, r.sent = early ++ (tsFormat.placed garbage.length packets).drop m ∧
      early.length ≤ bound ∧ m ≤ early.length + 1

variable {codec : WireCodec} {pid : UInt16} {cc : UInt8} {out w : Bytes} {o : ℕ}

/-! ## The marks in the packets -/

lemma IsWirePacket.frame (h : IsWirePacket codec pid w) : tsFormat.Frame w := by
  cases h with
  | data cc oti pkt out hout hdata =>
    refine frame_of_head ⟨length_buildDataPacket codec pid cc oti pkt hout hdata, ?_⟩
    rw [buildDataPacket_eq codec pid cc oti pkt hout hdata]
    rfl
  | noop cc out hout =>
    refine frame_of_head ⟨length_buildNoopPacket pid cc hout, ?_⟩
    rw [buildNoopPacket_eq pid cc hout]
    rfl

lemma pidHigh_ne_sync (b : UInt8) : b &&& 0x1F ≠ tsSyncByte := by
  intro h
  have hle : (b &&& 0x1F).toNat ≤ 0x1F := by
    rw [UInt8.toNat_and]
    exact Nat.and_le_right
  rw [h] at hle
  exact absurd hle (by decide)

lemma counter_ne_sync (cc : UInt8) : 0x10 ||| (cc &&& 0x0F) ≠ tsSyncByte := by
  intro h
  have hlt : (0x10 ||| (cc &&& 0x0F)).toNat < 2 ^ 5 := by
    rw [UInt8.toNat_or, UInt8.toNat_and]
    exact Nat.or_lt_two_pow (by decide) (Nat.and_le_right.trans_lt (by decide))
  rw [h] at hlt
  exact absurd hlt (by decide)

/-- The header bytes of a built packet. -/
lemma write_frameHeader (pid : UInt16) (cc : UInt8) : (frameHeader pid cc).write =
    [tsSyncByte, (pid >>> 8).toUInt8 &&& 0x1F, (pid &&& 0xFF).toUInt8,
      0x10 ||| (cc &&& 0x0F)] := by
  have hflag : false.toUInt8 = 0 := rfl
  have hadaptation : ((1 : UInt8) &&& 3) <<< 4 = 16 := rfl
  simp [TsHeader.write, frameHeader, hflag, hadaptation]

/-- The place of the low byte of the PID is the only one in a noop packet, other than its start,
at which there can be a sync byte. -/
lemma markAt_buildNoopPacket (hout : out.length = tsPacketSize) (hpos : 0 < o) :
    tsFormat.markAt o (buildNoopPacket pid cc out) = true ↔
      o = 2 ∧ (pid &&& 0xFF).toUInt8 = tsSyncByte := by
  have hrest : ∀ b ∈ [frameTypeNoop] ++ List.replicate (tsPayloadSize - 1) 0xFF,
      tsFormat.mark b = false := by
    intro b hb
    rcases List.mem_append.mp hb with hb | hb
    · rw [List.mem_singleton.mp hb]
      rfl
    · rw [List.eq_of_mem_replicate hb]
      rfl
  have hmark (b : UInt8) : tsFormat.mark b = true ↔ b = tsSyncByte := beq_iff_eq
  rw [buildNoopPacket_eq pid cc hout, write_frameHeader]
  obtain rfl | rfl | rfl | ⟨o', rfl⟩ : o = 1 ∨ o = 2 ∨ o = 3 ∨ ∃ o', o = 4 + o' := by
    by_cases hlarge : 4 ≤ o
    · exact Or.inr (Or.inr (Or.inr ⟨o - 4, by omega⟩))
    · omega
  · simp [Framing.Format.markAt, hmark, pidHigh_ne_sync]
  · simp [Framing.Format.markAt, hmark]
  · simp [Framing.Format.markAt, hmark, counter_ne_sync]
  · have hlen := TsHeader.length_write (frameHeader pid cc)
    rw [write_frameHeader] at hlen
    rw [← show tsHeaderSize = 4 from rfl, Framing.Format.markAt_append_right hlen,
      Framing.Format.markAt_of_unmarked hrest o']
    refine iff_of_false (fun h => by cases h) fun h => ?_
    have hge : tsHeaderSize ≤ 2 := h.1 ▸ Nat.le_add_right _ _
    exact absurd hge (by decide)

/-! ## When alignment is regained -/

variable {bound : ℕ} {garbage : Bytes} {packets : List Bytes}

/-- The reader is in step when the scan is. -/
lemma regainsAlignment_iff :
    RegainsAlignment bound garbage packets ↔ tsFormat.Regains bound garbage packets := by
  constructor
  · intro h
    obtain ⟨r, hr⟩ := Reader.exists_finished (garbage ++ packets.flatten)
    obtain ⟨early, m, hsent, hlen, hm⟩ := h r hr
    exact ⟨early, m, (Reader.sent_of_finished hr).symm.trans hsent, hlen, hm⟩
  · rintro ⟨early, m, hscan, hlen, hm⟩ r hr
    exact ⟨early, m, (Reader.sent_of_finished hr).trans hscan, hlen, hm⟩

/-- A packet with a sync byte at another place than its start, again and again, behind its own
tail. -/
lemma not_exists_regainsAlignment (hw : IsWirePacket codec pid w) (hpos : 0 < o)
    (ho : o < tsPacketSize) (hmark : tsFormat.markAt o w = true) :
    ¬ ∃ bound : ℕ → ℕ, ∀ garbage packets, (∀ w ∈ packets, IsWirePacket codec pid w) →
      RegainsAlignment (bound garbage.length) garbage packets := by
  rintro ⟨bound, hbound⟩
  set packets := List.replicate (bound (w.drop o).length + 2) w with hpackets
  have hrun : ∀ v ∈ packets, v = w := fun v hv => List.eq_of_mem_replicate hv
  have hregains := hbound (w.drop o) packets fun v hv => hrun v hv ▸ hw
  rw [regainsAlignment_iff, ← List.append_nil packets] at hregains
  have hle := Framing.Format.length_le_of_regains hpos ho ⟨hw.frame.length_eq, hmark⟩
    (fun v hv => by rw [hrun v hv]; exact ⟨hw.frame.length_eq, hmark⟩) hregains
  rw [hpackets, List.length_replicate] at hle
  omega

/-- On every PID: a symbol may begin with a sync byte. -/
lemma not_bounded_of_data (codec : WireCodec) (pid : UInt16) :
    ¬ ∃ bound : ℕ → ℕ, ∀ garbage packets, (∀ w ∈ packets, IsWirePacket codec pid w) →
      RegainsAlignment (bound garbage.length) garbage packets := by
  have hout : (List.replicate tsPacketSize (0 : UInt8)).length = tsPacketSize :=
    List.length_replicate
  let pkt : EncodingPacket :=
    { payloadId := ⟨0, 0⟩, data := List.replicate symbolSize tsSyncByte }
  have hdata : pkt.data.length = symbolSize := List.length_replicate
  have hw : IsWirePacket codec pid _ := .data 0 (blockOti 0 0) pkt _ hout hdata
  refine not_exists_regainsAlignment hw (o := 21) (by decide) (by decide) ?_
  -- the symbol stands behind the header, the type byte, the OTI and the payload id
  rw [buildDataPacket_eq codec pid 0 _ pkt hout hdata,
    show 21 = tsHeaderSize + (1 + (12 + (4 + 0))) from rfl,
    Framing.Format.markAt_append_right (TsHeader.length_write _),
    Framing.Format.markAt_append_right List.length_singleton,
    Framing.Format.markAt_append_right Vector.length_toList,
    Framing.Format.markAt_append_right Vector.length_toList]
  rfl

/-- **Resynchronisation.** Let a sequence of packets of some kind remain of that kind without
its first packet, as for a receiver that may tune in at any of them. The number of packets that
the reader sends before it is aligned is bounded in terms of the garbage if and only if there is
a bound on the packets in a row that have a sync byte at the same place, other than their
start. For the sequences of all packets there is none, on any PID. -/
theorem resync_bounded_iff {C : List Bytes → Prop}
    (hwire : ∀ packets, C packets → ∀ w ∈ packets, IsWirePacket codec pid w)
    (htail : ∀ w packets, C (w :: packets) → C packets) :
    ((∃ bound : ℕ → ℕ, ∀ garbage packets, C packets →
        RegainsAlignment (bound garbage.length) garbage packets) ↔
      ∃ R, ∀ packets, C packets → tsFormat.RunsLe R packets) ∧
    ¬ ∃ bound : ℕ → ℕ, ∀ garbage packets, (∀ w ∈ packets, IsWirePacket codec pid w) →
      RegainsAlignment (bound garbage.length) garbage packets := by
  refine ⟨?_, not_bounded_of_data codec pid⟩
  simp only [regainsAlignment_iff]
  exact Framing.Format.exists_regains_iff (a := tsSyncByte) rfl
    (fun packets hC w hw => (hwire packets hC w hw).frame) htail

/-- The stuffing of an encoder without input, on a PID whose low byte is not the sync byte: the
place of the low byte is the only one that could hold the reader up. -/
lemma runsLe_noops (hpid : (pid &&& 0xFF).toUInt8 ≠ tsSyncByte)
    (h : ∀ w ∈ packets, ∃ cc out, out.length = tsPacketSize ∧ w = buildNoopPacket pid cc out) :
    tsFormat.RunsLe 0 packets := by
  rintro o hpos - pre run post rfl hrun
  cases run with
  | nil => exact Nat.le_refl _
  | cons w run =>
    obtain ⟨cc, out, hout, rfl⟩ := h w (by simp)
    have hmark := hrun _ List.mem_cons_self
    rw [markAt_buildNoopPacket hout hpos] at hmark
    exact absurd hmark.2 hpid

/-- The stuffing on PID 0x100. -/
theorem resync_bounded_noops :
    ∃ bound : ℕ → ℕ, ∀ garbage packets,
      (∀ w ∈ packets, ∃ cc out, out.length = tsPacketSize ∧ w = buildNoopPacket 0x100 cc out) →
      RegainsAlignment (bound garbage.length) garbage packets := by
  have hwire : ∀ packets : List Bytes,
      (∀ w ∈ packets, ∃ cc out, out.length = tsPacketSize ∧ w = buildNoopPacket 0x100 cc out) →
      ∀ w ∈ packets, IsWirePacket Reference.codec 0x100 w := by
    intro packets h w hw
    obtain ⟨cc, out, hout, rfl⟩ := h w hw
    exact .noop cc out hout
  exact (resync_bounded_iff hwire fun w packets h v hv => h v (List.mem_cons_of_mem w hv)).1.mpr
    ⟨0, fun packets h => runsLe_noops (by decide) h⟩

/-- On a PID whose low byte is the sync byte, an encoder without input is enough: behind the tail
of a noop packet from its third byte on, each noop packet is taken from there. -/
theorem resync_unbounded_noops :
    ¬ ∃ bound : ℕ → ℕ, ∀ garbage packets,
      (∀ w ∈ packets, IsWirePacket Reference.codec 0x147 w) →
      RegainsAlignment (bound garbage.length) garbage packets := by
  have hout : (List.replicate tsPacketSize (0 : UInt8)).length = tsPacketSize :=
    List.length_replicate
  have hmark : tsFormat.markAt 2
      (buildNoopPacket 0x147 0 (List.replicate tsPacketSize 0)) = true := by
    rw [markAt_buildNoopPacket hout (by decide)]
    decide
  exact not_exists_regainsAlignment (.noop 0 _ hout) (by decide) (by decide) hmark

end RaptorqTs.Dec
