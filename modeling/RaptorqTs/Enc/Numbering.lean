import RaptorqTs.Enc.Writer

/-!
# The continuity counter on the wire

Each frame the writer writes, data or noop, takes the next value of the continuity counter:
frame `i` carries `i mod 16`. What the frames are made of is a list of items, one for each
frame: the packet of a data frame, and nothing for a noop.
-/

namespace RaptorqTs.Enc

lemma toNat_and_low (x : UInt8) : (x &&& 0x0F).toNat = x.toNat % 16 := by
  rw [UInt8.toNat_and]
  show x.toNat &&& (2 ^ 4 - 1) = x.toNat % 2 ^ 4
  rw [Nat.and_two_pow_sub_one_eq_mod]

/-- The continuity counter of frame `i`. -/
def ccOf (i : ℕ) : UInt8 := UInt8.ofNat (i % 16)

@[simp] lemma toNat_ccOf (i : ℕ) : (ccOf i).toNat = i % 16 := by
  have : i % 16 < 16 := Nat.mod_lt i (by decide)
  simp only [ccOf, UInt8.toNat_ofNat']
  omega

lemma advance_ccOf (i : ℕ) : ContinuityCounter.advance (ccOf i) = (ccOf i, ccOf (i + 1)) := by
  unfold ContinuityCounter.advance
  congr 1
  apply UInt8.toNat_inj.mp
  rw [toNat_and_low, UInt8.toNat_add, toNat_ccOf, toNat_ccOf]
  show (i % 16 + 1) % 2 ^ 8 % 16 = (i + 1) % 16
  omega

/-- A counter fits its four bits. -/
lemma ccOf_and_low (i : ℕ) : ccOf i &&& 0x0F = ccOf i := by
  apply UInt8.toNat_inj.mp
  rw [toNat_and_low, toNat_ccOf, Nat.mod_mod]

/-- The frame that the writer builds for an item, in the buffer `out`. -/
def frameFor (codec : WireCodec) (pid : UInt16) (oti : ObjectTransmissionInformation) (cc : UInt8)
    (item : Option Sent) (out : Bytes) : Bytes :=
  match item with
  | some x => buildDataPacket codec pid cc oti x.packet out
  | none => buildNoopPacket pid cc out

/-- What the parser reads from the frame of an item. -/
def readBack (codec : WireCodec) (oti : ObjectTransmissionInformation) (cc : UInt8)
    (item : Option Sent) : ParsedFrame :=
  match item with
  | some x => .data cc (codec.deserializeOti (codec.serializeOti oti))
      (codec.deserializePayloadId (codec.serializePayloadId x.packet.payloadId)) x.packet.data
  | none => .noop cc

/-- With a lawful codec a data frame reads back as its packet. -/
lemma readBack_of_laws {codec : WireCodec} {oti : ObjectTransmissionInformation} (cc : UInt8)
    (hcodec : codec.Laws) (hoti : oti.InRange) {x : Sent}
    (hid : x.packet.payloadId.encodingSymbolId < 2 ^ 24) :
    readBack codec oti cc (some x) = .data cc oti x.packet.payloadId x.packet.data := by
  show ParsedFrame.data _ _ _ _ = _
  rw [hcodec.oti_roundtrip oti hoti, hcodec.payloadId_roundtrip _ hid]

section frameFor

variable (codec : WireCodec) {pid : UInt16} (oti : ObjectTransmissionInformation) (i : ℕ)
  {item : Option Sent} {out : Bytes}

lemma parsePacket_frameFor (hpid : pid < 0x2000) (hout : out.length = tsPacketSize)
    (hitem : ∀ x ∈ item, x.packet.data.length = symbolSize) :
    parsePacket codec (frameFor codec pid oti (ccOf i) item out) pid =
      .ok (readBack codec oti (ccOf i) item) := by
  cases item with
  | none =>
    show parsePacket codec (buildNoopPacket pid (ccOf i) out) pid = .ok (.noop (ccOf i))
    rw [parsePacket_buildNoopPacket codec pid (ccOf i) hout, if_pos hpid, ccOf_and_low]
  | some x =>
    show parsePacket codec (buildDataPacket codec pid (ccOf i) oti x.packet out) pid = _
    rw [parsePacket_buildDataPacket_read codec pid (ccOf i) hpid hout (hitem x rfl), ccOf_and_low]
    rfl

lemma parsePacket_frameFor_wide (hpid : ¬ pid < 0x2000) (hout : out.length = tsPacketSize)
    (hitem : ∀ x ∈ item, x.packet.data.length = symbolSize) :
    parsePacket codec (frameFor codec pid oti (ccOf i) item out) pid =
      .error (.wrongPid (pid &&& 0x1FFF) pid) := by
  cases item with
  | none =>
    show parsePacket codec (buildNoopPacket pid (ccOf i) out) pid = _
    rw [parsePacket_buildNoopPacket codec pid (ccOf i) hout, if_neg hpid]
  | some x =>
    show parsePacket codec (buildDataPacket codec pid (ccOf i) oti x.packet out) pid = _
    rw [parsePacket_buildDataPacket_wide codec pid (ccOf i) hpid hout (hitem x rfl)]

end frameFor

/-- The frame `f` is frame `i` on the wire, made of the item. -/
structure Carries (codec : WireCodec) (pid : UInt16) (oti : ObjectTransmissionInformation) (i : ℕ)
    (item : Option Sent) (f : WireFrame) : Prop where
  origin : f.origin = item.map Sent.origin
  bytes : ∃ out, out.length = tsPacketSize ∧ f.bytes = frameFor codec pid oti (ccOf i) item out

/-- The frames are made of the items, one by one, and numbered from zero. -/
structure Numbered (codec : WireCodec) (pid : UInt16) (oti : ObjectTransmissionInformation)
    (items : List (Option Sent)) (frames : List WireFrame) : Prop where
  length_eq : items.length = frames.length
  carries : ∀ i item f, items[i]? = some item → frames[i]? = some f →
    Carries codec pid oti i item f

section Numbered

variable {codec : WireCodec} {pid : UInt16} {oti : ObjectTransmissionInformation}
  {items : List (Option Sent)} {frames : List WireFrame} {item : Option Sent} {f : WireFrame}

lemma Numbered.nil : Numbered codec pid oti [] [] := by
  refine ⟨rfl, fun i item f hitem => ?_⟩
  rw [List.getElem?_nil] at hitem
  cases hitem

lemma Numbered.concat (h : Numbered codec pid oti items frames)
    (hf : Carries codec pid oti frames.length item f) :
    Numbered codec pid oti (items ++ [item]) (frames ++ [f]) := by
  refine ⟨by simp [h.length_eq], fun i item' f' hitem hframe => ?_⟩
  by_cases hi : i < frames.length
  · rw [List.getElem?_append_left (by rw [h.length_eq]; exact hi)] at hitem
    rw [List.getElem?_append_left hi] at hframe
    exact h.carries i item' f' hitem hframe
  · -- the new frame
    have hlt := (List.getElem?_eq_some_iff.mp hframe).1
    rw [List.length_append, List.length_singleton] at hlt
    obtain rfl : i = frames.length := by omega
    rw [List.getElem?_append_right (by rw [h.length_eq]), h.length_eq, Nat.sub_self] at hitem
    rw [List.getElem?_append_right le_rfl, Nat.sub_self] at hframe
    rw [← Option.some.inj hitem, ← Option.some.inj hframe]
    exact hf

/-- The first frames are made of the first items. -/
lemma Numbered.of_append {frames' : List WireFrame}
    (h : Numbered codec pid oti items (frames ++ frames')) :
    Numbered codec pid oti (items.take frames.length) frames := by
  have hlen := h.length_eq
  rw [List.length_append] at hlen
  refine ⟨by rw [List.length_take]; omega, fun i item f hitem hframe => ?_⟩
  have hi := (List.getElem?_eq_some_iff.mp hframe).1
  rw [List.getElem?_take_of_lt hi] at hitem
  apply h.carries i item f hitem
  rw [List.getElem?_append_left hi, hframe]

/-- The header of a frame reads back as the counter of its place. -/
lemma Carries.header {i : ℕ} (h : Carries codec pid oti i item f)
    (hitem : ∀ x ∈ item, x.packet.data.length = symbolSize) :
    TsHeader.parse (f.bytes.take tsHeaderSize) = .ok (frameHeader (pid &&& 0x1FFF) (ccOf i)) := by
  obtain ⟨out, hout, hbytes⟩ := h.bytes
  have htake : f.bytes.take tsHeaderSize = (frameHeader pid (ccOf i)).write := by
    rw [hbytes]
    cases item with
    | none =>
      show (buildNoopPacket pid (ccOf i) out).take tsHeaderSize = _
      rw [buildNoopPacket_eq pid (ccOf i) hout]
      exact List.take_left' (TsHeader.length_write _)
    | some x =>
      show (buildDataPacket codec pid (ccOf i) oti x.packet out).take tsHeaderSize = _
      rw [buildDataPacket_eq codec pid (ccOf i) oti x.packet hout (hitem x rfl)]
      exact List.take_left' (TsHeader.length_write _)
  rw [htake, parse_frameHeader, ccOf_and_low]

end Numbered

/-! ## The writer -/

namespace Writer

variable {codec : WireCodec} {pid : UInt16} {oti : ObjectTransmissionInformation} {w w' : Writer}

/-- The frames written, and the one in the buffer. -/
def onWire (w : Writer) : List WireFrame :=
  match w.point with
  | .writing origin => w.wire ++ [⟨w.buf, origin⟩]
  | _ => w.wire

/-- The invariant: the frames are numbered, and made of the packets received. -/
structure NumInv (codec : WireCodec) (pid : UInt16) (oti : ObjectTransmissionInformation)
    (w : Writer) (items : List (Option Sent)) : Prop where
  buf_length : w.buf.length = tsPacketSize
  numbered : Numbered codec pid oti items w.onWire
  received : items.filterMap id <+: w.received
  running : w.point ≠ .exited .error →
    items.filterMap id = w.received ∧ w.cc = ccOf items.length

/-- The packets received fit the wire. -/
def Fitting (w : Writer) : Prop := ∀ x ∈ w.received, x.packet.data.length = symbolSize

lemma NumInv.init : NumInv codec pid oti init [] where
  buf_length := List.length_replicate ..
  numbered := Numbered.nil
  received := List.prefix_rfl
  running _ := ⟨rfl, rfl⟩

lemma length_frameFor (codec : WireCodec) (pid : UInt16) (oti : ObjectTransmissionInformation)
    (cc : UInt8) {item : Option Sent} {out : Bytes} (hout : out.length = tsPacketSize)
    (hitem : ∀ x ∈ item, x.packet.data.length = symbolSize) :
    (frameFor codec pid oti cc item out).length = tsPacketSize := by
  cases item with
  | none => exact length_buildNoopPacket pid cc hout
  | some x => exact length_buildDataPacket codec pid cc oti x.packet hout (hitem x rfl)

/-- The next item is put into the buffer. -/
lemma NumInv.build {items : List (Option Sent)} (h : NumInv codec pid oti w items)
    (hpoint : w.point = .polling) {item : Option Sent}
    (hitem : ∀ x ∈ item, x.packet.data.length = symbolSize) {w' : Writer}
    (hpoint' : w'.point = .writing (item.map Sent.origin)) (hcc : w'.cc = ccOf (items.length + 1))
    (hbuf : w'.buf = frameFor codec pid oti w.cc item w.buf)
    (hreceived : w'.received = w.received ++ item.toList) (hwire : w'.wire = w.wire) :
    NumInv codec pid oti w' (items ++ [item]) := by
  have hrunning := h.running (by rw [hpoint]; intro hne; cases hne)
  have hnumbered := h.numbered
  unfold onWire at hnumbered
  rw [hpoint] at hnumbered
  simp only at hnumbered
  have hfilter : (items ++ [item]).filterMap id = w'.received := by
    rw [List.filterMap_append, hrunning.1, hreceived]
    cases item <;> rfl
  refine ⟨?_, ?_, ?_, fun _ => ⟨hfilter, ?_⟩⟩
  · rw [hbuf]
    exact length_frameFor codec pid oti w.cc h.buf_length hitem
  · unfold onWire
    rw [hpoint', hwire]
    apply hnumbered.concat
    refine ⟨rfl, w.buf, h.buf_length, ?_⟩
    rw [← hnumbered.length_eq, ← hrunning.2]
    exact hbuf
  · rw [hfilter]
  · rw [hcc, List.length_append, List.length_singleton]

lemma NumInv.step {items : List (Option Sent)} (h : NumInv codec pid oti w items)
    {a : WriterAction} (hstep : step codec pid oti w a = some w') (hfit : Fitting w') :
    ∃ items', NumInv codec pid oti w' items' := by
  have hrunning := h.running
  have hnumbered := h.numbered
  unfold onWire at hnumbered
  unfold Writer.step at hstep
  split at hstep
  · rename_i x hpoint
    rw [hpoint] at hrunning
    obtain ⟨-, hcc⟩ := hrunning (by intro hne; cases hne)
    rw [hcc, advance_ccOf, Option.some.injEq] at hstep
    rw [← hstep] at hfit ⊢
    refine ⟨items ++ [some x], h.build hpoint ?_ rfl rfl ?_ rfl rfl⟩
    · intro y hy
      obtain rfl := Option.some.inj hy
      exact hfit x (List.mem_append_right _ (List.mem_singleton_self x))
    · rw [hcc]
      rfl
  · rename_i hpoint
    rw [hpoint] at hrunning
    obtain ⟨-, hcc⟩ := hrunning (by intro hne; cases hne)
    rw [hcc, advance_ccOf, Option.some.injEq] at hstep
    rw [← hstep]
    refine ⟨items ++ [none], h.build hpoint ?_ rfl rfl ?_ ?_ rfl⟩
    · intro y hy
      cases hy
    · rw [hcc]
      rfl
    · exact (List.append_nil _).symm
  · rename_i hpoint
    rw [Option.some.injEq] at hstep
    rw [hpoint] at hnumbered hrunning
    rw [← hstep]
    exact ⟨items, h.buf_length, hnumbered, h.received, fun _ => hrunning (by intro hne; cases hne)⟩
  · rename_i origin hpoint
    rw [Option.some.injEq] at hstep
    rw [hpoint] at hnumbered hrunning
    rw [← hstep]
    exact ⟨items, h.buf_length, hnumbered, h.received, fun _ => hrunning (by intro hne; cases hne)⟩
  · rename_i origin hpoint
    rw [Option.some.injEq] at hstep
    rw [hpoint] at hnumbered
    rw [← hstep]
    -- the frame in the buffer is given up
    refine ⟨items.take w.wire.length, h.buf_length, hnumbered.of_append, ?_, ?_⟩
    · exact ((List.take_prefix _ _).filterMap id).trans h.received
    · intro hne
      exact absurd rfl hne
  · cases hstep

/-- **The wire**, in every run of the writer on packets that fit: frame `i` carries the
continuity counter `i mod 16`, and the packets in the frames are those received, in order. -/
theorem Reachable.numbered (h : Reachable codec pid oti w) (hfit : Fitting w) :
    ∃ items, NumInv codec pid oti w items := by
  refine Machine.Reachable.invariant
    (P := fun w => Fitting w → ∃ items, NumInv codec pid oti w items)
    (fun _ => ⟨[], NumInv.init⟩) ?_ h hfit
  intro w a w' _ ih hstep hfit'
  have hfit : Fitting w := fun x hx => hfit' x ((received_step hstep).subset hx)
  obtain ⟨items, hitems⟩ := ih hfit
  exact hitems.step hstep hfit'

/-- The frames written so far. -/
lemma NumInv.wire {items : List (Option Sent)} (h : NumInv codec pid oti w items) :
    ∃ items', Numbered codec pid oti items' w.wire ∧ items'.filterMap id <+: w.received ∧
      (w.point = .exited .ok → items'.filterMap id = w.received) := by
  have hnumbered := h.numbered
  have hrunning := h.running
  unfold onWire at hnumbered
  cases hpoint : w.point with
  | polling =>
    rw [hpoint] at hnumbered
    exact ⟨items, hnumbered, h.received, fun hok => by cases hok⟩
  | writing origin =>
    rw [hpoint] at hnumbered
    refine ⟨items.take w.wire.length, hnumbered.of_append, ?_, fun hok => by cases hok⟩
    exact ((List.take_prefix _ _).filterMap id).trans h.received
  | exited result =>
    rw [hpoint] at hnumbered hrunning
    refine ⟨items, hnumbered, h.received, fun hok => (hrunning ?_).1⟩
    rw [hok]
    intro hne
    cases hne

/-- Frame `i` on the wire carries the counter `i mod 16`, around a symbol of the wire's size if
it carries a packet. -/
theorem Reachable.carries (h : Reachable codec pid oti w) (hfit : Fitting w) {i : ℕ} {f : WireFrame}
    (hf : w.wire[i]? = some f) :
    ∃ item, Carries codec pid oti i item f ∧ ∀ x ∈ item, x.packet.data.length = symbolSize := by
  obtain ⟨items, hitems⟩ := h.numbered hfit
  obtain ⟨items', hnumbered, hreceived, -⟩ := hitems.wire
  have hi : i < items'.length := by
    rw [hnumbered.length_eq]
    exact (List.getElem?_eq_some_iff.mp hf).1
  have hitem : items'[i]? = some items'[i] := List.getElem?_eq_getElem hi
  refine ⟨items'[i], hnumbered.carries i _ f hitem hf, fun x hx => ?_⟩
  -- a packet on the wire has been received
  apply hfit x
  apply hreceived.subset
  exact List.mem_filterMap.mpr ⟨items'[i], List.mem_of_getElem? hitem, hx⟩

end Writer

end RaptorqTs.Enc
