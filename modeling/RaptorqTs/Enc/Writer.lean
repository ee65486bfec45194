import RaptorqTs.Common.WireTheorems
import RaptorqTs.Enc.Sent

/-!
# `writer_thread`

The writer takes the next packet off its channel, or makes a noop when there is none, and
writes one frame either way. One buffer is used for all frames. The pacing does not touch
the bytes and has a file of its own.
-/

namespace RaptorqTs.Enc

/-! ## The thread -/

inductive WriterPoint where
  /-- At `packets.try_recv()`. -/
  | polling
  /-- At the write of the frame in the buffer, which carries the packet of the origin. -/
  | writing (origin : Option Origin)
  | exited (result : Exit)
deriving DecidableEq, Repr

structure Writer where
  point : WriterPoint
  cc : UInt8
  buf : Bytes
  packetsSent : ℕ
  noopsSent : ℕ
  /-- History variable: the packets received. -/
  received : List Sent
  /-- History variable: the frames written. -/
  wire : List WireFrame
deriving DecidableEq, Repr

/-- What the environment decides: the result of `try_recv`, and that of the write. -/
inductive WriterAction where
  | recv (x : Sent)
  | empty
  | disconnected
  | written
  | ioError
deriving DecidableEq, Repr

namespace Writer

def init : Writer where
  point := .polling
  cc := 0
  buf := List.replicate tsPacketSize 0
  packetsSent := 0
  noopsSent := 0
  received := []
  wire := []

variable (codec : WireCodec) (pid : UInt16) (oti : ObjectTransmissionInformation)

/-- `writer_thread`, one action at a time. -/
def step (w : Writer) (a : WriterAction) : Option Writer :=
  match w.point, a with
  | .polling, .recv x =>
    let (cc, next) := ContinuityCounter.advance w.cc
    some { w with
      point := .writing (some x.origin)
      cc := next
      buf := buildDataPacket codec pid cc oti x.packet w.buf
      packetsSent := w.packetsSent + 1
      received := w.received ++ [x] }
  | .polling, .empty =>
    let (cc, next) := ContinuityCounter.advance w.cc
    some { w with
      point := .writing none
      cc := next
      buf := buildNoopPacket pid cc w.buf
      noopsSent := w.noopsSent + 1 }
  -- the packets of a disconnected channel have all been received before
  | .polling, .disconnected => some { w with point := .exited .ok }
  | .writing origin, .written =>
    some { w with point := .polling, wire := w.wire ++ [⟨w.buf, origin⟩] }
  | .writing _, .ioError => some { w with point := .exited .error }
  | _, _ => none

/-- The states `writer_thread` can reach. -/
def Reachable (w : Writer) : Prop := Machine.Reachable (step codec pid oti) init w

end Writer

/-! ## The frames written -/

namespace Writer

variable {codec : WireCodec} {pid : UInt16} {S : Stream} {w w' : Writer}

/-- The packets received, as those written and the one in the buffer. -/
def AtPoint (codec : WireCodec) (pid : UInt16) (S : Stream) (w : Writer) : Prop :=
  match w.point with
  | .polling => origins w.wire = w.received.map Sent.origin
  | .writing origin => WireFrame.Built codec pid S ⟨w.buf, origin⟩ ∧
      origins w.wire ++ origin.toList = w.received.map Sent.origin
  | .exited _ => origins w.wire <+: w.received.map Sent.origin

/-- The invariant of the thread. -/
structure Inv (codec : WireCodec) (pid : UInt16) (S : Stream) (w : Writer) : Prop where
  buf_length : w.buf.length = tsPacketSize
  built : ∀ f ∈ w.wire, f.Built codec pid S
  at_point : AtPoint codec pid S w

/-- The packets received are those of the stream. -/
def Reads (S : Stream) (w : Writer) : Prop := ∀ x ∈ w.received, x.packet = S.packet x.origin

lemma Inv.init : Inv codec pid S init where
  buf_length := List.length_replicate ..
  built f hf := by cases hf
  at_point := rfl

/-- A packet is put into a data frame. -/
lemma Inv.recv (hS : S.Wf) (h : Inv codec pid S w) (hpoint : w.point = .polling) {x : Sent}
    (hx : x.packet = S.packet x.origin) (next : UInt8) (n : ℕ) :
    Inv codec pid S { w with
      point := .writing (some x.origin)
      cc := next
      buf := buildDataPacket codec pid w.cc S.oti x.packet w.buf
      packetsSent := n
      received := w.received ++ [x] } := by
  have hat := h.at_point
  unfold AtPoint at hat
  rw [hpoint] at hat
  have hlen : x.packet.data.length = symbolSize := by rw [hx, hS.packet_length]
  refine ⟨length_buildDataPacket codec pid w.cc S.oti x.packet h.buf_length hlen, h.built, ?_, ?_⟩
  · exact ⟨w.cc, w.buf, h.buf_length, by rw [hx]⟩
  · show origins w.wire ++ [x.origin] = (w.received ++ [x]).map Sent.origin
    rw [hat, List.map_append, List.map_singleton]

/-- There is no packet, and a noop is written. -/
lemma Inv.empty (h : Inv codec pid S w) (hpoint : w.point = .polling) (next : UInt8) (n : ℕ) :
    Inv codec pid S { w with
      point := .writing none
      cc := next
      buf := buildNoopPacket pid w.cc w.buf
      noopsSent := n } := by
  have hat := h.at_point
  unfold AtPoint at hat
  rw [hpoint] at hat
  refine ⟨length_buildNoopPacket pid w.cc h.buf_length, h.built, ?_, ?_⟩
  · exact ⟨w.cc, w.buf, h.buf_length, rfl⟩
  · show origins w.wire ++ [] = w.received.map Sent.origin
    rw [List.append_nil, hat]

/-- The frame in the buffer is written. -/
lemma Inv.written (h : Inv codec pid S w) {origin : Option Origin}
    (hpoint : w.point = .writing origin) :
    Inv codec pid S { w with point := .polling, wire := w.wire ++ [⟨w.buf, origin⟩] } := by
  have hat := h.at_point
  unfold AtPoint at hat
  rw [hpoint] at hat
  obtain ⟨hbuilt, horigins⟩ := hat
  refine ⟨h.buf_length, fun f hf => ?_, ?_⟩
  · rcases List.mem_append.mp hf with hold | hnew
    · exact h.built f hold
    · rw [List.mem_singleton.mp hnew]
      exact hbuilt
  · show origins (w.wire ++ [⟨w.buf, origin⟩]) = w.received.map Sent.origin
    rw [origins_concat, horigins]

lemma Inv.step (hS : S.Wf) (h : Inv codec pid S w) {a : WriterAction}
    (hstep : step codec pid S.oti w a = some w') (hreads : Reads S w') : Inv codec pid S w' := by
  have hat := h.at_point
  unfold AtPoint at hat
  unfold Writer.step at hstep
  split at hstep
  · rename_i x hpoint
    rw [Option.some.injEq] at hstep
    rw [← hstep] at hreads ⊢
    exact h.recv hS hpoint (hreads x (List.mem_append_right _ (List.mem_singleton_self x))) _ _
  · rename_i hpoint
    rw [Option.some.injEq] at hstep
    rw [← hstep]
    exact h.empty hpoint _ _
  · rename_i hpoint
    rw [Option.some.injEq] at hstep
    rw [hpoint] at hat
    rw [← hstep]
    exact ⟨h.buf_length, h.built, by rw [AtPoint, hat]⟩
  · rename_i origin hpoint
    rw [Option.some.injEq] at hstep
    rw [← hstep]
    exact h.written hpoint
  · rename_i origin hpoint
    rw [Option.some.injEq] at hstep
    rw [hpoint] at hat
    rw [← hstep]
    refine ⟨h.buf_length, h.built, ?_⟩
    show origins w.wire <+: w.received.map Sent.origin
    rw [← hat.2]
    exact List.prefix_append _ _
  · cases hstep

/-- A step receives at most one packet more. -/
lemma received_step {oti : ObjectTransmissionInformation} {a : WriterAction}
    (hstep : step codec pid oti w a = some w') : w.received <+: w'.received := by
  unfold Writer.step at hstep
  split at hstep
  · rw [Option.some.injEq] at hstep
    rw [← hstep]
    exact List.prefix_append _ _
  all_goals simp only [Option.some.injEq, reduceCtorEq] at hstep
  all_goals
    rw [← hstep]

/-- **What the writer writes**, in every run on the packets of a stream: frames around them,
in order, and noops. -/
theorem Reachable.inv (hS : S.Wf) (h : Reachable codec pid S.oti w) (hreads : Reads S w) :
    Inv codec pid S w := by
  refine Machine.Reachable.invariant (P := fun w => Reads S w → Inv codec pid S w)
    (fun _ => Inv.init) ?_ h hreads
  intro w a w' _ ih hstep hreads'
  have hreads : Reads S w := fun x hx => hreads' x ((received_step hstep).subset hx)
  exact (ih hreads).step hS hstep hreads'

lemma Inv.origins_initial (h : Inv codec pid S w) :
    origins w.wire <+: w.received.map Sent.origin := by
  have hat := h.at_point
  unfold AtPoint at hat
  cases hpoint : w.point with
  | polling =>
    rw [hpoint] at hat
    rw [hat]
  | writing origin =>
    rw [hpoint] at hat
    rw [← hat.2]
    exact List.prefix_append _ _
  | exited result =>
    rw [hpoint] at hat
    exact hat

end Writer

end RaptorqTs.Enc
