import RaptorqTs.EndToEnd
import RaptorqTs.Enc.Adaptive
import RaptorqTs.Enc.Numbering
import RaptorqTs.Lib.Fifo

/-!
# The three threads of the encoder

Reader, encoder and writer with the two bounded channels between them, in any order of steps.
A channel is a queue with a capacity; with capacity zero a message is handed over while its
sender waits. A receive finds the channel empty or disconnected by whether the sender is still
there, and a send fails when the receiver is gone.
-/

namespace RaptorqTs.Enc

/-! ## What the threads offer each other -/

/-- The block the reader wants to send. -/
def Reader.offered (r : Reader) : Option Bytes :=
  match r.point with
  | .sending block _ => some block
  | _ => none

def Reader.hasExited (r : Reader) : Bool :=
  match r.point with
  | .exited _ => true
  | _ => false

def Writer.hasExited (w : Writer) : Bool :=
  match w.point with
  | .exited _ => true
  | _ => false

section Offers

variable {E R : Type}

/-- The packet the encoder wants to send. -/
def Encoder.offered (e : Encoder E R) : Option Sent :=
  match e.point with
  | .emitting _ packets => packets.next.map fun r => ⟨r.1, e.received.length - 1⟩
  | .sendingExtra packet block => some ⟨packet, block⟩
  | _ => none

def Encoder.hasExited (e : Encoder E R) : Bool :=
  match e.point with
  | .exited => true
  | _ => false

end Offers

/-! ## What a step does to what has been sent and received -/

namespace Reader

variable {blockSize : ℕ} {r r' : Reader}

lemma step_alive {a : ReaderAction} (h : step blockSize r a = some r') : r.hasExited = false := by
  unfold hasExited
  cases hpoint : r.point with
  | reading => rfl
  | sending block last => rfl
  | exited result =>
    unfold step at h
    rw [hpoint] at h
    cases h

/-- The send is taken. -/
lemma step_sent {block : Bytes} (hoffered : r.offered = some block)
    (h : step blockSize r .sent = some r') : r'.sent = r.sent ++ [block] := by
  unfold offered at hoffered
  unfold step at h
  cases hpoint : r.point with
  | reading =>
    rw [hpoint] at hoffered
    cases hoffered
  | exited result =>
    rw [hpoint] at hoffered
    cases hoffered
  | sending block' last =>
    rw [hpoint] at hoffered h
    obtain rfl := Option.some.inj hoffered
    rw [← Option.some.inj h]

/-- Nothing else is sent. -/
lemma step_sent_eq {a : ReaderAction} (ha : a ≠ .sent) (h : step blockSize r a = some r') :
    r'.sent = r.sent := by
  unfold step at h
  split at h
  · rename_i n hpoint
    rw [Option.ite_none_right_eq_some, Option.some.injEq] at h
    rw [← h.2]
    simp only [onRead]
    split_ifs <;> rfl
  · rw [← Option.some.inj h]
  · rw [← Option.some.inj h]
  · exact absurd rfl ha
  · rw [← Option.some.inj h]
  · cases h

end Reader

namespace Encoder

variable {E R : Type} {enc : SourceBlockEncoder E} {coin : R → Bool × R} {args : Params}
  {s s' : Encoder E R}

lemma step_alive {a : EncoderAction} (h : step enc coin args s a = some s') :
    s.hasExited = false := by
  unfold hasExited
  cases hpoint : s.point with
  | receiving => rfl
  | emitting encoder packets => rfl
  | sendingExtra packet block => rfl
  | exited =>
    unfold step at h
    rw [hpoint] at h
    cases a <;> cases h

/-- A block is received. -/
lemma step_recv {block : Bytes} (h : step enc coin args s (.recv block) = some s') :
    s'.received = s.received ++ [block] ∧ s'.sent = s.sent ∧ s'.hasExited = false := by
  cases step_moves h with
  | recv _ => exact ⟨rfl, rfl, rfl⟩
  | exit ha => rcases ha with ha | ha <;> cases ha

/-- The packet offered is sent. -/
lemma step_send {x : Sent} (hoffered : s.offered = some x)
    (h : step enc coin args s .send = some s') :
    s'.sent = s.sent ++ [x] ∧ s'.received = s.received ∧ s'.hasExited = false := by
  unfold offered at hoffered
  cases step_moves h with
  | send hpoint hnext =>
    simp only [hpoint, hnext, Option.map_some, Option.some.injEq] at hoffered
    rw [← hoffered]
    exact ⟨rfl, rfl, rfl⟩
  | sendExtra hpoint =>
    simp only [hpoint, Option.some.injEq] at hoffered
    rw [← hoffered]
    exact ⟨rfl, rfl, rfl⟩
  | exit ha => rcases ha with ha | ha <;> cases ha

/-- Nothing else is sent or received. -/
lemma step_other {a : EncoderAction} (hrecv : ∀ block, a ≠ .recv block) (hsend : a ≠ .send)
    (h : step enc coin args s a = some s') : s'.sent = s.sent ∧ s'.received = s.received := by
  cases step_moves h with
  | recv _ => exact absurd rfl (hrecv _)
  | nap _ _ _ => exact ⟨rfl, rfl⟩
  | mint _ _ _ _ => exact ⟨rfl, rfl⟩
  | send _ _ => exact absurd rfl hsend
  | finish _ _ => exact ⟨rfl, rfl⟩
  | sendExtra _ => exact absurd rfl hsend
  | exit _ => exact ⟨rfl, rfl⟩

/-- The thread exits when one of its channels is closed. -/
lemma step_exits {a : EncoderAction} (h : step enc coin args s a = some s')
    (hexit : s'.hasExited = true) : a = .disconnected ∨ a = .dropped := by
  unfold hasExited at hexit
  cases step_moves h with
  | recv _ => cases hexit
  | nap hpoint _ _ =>
    simp only [hpoint] at hexit
    cases hexit
  | mint _ _ _ _ =>
    simp only at hexit
    split at hexit
    · rename_i hpoint
      split at hpoint <;> cases hpoint
    · cases hexit
  | send _ _ => cases hexit
  | finish _ _ => cases hexit
  | sendExtra _ => cases hexit
  | exit ha => exact ha

end Encoder

namespace Writer

variable {codec : WireCodec} {pid : UInt16} {oti : ObjectTransmissionInformation} {w w' : Writer}

lemma step_alive {a : WriterAction} (h : step codec pid oti w a = some w') :
    w.hasExited = false := by
  unfold hasExited
  cases hpoint : w.point with
  | polling => rfl
  | writing origin => rfl
  | exited result =>
    unfold step at h
    rw [hpoint] at h
    cases a <;> cases h

lemma point_of_step {a : WriterAction} (h : step codec pid oti w a = some w') (result : Exit) :
    w.point ≠ .exited result := by
  intro hpoint
  have halive := step_alive h
  unfold hasExited at halive
  rw [hpoint] at halive
  cases halive

/-- A packet is received. -/
lemma step_recv {x : Sent} (h : step codec pid oti w (.recv x) = some w') :
    w'.received = w.received ++ [x] ∧ w'.hasExited = false := by
  unfold step at h
  cases hpoint : w.point with
  | polling =>
    rw [hpoint] at h
    rw [← Option.some.inj h]
    exact ⟨rfl, rfl⟩
  | writing origin =>
    rw [hpoint] at h
    cases h
  | exited result =>
    rw [hpoint] at h
    cases h

/-- Nothing else is received, and the thread ends well only on a closed channel. -/
lemma step_other {a : WriterAction} (hrecv : ∀ x, a ≠ .recv x)
    (h : step codec pid oti w a = some w') :
    w'.received = w.received ∧ (w'.point = .exited .ok → a = .disconnected) := by
  unfold step at h
  split at h
  · exact absurd rfl (hrecv _)
  · rw [← Option.some.inj h]
    exact ⟨rfl, fun hok => by cases hok⟩
  · rw [← Option.some.inj h]
    exact ⟨rfl, fun _ => rfl⟩
  · rw [← Option.some.inj h]
    exact ⟨rfl, fun hok => by cases hok⟩
  · rw [← Option.some.inj h]
    exact ⟨rfl, fun hok => by cases hok⟩
  · cases h

end Writer

/-! ## The pipeline -/

/-- The threads and the channels. -/
structure Pipeline (E R : Type) where
  reader : Reader
  blocks : List Bytes
  encoder : Encoder E R
  packets : List Sent
  writer : Writer

/-- One step of one thread, or of both ends of a channel. -/
inductive PipelineAction where
  | reader (a : ReaderAction)
  | encoder (a : EncoderAction)
  | writer (a : WriterAction)
  | sendBlock
  | recvBlock
  | handBlock
  | sendPacket
  | recvPacket
  | handPacket

/-- What `main` gives the threads. -/
structure Setup (E R : Type) where
  enc : SourceBlockEncoder E
  coin : R → Bool × R
  codec : WireCodec
  pid : UInt16
  args : Params
  blockCap : ℕ
  packetCap : ℕ

namespace Pipeline

variable {E R : Type}

def init (setup : Setup E R) (stdin : Bytes) (rng : R) : Pipeline E R where
  reader := Reader.init setup.args.oti.transferLength stdin
  blocks := []
  encoder := Encoder.init rng
  packets := []
  writer := Writer.init

/-- A step of the reader by itself: a send fails only when the encoder is gone. -/
def readerMay (p : Pipeline E R) : ReaderAction → Bool
  | .sent => false
  | .dropped => p.encoder.hasExited
  | _ => true

/-- A step of the encoder by itself. -/
def encoderMay (p : Pipeline E R) : EncoderAction → Bool
  | .recv _ => false
  | .send => false
  | .empty _ => p.blocks.isEmpty && !p.reader.hasExited
  | .disconnected => p.blocks.isEmpty && p.reader.hasExited
  | .dropped => p.writer.hasExited
  | .finish _ _ => true

/-- A step of the writer by itself. -/
def writerMay (p : Pipeline E R) : WriterAction → Bool
  | .recv _ => false
  | .empty => p.packets.isEmpty && !p.encoder.hasExited
  | .disconnected => p.packets.isEmpty && p.encoder.hasExited
  | _ => true

variable (setup : Setup E R)

def stepReader (p : Pipeline E R) (a : ReaderAction) : Option Reader :=
  Reader.step setup.args.oti.transferLength p.reader a

def stepEncoder (p : Pipeline E R) (a : EncoderAction) : Option (Encoder E R) :=
  Encoder.step setup.enc setup.coin setup.args p.encoder a

def stepWriter (p : Pipeline E R) (a : WriterAction) : Option Writer :=
  Writer.step setup.codec setup.pid setup.args.oti p.writer a

/-- The pipeline, one action at a time. -/
def step (p : Pipeline E R) : PipelineAction → Option (Pipeline E R)
  | .reader a =>
    if p.readerMay a then (p.stepReader setup a).map fun r => { p with reader := r } else none
  | .encoder a =>
    if p.encoderMay a then (p.stepEncoder setup a).map fun e => { p with encoder := e } else none
  | .writer a =>
    if p.writerMay a then (p.stepWriter setup a).map fun w => { p with writer := w } else none
  | .sendBlock => do
    let block ← p.reader.offered
    let reader ← p.stepReader setup .sent
    if p.blocks.length < setup.blockCap ∧ p.encoder.hasExited = false then
      some { p with reader := reader, blocks := p.blocks ++ [block] }
    else none
  | .recvBlock => do
    let block ← p.blocks.head?
    let encoder ← p.stepEncoder setup (.recv block)
    some { p with encoder := encoder, blocks := p.blocks.tail }
  | .handBlock => do
    let block ← p.reader.offered
    let reader ← p.stepReader setup .sent
    let encoder ← p.stepEncoder setup (.recv block)
    if setup.blockCap = 0 then some { p with reader := reader, encoder := encoder } else none
  | .sendPacket => do
    let x ← p.encoder.offered
    let encoder ← p.stepEncoder setup .send
    if p.packets.length < setup.packetCap ∧ p.writer.hasExited = false then
      some { p with encoder := encoder, packets := p.packets ++ [x] }
    else none
  | .recvPacket => do
    let x ← p.packets.head?
    let writer ← p.stepWriter setup (.recv x)
    some { p with writer := writer, packets := p.packets.tail }
  | .handPacket => do
    let x ← p.encoder.offered
    let encoder ← p.stepEncoder setup .send
    let writer ← p.stepWriter setup (.recv x)
    if setup.packetCap = 0 then some { p with encoder := encoder, writer := writer } else none

/-- The states the pipeline can reach on the input. -/
def Reachable (stdin : Bytes) (rng : R) (p : Pipeline E R) : Prop :=
  Machine.Reachable (step setup) (init setup stdin rng) p

/-! ## Inversion -/

/-- What a step of the pipeline can do. -/
inductive Moves (p : Pipeline E R) : Pipeline E R → Prop
  | reader {a r} (hmay : p.readerMay a = true) (hr : p.stepReader setup a = some r) :
      Moves p { p with reader := r }
  | encoder {a e} (hmay : p.encoderMay a = true) (he : p.stepEncoder setup a = some e) :
      Moves p { p with encoder := e }
  | writer {a w} (hmay : p.writerMay a = true) (hw : p.stepWriter setup a = some w) :
      Moves p { p with writer := w }
  | sendBlock {b r} (hoffered : p.reader.offered = some b)
      (hr : p.stepReader setup .sent = some r) (hcap : p.blocks.length < setup.blockCap)
      (halive : p.encoder.hasExited = false) :
      Moves p { p with reader := r, blocks := p.blocks ++ [b] }
  | recvBlock {b rest e} (hqueue : p.blocks = b :: rest)
      (he : p.stepEncoder setup (.recv b) = some e) :
      Moves p { p with encoder := e, blocks := rest }
  | handBlock {b r e} (hoffered : p.reader.offered = some b)
      (hr : p.stepReader setup .sent = some r) (he : p.stepEncoder setup (.recv b) = some e)
      (hcap : setup.blockCap = 0) : Moves p { p with reader := r, encoder := e }
  | sendPacket {x e} (hoffered : p.encoder.offered = some x)
      (he : p.stepEncoder setup .send = some e) (hcap : p.packets.length < setup.packetCap)
      (halive : p.writer.hasExited = false) :
      Moves p { p with encoder := e, packets := p.packets ++ [x] }
  | recvPacket {x rest w} (hqueue : p.packets = x :: rest)
      (hw : p.stepWriter setup (.recv x) = some w) :
      Moves p { p with writer := w, packets := rest }
  | handPacket {x e w} (hoffered : p.encoder.offered = some x)
      (he : p.stepEncoder setup .send = some e) (hw : p.stepWriter setup (.recv x) = some w)
      (hcap : setup.packetCap = 0) : Moves p { p with encoder := e, writer := w }

variable {setup} {p p' : Pipeline E R}

/-- **Inversion of `step`.** -/
theorem step_moves {a : PipelineAction} (h : step setup p a = some p') : Moves setup p p' := by
  cases a with
  | reader a =>
    simp only [step, Option.ite_none_right_eq_some, Option.map_eq_some_iff] at h
    obtain ⟨hmay, r, hr, rfl⟩ := h
    exact .reader hmay hr
  | encoder a =>
    simp only [step, Option.ite_none_right_eq_some, Option.map_eq_some_iff] at h
    obtain ⟨hmay, e, he, rfl⟩ := h
    exact .encoder hmay he
  | writer a =>
    simp only [step, Option.ite_none_right_eq_some, Option.map_eq_some_iff] at h
    obtain ⟨hmay, w, hw, rfl⟩ := h
    exact .writer hmay hw
  | sendBlock =>
    simp only [step, Option.bind_eq_bind, Option.bind_eq_some_iff, Option.ite_none_right_eq_some,
      Option.some.injEq] at h
    obtain ⟨b, hb, r, hr, ⟨hcap, halive⟩, rfl⟩ := h
    exact .sendBlock hb hr hcap halive
  | recvBlock =>
    simp only [step, Option.bind_eq_bind, Option.bind_eq_some_iff, Option.some.injEq] at h
    obtain ⟨b, hb, e, he, rfl⟩ := h
    exact .recvBlock (List.cons_head?_tail hb).symm he
  | handBlock =>
    simp only [step, Option.bind_eq_bind, Option.bind_eq_some_iff, Option.ite_none_right_eq_some,
      Option.some.injEq] at h
    obtain ⟨b, hb, r, hr, e, he, hcap, rfl⟩ := h
    exact .handBlock hb hr he hcap
  | sendPacket =>
    simp only [step, Option.bind_eq_bind, Option.bind_eq_some_iff, Option.ite_none_right_eq_some,
      Option.some.injEq] at h
    obtain ⟨x, hx, e, he, ⟨hcap, halive⟩, rfl⟩ := h
    exact .sendPacket hx he hcap halive
  | recvPacket =>
    simp only [step, Option.bind_eq_bind, Option.bind_eq_some_iff, Option.some.injEq] at h
    obtain ⟨x, hx, w, hw, rfl⟩ := h
    exact .recvPacket (List.cons_head?_tail hx).symm hw
  | handPacket =>
    simp only [step, Option.bind_eq_bind, Option.bind_eq_some_iff, Option.ite_none_right_eq_some,
      Option.some.injEq] at h
    obtain ⟨x, hx, e, he, w, hw, hcap, rfl⟩ := h
    exact .handPacket hx he hw hcap

/-! ## The invariant -/

/-- Nothing is lost between the threads, each thread does what it does alone, and the threads
exit one after the other unless the writer fails. -/
structure Inv (setup : Setup E R) (stdin : Bytes) (rng : R) (p : Pipeline E R) : Prop where
  blocks : Fifo.Conserved p.reader.sent p.blocks p.encoder.received
  blocks_le : p.blocks.length ≤ setup.blockCap
  packets : Fifo.Conserved p.encoder.sent p.packets p.writer.received
  packets_le : p.packets.length ≤ setup.packetCap
  reader_run : ∃ acts, Machine.run (Reader.step setup.args.oti.transferLength)
    (Reader.init setup.args.oti.transferLength stdin) acts = some p.reader ∧
      (.dropped ∈ acts → p.writer.point = .exited .error)
  encoder_run : ∃ acts, Machine.run (Encoder.step setup.enc setup.coin setup.args)
    (Encoder.init rng) acts = some p.encoder ∧
      (.dropped ∈ acts → p.writer.point = .exited .error)
  writer_run : Writer.Reachable setup.codec setup.pid setup.args.oti p.writer
  encoder_exit : p.encoder.hasExited = true →
    (p.blocks = [] ∧ p.reader.hasExited = true) ∨ p.writer.point = .exited .error
  writer_exit : p.writer.point = .exited .ok → p.packets = [] ∧ p.encoder.hasExited = true

lemma Inv.init (stdin : Bytes) (rng : R) : Inv setup stdin rng (init setup stdin rng) where
  blocks := Fifo.Conserved.nil
  blocks_le := Nat.zero_le _
  packets := Fifo.Conserved.nil
  packets_le := Nat.zero_le _
  reader_run := ⟨[], rfl, fun h => by cases h⟩
  encoder_run := ⟨[], rfl, fun h => by cases h⟩
  writer_run := ⟨[], rfl⟩
  encoder_exit h := by cases h
  writer_exit h := by cases h

section Extend

variable {σ α : Type} {f : σ → α → Option σ} {s₀ s t : σ} {a d : α} {P : Prop}

/-- A run of one thread goes on; the action `d` is performed only when `P` holds. -/
lemma extend_run (h : ∃ acts, Machine.run f s₀ acts = some s ∧ (d ∈ acts → P))
    (hstep : f s a = some t) (hd : a = d → P) :
    ∃ acts, Machine.run f s₀ acts = some t ∧ (d ∈ acts → P) := by
  obtain ⟨acts, hrun, himp⟩ := h
  refine ⟨acts ++ [a], Machine.run_concat_eq_some.mpr ⟨s, hrun, hstep⟩, fun hmem => ?_⟩
  rcases List.mem_append.mp hmem with hold | hnew
  · exact himp hold
  · exact hd (List.mem_singleton.mp hnew).symm

end Extend

section Step

variable {stdin : Bytes} {rng : R}

/-- An encoder that has exited while the reader goes on has lost its writer. -/
lemma Inv.writer_failed (h : Inv setup stdin rng p) (hencoder : p.encoder.hasExited = true)
    (hreader : p.reader.hasExited = false) : p.writer.point = .exited .error := by
  rcases h.encoder_exit hencoder with ⟨-, hexited⟩ | hfailed
  · rw [hreader] at hexited
    cases hexited
  · exact hfailed

/-- A writer that has exited while the encoder goes on has failed. -/
lemma Inv.writer_error (h : Inv setup stdin rng p) (hwriter : p.writer.hasExited = true)
    (hencoder : p.encoder.hasExited = false) : p.writer.point = .exited .error := by
  unfold Writer.hasExited at hwriter
  cases hpoint : p.writer.point with
  | polling =>
    rw [hpoint] at hwriter
    cases hwriter
  | writing origin =>
    rw [hpoint] at hwriter
    cases hwriter
  | exited result =>
    cases result with
    | error => rfl
    | ok =>
      have hexited := (h.writer_exit hpoint).2
      rw [hencoder] at hexited
      cases hexited

lemma Inv.reader (h : Inv setup stdin rng p) {a : ReaderAction} {r : Reader}
    (hmay : p.readerMay a = true) (hr : p.stepReader setup a = some r) :
    Inv setup stdin rng { p with reader := r } := by
  have halive : p.reader.hasExited = false := Reader.step_alive hr
  have hsent : r.sent = p.reader.sent := by
    apply Reader.step_sent_eq _ hr
    intro ha
    rw [ha] at hmay
    cases hmay
  have hblocks := h.blocks
  rw [← hsent] at hblocks
  refine ⟨hblocks, h.blocks_le, h.packets, h.packets_le, extend_run h.reader_run hr fun ha => ?_,
    h.encoder_run, h.writer_run, fun hexit => Or.inr (h.writer_failed hexit halive),
    h.writer_exit⟩
  rw [ha] at hmay
  exact h.writer_failed hmay halive

lemma Inv.encoder (h : Inv setup stdin rng p) {a : EncoderAction} {e : Encoder E R}
    (hmay : p.encoderMay a = true) (he : p.stepEncoder setup a = some e) :
    Inv setup stdin rng { p with encoder := e } := by
  have halive : p.encoder.hasExited = false := Encoder.step_alive he
  obtain ⟨hsent, hreceived⟩ : e.sent = p.encoder.sent ∧ e.received = p.encoder.received := by
    apply Encoder.step_other _ _ he
    · intro block ha
      rw [ha] at hmay
      cases hmay
    · intro ha
      rw [ha] at hmay
      cases hmay
  have hblocks := h.blocks
  have hpackets := h.packets
  rw [← hreceived] at hblocks
  rw [← hsent] at hpackets
  refine ⟨hblocks, h.blocks_le, hpackets, h.packets_le, h.reader_run,
    extend_run h.encoder_run he fun ha => ?_, h.writer_run, fun hexit => ?_, fun hok => ?_⟩
  · rw [ha] at hmay
    exact h.writer_error hmay halive
  · -- the input has ended, or the writer is gone
    rcases Encoder.step_exits he hexit with ha | ha
    · rw [ha] at hmay
      simp only [encoderMay, Bool.and_eq_true, List.isEmpty_iff] at hmay
      exact Or.inl hmay
    · rw [ha] at hmay
      exact Or.inr (h.writer_error hmay halive)
  · have hexited := (h.writer_exit hok).2
    rw [halive] at hexited
    cases hexited

lemma Inv.writer (h : Inv setup stdin rng p) {a : WriterAction} {w : Writer}
    (hmay : p.writerMay a = true) (hw : p.stepWriter setup a = some w) :
    Inv setup stdin rng { p with writer := w } := by
  have hpoint := Writer.point_of_step hw
  obtain ⟨hreceived, hexit⟩ : w.received = p.writer.received ∧
      (w.point = .exited .ok → a = .disconnected) := by
    apply Writer.step_other _ hw
    intro x ha
    rw [ha] at hmay
    cases hmay
  have hpackets := h.packets
  rw [← hreceived] at hpackets
  -- the writer had not failed before
  obtain ⟨racts, hrun, hrdrop⟩ := h.reader_run
  obtain ⟨eacts, herun, hedrop⟩ := h.encoder_run
  obtain ⟨wacts, hwrun⟩ := h.writer_run
  refine ⟨h.blocks, h.blocks_le, hpackets, h.packets_le,
    ⟨racts, hrun, fun hd => absurd (hrdrop hd) (hpoint _)⟩,
    ⟨eacts, herun, fun hd => absurd (hedrop hd) (hpoint _)⟩,
    ⟨wacts ++ [a], Machine.run_concat_eq_some.mpr ⟨_, hwrun, hw⟩⟩, fun hexited => ?_, fun hok => ?_⟩
  · exact Or.inl ((h.encoder_exit hexited).resolve_right (hpoint _))
  · rw [hexit hok] at hmay
    simp only [writerMay, Bool.and_eq_true, List.isEmpty_iff] at hmay
    exact hmay

/-- The reader's send, with what becomes of the block left open. -/
lemma Inv.reader_sends (h : Inv setup stdin rng p) {r : Reader}
    (hr : p.stepReader setup .sent = some r) :
    p.reader.hasExited = false ∧ ∃ acts, Machine.run (Reader.step setup.args.oti.transferLength)
      (Reader.init setup.args.oti.transferLength stdin) acts = some r ∧
        (.dropped ∈ acts → p.writer.point = .exited .error) :=
  ⟨Reader.step_alive hr, extend_run h.reader_run hr (fun ha => by cases ha)⟩

lemma Inv.sendBlock (h : Inv setup stdin rng p) {b : Bytes} {r : Reader}
    (hoffered : p.reader.offered = some b) (hr : p.stepReader setup .sent = some r)
    (hcap : p.blocks.length < setup.blockCap) (halive : p.encoder.hasExited = false) :
    Inv setup stdin rng { p with reader := r, blocks := p.blocks ++ [b] } := by
  have hblocks := h.blocks.send b
  rw [← Reader.step_sent hoffered hr] at hblocks
  refine ⟨hblocks, ?_, h.packets, h.packets_le, (h.reader_sends hr).2, h.encoder_run,
    h.writer_run, fun hexited => ?_, h.writer_exit⟩
  · show (p.blocks ++ [b]).length ≤ setup.blockCap
    rw [List.length_append, List.length_singleton]
    omega
  · have hexited : p.encoder.hasExited = true := hexited
    rw [halive] at hexited
    cases hexited

/-- The encoder moves on, with a block taken or a packet sent. -/
lemma Inv.encoder_moves (h : Inv setup stdin rng p) {a : EncoderAction} {e : Encoder E R}
    (ha : a ≠ .dropped) (he : p.stepEncoder setup a = some e) :
    (∃ acts, Machine.run (Encoder.step setup.enc setup.coin setup.args) (Encoder.init rng) acts
        = some e ∧ (.dropped ∈ acts → p.writer.point = .exited .error)) ∧
      p.writer.point ≠ .exited .ok := by
  refine ⟨extend_run h.encoder_run he fun hd => absurd hd ha, fun hok => ?_⟩
  have hexited := (h.writer_exit hok).2
  have halive : p.encoder.hasExited = false := Encoder.step_alive he
  rw [halive] at hexited
  cases hexited

lemma Inv.recvBlock (h : Inv setup stdin rng p) {b : Bytes} {rest : List Bytes} {e : Encoder E R}
    (hqueue : p.blocks = b :: rest) (he : p.stepEncoder setup (.recv b) = some e) :
    Inv setup stdin rng { p with encoder := e, blocks := rest } := by
  obtain ⟨hreceived, hsent, halive⟩ := Encoder.step_recv he
  obtain ⟨hrun, hnot⟩ := h.encoder_moves (by intro hd; cases hd) he
  have hblocks := h.blocks
  rw [hqueue] at hblocks
  have hblocks := hblocks.recv
  have hpackets := h.packets
  have hle := h.blocks_le
  rw [← hreceived] at hblocks
  rw [← hsent] at hpackets
  rw [hqueue, List.length_cons] at hle
  refine ⟨hblocks, Nat.le_of_succ_le hle, hpackets, h.packets_le, h.reader_run, hrun,
    h.writer_run, fun hexited => ?_, fun hok => absurd hok hnot⟩
  have hexited : e.hasExited = true := hexited
  rw [halive] at hexited
  cases hexited

lemma Inv.handBlock (h : Inv setup stdin rng p) {b : Bytes} {r : Reader} {e : Encoder E R}
    (hoffered : p.reader.offered = some b) (hr : p.stepReader setup .sent = some r)
    (he : p.stepEncoder setup (.recv b) = some e) (hcap : setup.blockCap = 0) :
    Inv setup stdin rng { p with reader := r, encoder := e } := by
  obtain ⟨hreceived, hsent, halive⟩ := Encoder.step_recv he
  obtain ⟨hrun, hnot⟩ := h.encoder_moves (by intro hd; cases hd) he
  -- there is no queue to go through
  have hqueue : p.blocks = [] := by
    have hle := h.blocks_le
    rw [hcap] at hle
    exact List.length_eq_zero_iff.mp (Nat.le_zero.mp hle)
  have hblocks := h.blocks
  rw [hqueue] at hblocks
  have hblocks := hblocks.hand b
  have hpackets := h.packets
  rw [← hreceived, ← Reader.step_sent hoffered hr, ← hqueue] at hblocks
  rw [← hsent] at hpackets
  refine ⟨hblocks, h.blocks_le, hpackets, h.packets_le, (h.reader_sends hr).2, hrun,
    h.writer_run, fun hexited => ?_, fun hok => absurd hok hnot⟩
  have hexited : e.hasExited = true := hexited
  rw [halive] at hexited
  cases hexited

lemma Inv.sendPacket (h : Inv setup stdin rng p) {x : Sent} {e : Encoder E R}
    (hoffered : p.encoder.offered = some x) (he : p.stepEncoder setup .send = some e)
    (hcap : p.packets.length < setup.packetCap) :
    Inv setup stdin rng { p with encoder := e, packets := p.packets ++ [x] } := by
  obtain ⟨hsent, hreceived, halive⟩ := Encoder.step_send hoffered he
  obtain ⟨hrun, hnot⟩ := h.encoder_moves (by intro hd; cases hd) he
  have hblocks := h.blocks
  have hpackets := h.packets.send x
  rw [← hreceived] at hblocks
  rw [← hsent] at hpackets
  refine ⟨hblocks, h.blocks_le, hpackets, ?_, h.reader_run, hrun, h.writer_run,
    fun hexited => ?_, fun hok => absurd hok hnot⟩
  · show (p.packets ++ [x]).length ≤ setup.packetCap
    rw [List.length_append, List.length_singleton]
    omega
  · have hexited : e.hasExited = true := hexited
    rw [halive] at hexited
    cases hexited

/-- The writer takes a packet, wherever it comes from. -/
lemma Inv.writer_takes (h : Inv setup stdin rng p) {x : Sent} {w : Writer}
    (hw : p.stepWriter setup (.recv x) = some w) :
    (∃ acts, Machine.run (Reader.step setup.args.oti.transferLength)
      (Reader.init setup.args.oti.transferLength stdin) acts = some p.reader ∧
        (.dropped ∈ acts → w.point = .exited .error)) ∧
      Writer.Reachable setup.codec setup.pid setup.args.oti w ∧ w.point ≠ .exited .ok ∧
      (p.encoder.hasExited = true → p.blocks = [] ∧ p.reader.hasExited = true) := by
  have hpoint := Writer.point_of_step hw
  have hstep : Writer.step setup.codec setup.pid setup.args.oti p.writer (.recv x) = some w := hw
  obtain ⟨racts, hrun, hdrop⟩ := h.reader_run
  obtain ⟨wacts, hwrun⟩ := h.writer_run
  refine ⟨⟨racts, hrun, fun hd => absurd (hdrop hd) (hpoint _)⟩,
    ⟨wacts ++ [.recv x], Machine.run_concat_eq_some.mpr ⟨_, hwrun, hstep⟩⟩, fun hok => ?_,
    fun hexited => (h.encoder_exit hexited).resolve_right (hpoint _)⟩
  have halive := (Writer.step_recv hw).2
  unfold Writer.hasExited at halive
  rw [hok] at halive
  cases halive

lemma Inv.recvPacket (h : Inv setup stdin rng p) {x : Sent} {rest : List Sent} {w : Writer}
    (hqueue : p.packets = x :: rest) (hw : p.stepWriter setup (.recv x) = some w) :
    Inv setup stdin rng { p with writer := w, packets := rest } := by
  obtain ⟨hreader, hwriter, hnot, hexit⟩ := h.writer_takes hw
  obtain ⟨eacts, herun, hedrop⟩ := h.encoder_run
  have hpackets := h.packets
  have hle := h.packets_le
  rw [hqueue] at hpackets
  have hpackets := hpackets.recv
  rw [← (Writer.step_recv hw).1] at hpackets
  rw [hqueue, List.length_cons] at hle
  exact ⟨h.blocks, h.blocks_le, hpackets, Nat.le_of_succ_le hle, hreader,
    ⟨eacts, herun, fun hd => absurd (hedrop hd) (Writer.point_of_step hw _)⟩, hwriter,
    fun hexited => Or.inl (hexit hexited), fun hok => absurd hok hnot⟩

lemma Inv.handPacket (h : Inv setup stdin rng p) {x : Sent} {e : Encoder E R} {w : Writer}
    (hoffered : p.encoder.offered = some x) (he : p.stepEncoder setup .send = some e)
    (hw : p.stepWriter setup (.recv x) = some w) (hcap : setup.packetCap = 0) :
    Inv setup stdin rng { p with encoder := e, writer := w } := by
  obtain ⟨hsent, hreceived, halive⟩ := Encoder.step_send hoffered he
  obtain ⟨⟨eacts, herun, hedrop⟩, -⟩ := h.encoder_moves (by intro hd; cases hd) he
  obtain ⟨hreader, hwriter, hnot, -⟩ := h.writer_takes hw
  have hqueue : p.packets = [] := by
    have hle := h.packets_le
    rw [hcap] at hle
    exact List.length_eq_zero_iff.mp (Nat.le_zero.mp hle)
  have hpackets := h.packets
  rw [hqueue] at hpackets
  have hpackets := hpackets.hand x
  have hblocks := h.blocks
  rw [← hsent, ← (Writer.step_recv hw).1, ← hqueue] at hpackets
  rw [← hreceived] at hblocks
  refine ⟨hblocks, h.blocks_le, hpackets, h.packets_le, hreader,
    ⟨eacts, herun, fun hd => absurd (hedrop hd) (Writer.point_of_step hw _)⟩, hwriter,
    fun hexited => ?_, fun hok => absurd hok hnot⟩
  have hexited : e.hasExited = true := hexited
  rw [halive] at hexited
  cases hexited

lemma Inv.step (h : Inv setup stdin rng p) {a : PipelineAction}
    (hstep : step setup p a = some p') : Inv setup stdin rng p' := by
  cases step_moves hstep with
  | reader hmay hr => exact h.reader hmay hr
  | encoder hmay he => exact h.encoder hmay he
  | writer hmay hw => exact h.writer hmay hw
  | sendBlock hoffered hr hcap halive => exact h.sendBlock hoffered hr hcap halive
  | recvBlock hqueue he => exact h.recvBlock hqueue he
  | handBlock hoffered hr he hcap => exact h.handBlock hoffered hr he hcap
  | sendPacket hoffered he hcap _ => exact h.sendPacket hoffered he hcap
  | recvPacket hqueue hw => exact h.recvPacket hqueue hw
  | handPacket hoffered he hw hcap => exact h.handPacket hoffered he hw hcap

/-- The invariant holds in every interleaving. -/
theorem Reachable.inv (h : Reachable setup stdin rng p) : Inv setup stdin rng p :=
  Machine.Reachable.invariant (Inv.init stdin rng) (fun _ _ _ _ ih hstep => ih.step hstep) h

end Step

/-! ## Nothing is lost -/

/-- Every thread has come to its end, without an error. -/
def Ended (p : Pipeline E R) : Prop :=
  p.reader.point = .exited .ok ∧ p.encoder.point = .exited ∧ p.writer.point = .exited .ok

section Outcome

variable {stdin : Bytes} {rng : R} {code : FountainCode} {k : ℕ}

lemma Inv.sent_length (h : Inv setup stdin rng p) (hfits : setup.args.Fits k) :
    ∀ b ∈ p.reader.sent, b.length = k * symbolSize := by
  have hpos : 0 < k * symbolSize := Nat.mul_pos hfits.k_pos symbolSize_pos
  obtain ⟨acts, hrun, -⟩ := h.reader_run
  rw [hfits.oti_eq] at hrun
  exact Reader.run_sent_length hpos hrun

/-- The encoder runs on the blocks that the reader cuts. -/
lemma Inv.serves (h : Inv setup stdin rng p) (hfits : setup.args.Fits k)
    (henc : setup.enc.Laws code setup.args.oti k) :
    Encoder.Serves setup.enc setup.args (streamOf code k p.reader.sent) :=
  serves_streamOf hfits henc (h.sent_length hfits)

lemma Inv.reads (h : Inv setup stdin rng p) :
    Encoder.Reads (streamOf code k p.reader.sent) p.encoder :=
  reads_streamOf h.blocks.received_initial

/-- The packets that the writer receives fill the frames. -/
lemma Inv.fitting (h : Inv setup stdin rng p) (hfits : setup.args.Fits k)
    (hcode : code.Laws symbolSize) (henc : setup.enc.Laws code setup.args.oti k) :
    p.writer.Fitting := by
  obtain ⟨acts, hrun, -⟩ := h.encoder_run
  have hinv := Encoder.Reachable.inv (h.serves hfits henc) ⟨acts, hrun⟩ h.reads
  have hwf := streamOf_wf hcode hfits.k_pos hfits.k_le (h.sent_length hfits)
  intro x hx
  have hmints := (hinv.mints x (h.packets.received_initial.subset hx)).1
  have hpacket : x.packet = (streamOf code k p.reader.sent).packet x.origin := hmints.1
  rw [hpacket]
  exact hwf.packet_length _

/-- At the end both channels are empty. -/
lemma Inv.ended (h : Inv setup stdin rng p) (hended : p.Ended) :
    p.encoder.received = p.reader.sent ∧ p.writer.received = p.encoder.sent := by
  obtain ⟨-, hencoder, hwriter⟩ := hended
  have hexited : p.encoder.hasExited = true := by
    unfold Encoder.hasExited
    rw [hencoder]
  have hblocks := h.blocks
  have hpackets := h.packets
  rcases h.encoder_exit hexited with ⟨hempty, -⟩ | herror
  · rw [hempty] at hblocks
    rw [(h.writer_exit hwriter).1] at hpackets
    exact ⟨hblocks.received_eq, hpackets.received_eq⟩
  · rw [hwriter] at herror
    cases herror

/-- At the end the blocks sent are the input, padded. -/
lemma Inv.sent_flatten (h : Inv setup stdin rng p) (hended : p.Ended)
    (hfits : setup.args.Fits k) : p.reader.sent.flatten = padded (k * symbolSize) stdin := by
  have hpos : 0 < k * symbolSize := Nat.mul_pos hfits.k_pos symbolSize_pos
  obtain ⟨acts, hrun, hdrop⟩ := h.reader_run
  rw [hfits.oti_eq] at hrun
  have hfinished : p.reader.Finished (k * symbolSize) stdin := by
    refine ⟨acts, hrun, fun a ha hdropped => ?_, hended.1⟩
    have herror := hdrop (hdropped ▸ ha)
    rw [hended.2.2] at herror
    cases herror
  exact (hfinished.sent_flatten hpos).2

/-- At the end every block has been sent in-band, as a whole. -/
lemma Inv.inBand (h : Inv setup stdin rng p) (hended : p.Ended) (hfits : setup.args.Fits k)
    (henc : setup.enc.Laws code setup.args.oti k) :
    p.encoder.sent.filter (Encoder.inBand setup.args (streamOf code k p.reader.sent)) =
      Encoder.inBandUpTo setup.enc setup.args (streamOf code k p.reader.sent)
        p.reader.sent.length := by
  obtain ⟨acts, hrun, hdrop⟩ := h.encoder_run
  have halive : ∀ a ∈ acts, a ≠ .dropped := by
    intro a ha hdropped
    have herror := hdrop (hdropped ▸ ha)
    rw [hended.2.2] at herror
    cases herror
  have hinv := Encoder.run_inBandInv (h.serves hfits henc) hrun halive h.reads
  have hrest : p.encoder.AtRest := by
    unfold Encoder.AtRest
    rw [hended.2.1]
    trivial
  rw [hinv.filter_atRest hrest, (h.ended hended).1]

/-- **No packet is lost, duplicated or reordered**, in any interleaving of the threads and with
channels of any capacity. The frames on the wire are numbered by the continuity counter, the
packets in them are the first ones the encoder has sent, and each data frame is parsed as its
packet if the PID fits; when every thread has ended they are all of them, among them the in-band
packets of every block of the padded input, which are its source packets and its baseline repair. -/
theorem pipeline_lossless (hfits : setup.args.Fits k) (hcode : code.Laws symbolSize)
    (henc : setup.enc.Laws code setup.args.oti k) (h : Reachable setup stdin rng p) :
    ∃ items, Numbered setup.codec setup.pid setup.args.oti items p.writer.wire ∧
      (∀ i f, p.writer.wire[i]? = some f → ∃ hdr,
        TsHeader.parse (f.bytes.take tsHeaderSize) = .ok hdr ∧
          hdr.continuityCounter.toNat = i % 16) ∧
      (setup.codec.Laws → setup.pid < 0x2000 → ∀ i x f, items[i]? = some (some x) →
        p.writer.wire[i]? = some f → parsePacket setup.codec f.bytes setup.pid =
          .ok (.data (ccOf i) setup.args.oti x.packet.payloadId x.packet.data)) ∧
      items.filterMap id <+: p.encoder.sent ∧
      (p.Ended → items.filterMap id = p.encoder.sent ∧
        p.reader.sent.flatten = padded (k * symbolSize) stdin ∧
        (∀ b ∈ p.reader.sent, b.length = k * symbolSize) ∧
        p.encoder.sent.filter (Encoder.inBand setup.args (streamOf code k p.reader.sent)) =
          Encoder.inBandUpTo setup.enc setup.args (streamOf code k p.reader.sent)
            (numBlocks (k * symbolSize) stdin) ∧
        ∀ l, (Encoder.inBandOf setup.enc setup.args (streamOf code k p.reader.sent) l).Perm
          ((List.range (k + setup.args.baselineRepair)).map fun esi =>
            ⟨(streamOf code k p.reader.sent).packet ⟨l, esi⟩, l⟩)) := by
  have hinv := h.inv
  have hfit := hinv.fitting hfits hcode henc
  have hserves := hinv.serves hfits henc
  obtain ⟨all, hall⟩ := hinv.writer_run.numbered hfit
  obtain ⟨items, hitems, hinitial, hend⟩ := hall.wire
  have hsent := hinitial.trans hinv.packets.received_initial
  -- the item of a frame has been received
  have hreceived : ∀ item ∈ items, ∀ x ∈ item, x ∈ p.writer.received := fun item hitem x hx =>
    hinitial.subset (List.mem_filterMap.mpr ⟨item, hitem, hx⟩)
  refine ⟨items, hitems, fun i f hf => ?_, fun hcodec hpid i x f hx hf => ?_, hsent,
    fun hended => ?_⟩
  · have hi : i < items.length := by
      rw [hitems.length_eq]
      exact (List.getElem?_eq_some_iff.mp hf).1
    have hcarries := hitems.carries i items[i] f (List.getElem?_eq_getElem hi) hf
    refine ⟨_, hcarries.header fun x hx => ?_, toNat_ccOf i⟩
    exact hfit x (hreceived _ (List.getElem_mem hi) x hx)
  · have hmem := hreceived _ (List.mem_of_getElem? hx) x rfl
    obtain ⟨eacts, herun, -⟩ := hinv.encoder_run
    have hmints := (Encoder.Reachable.inv hserves ⟨eacts, herun⟩ hinv.reads).mints x
      (hinv.packets.received_initial.subset hmem)
    have hoti : setup.args.oti.InRange := by
      rw [hfits.oti_eq]
      exact blockOti_inRange hfits.k_le
    obtain ⟨out, hout, hbytes⟩ := (hitems.carries i (some x) f hx hf).bytes
    have hlength : ∀ y ∈ some x, y.packet.data.length = symbolSize := by
      rintro y ⟨rfl⟩
      exact hfit x hmem
    rw [hbytes, parsePacket_frameFor setup.codec setup.args.oti i hpid hout hlength,
      readBack_of_laws (ccOf i) hcodec hoti hmints.1.2]
  · have hpos : 0 < k * symbolSize := Nat.mul_pos hfits.k_pos symbolSize_pos
    have hlength := hinv.sent_length hfits
    have hflatten := hinv.sent_flatten hended hfits
    have hinBand := hinv.inBand hended hfits henc
    rw [numBlocks_of_flatten hpos hlength hflatten] at hinBand
    refine ⟨?_, hflatten, hlength, hinBand, fun l => Encoder.inBandOf_perm hserves l⟩
    rw [hend hended.2.2, (hinv.ended hended).2]

/-- The threads of a pipeline whose input has ended are those of an encoder that has run on it,
unless the writer has failed. -/
theorem Reachable.running (h : Reachable setup stdin rng p) (hreader : p.reader.point = .exited .ok)
    (hwriter : p.writer.point ≠ .exited .error) :
    Threads.Running setup.enc setup.coin setup.codec setup.pid setup.args rng stdin
      ⟨p.reader, p.encoder, p.writer⟩ := by
  have hinv := h.inv
  obtain ⟨racts, hrun, hdrop⟩ := hinv.reader_run
  obtain ⟨eacts, herun, -⟩ := hinv.encoder_run
  have halive : ∀ a ∈ racts, a ≠ .dropped := fun a ha hdropped =>
    hwriter (hdrop (hdropped ▸ ha))
  exact ⟨⟨racts, hrun, halive, hreader⟩, ⟨eacts, herun⟩, hinv.writer_run,
    hinv.blocks.received_initial, hinv.packets.received_initial⟩

end Outcome

/-! ## Runs over the reference instance -/

/-- Channels of one place each. -/
def shortSetup : Setup Reference.Encoder Unit where
  enc := Reference.encoder
  coin := fun _ => (true, ())
  codec := Reference.codec
  pid := 0x100
  args := Reference.params
  blockCap := 1
  packetCap := 1

/-- The writer starts with a noop, and the only block is a padded one. -/
def shortRun : List PipelineAction :=
  [.writer .empty, .reader (.read 3), .reader (.read 0), .sendBlock, .recvBlock,
    .writer .written, .sendPacket, .encoder (.finish 0 fun _ => 0), .encoder .disconnected,
    .recvPacket, .writer .written, .writer .disconnected]

/-- Three blocks, with an adaptive encoder. -/
def pairSetup : Setup Reference.Encoder Xorshift64 where
  enc := Reference.encoder
  coin := Xorshift64.coin
  codec := Reference.codec
  pid := 0x100
  args := Encoder.oneExtra
  blockCap := 1
  packetCap := 1

/-- A packet goes from the encoder to the wire. -/
def packetRun : List PipelineAction := [.sendPacket, .recvPacket, .writer .written]

/-- A block goes from stdin to the wire, in-band. -/
def blockRun (reads : List PipelineAction) : List PipelineAction :=
  reads ++ [.sendBlock, .recvBlock] ++ (List.replicate 4 packetRun).flatten ++
    [.encoder (.finish 0 fun _ => 0)]

/-- A noop and two blocks, then two extra repair symbols, and the last block. -/
def pairRun : List PipelineAction :=
  [.writer .empty, .writer .written] ++ blockRun [.reader (.read 334)] ++
    blockRun [.reader (.read 334)] ++ .encoder (.empty fun _ => 0) :: packetRun ++
    .encoder (.empty fun _ => 0) :: packetRun ++
    blockRun [.reader (.read 3), .reader (.read 0)] ++
    [.encoder .disconnected, .writer .disconnected]

lemma exists_pairRun : ∃ p : Pipeline Reference.Encoder Xorshift64,
    Reachable pairSetup Reference.pairStdin (.new 1) p ∧ p.Ended ∧
      p.writer.wire = Reference.pairWire ∧ p.encoder.sent = Encoder.idleSent := by
  have hobs : (Machine.run (step pairSetup) (init pairSetup Reference.pairStdin (.new 1))
      pairRun).map (fun p => ((p.reader.point, p.encoder.hasExited, p.writer.point),
        p.writer.wire, p.encoder.sent)) =
        some ((.exited .ok, true, .exited .ok), Reference.pairWire, Encoder.idleSent) := by
    decide +kernel
  obtain ⟨p, hrun, hp⟩ := Option.map_eq_some_iff.mp hobs
  simp only [Prod.mk.injEq] at hp
  obtain ⟨⟨hreader, hencoder, hwriter⟩, hwire, hsent⟩ := hp
  refine ⟨p, ⟨_, hrun⟩, ⟨hreader, ?_, hwriter⟩, hwire, hsent⟩
  unfold Encoder.hasExited at hencoder
  split at hencoder
  · assumption
  · cases hencoder

/-- What is on the wire, but for the noop, are the packets sent, and they can be read. -/
theorem pipeline_lossless_three_blocks : ∃ (p : Pipeline Reference.Encoder Xorshift64)
    (items : List (Option Sent)),
    Reachable pairSetup Reference.pairStdin (.new 1) p ∧ p.Ended ∧
      p.writer.wire = Reference.pairWire ∧ items.filterMap id = Encoder.idleSent ∧
      ∀ i x f, items[i]? = some (some x) → p.writer.wire[i]? = some f →
        parsePacket Reference.codec f.bytes 0x100 =
          .ok (.data (ccOf i) Encoder.oneExtra.oti x.packet.payloadId x.packet.data) := by
  obtain ⟨p, hreach, hended, hwire, hsent⟩ := exists_pairRun
  have hfits : pairSetup.args.Fits 2 := Reference.oneExtra_fits
  obtain ⟨items, -, -, hparse, -, hend⟩ :=
    pipeline_lossless hfits Reference.code_laws (Reference.encoder_laws rfl) hreach
  refine ⟨p, items, hreach, hended, hwire, ?_, hparse Reference.codec_laws (by decide)⟩
  rw [(hend hended).1, hsent]

end Pipeline

end RaptorqTs.Enc
