import RaptorqTs.Enc.Pipeline

/-!
# How the encoder process ends

`main` joins the three threads and returns the first error among what they returned. A thread
that ends early makes its neighbours end at their next send, and these do not report the failure
as theirs, so it has to be seen that it is reported at all.
-/

namespace RaptorqTs.Enc.Pipeline

variable {E R : Type}

/-- What `main` returns, once it has joined the threads. `encoder_thread` itself has no errors
to return. -/
def exit (p : Pipeline E R) : Option Exit :=
  match p.reader.point, p.encoder.point, p.writer.point with
  | .exited .error, .exited, .exited _ => some .error
  | .exited .ok, .exited, .exited result => some result
  | _, _, _ => none

/-- A read or a write fails. -/
def ioFailure : PipelineAction → Bool
  | .reader .ioError | .writer .ioError => true
  | _ => false

/-- One of the threads has returned an error. -/
def Failed (p : Pipeline E R) : Prop :=
  p.reader.point = .exited .error ∨ p.writer.point = .exited .error

variable {setup : Setup E R} {stdin : Bytes} {rng : R} {p p' : Pipeline E R}

lemma exit_eq_ok : p.exit = some .ok ↔ p.Ended := by
  unfold exit Ended
  constructor
  · intro h
    split at h
    · cases h
    · rename_i hreader hencoder hwriter
      obtain rfl := Option.some.inj h
      exact ⟨hreader, hencoder, hwriter⟩
    · cases h
  · rintro ⟨hreader, hencoder, hwriter⟩
    simp only [hreader, hencoder, hwriter]

lemma failed_of_exit (h : p.exit = some .error) : p.Failed := by
  unfold exit at h
  split at h
  · rename_i hreader _ _
    exact Or.inl hreader
  · rename_i hwriter
    rw [Option.some.inj h] at hwriter
    exact Or.inr hwriter
  · cases h

lemma not_ended_of_failed (h : p.Failed) : ¬ p.Ended := by
  rintro ⟨hreader, -, hwriter⟩
  rcases h with h | h
  · rw [hreader] at h
    cases h
  · rw [hwriter] at h
    cases h

/-! ## Who fails -/

/-- What a step does to the reader. -/
lemma step_reader {a : PipelineAction} (h : step setup p a = some p') :
    p'.reader = p.reader ∨ ∃ ra, p.stepReader setup ra = some p'.reader ∧
      (ra = .sent ∨ a = .reader ra ∧ p.readerMay ra = true) := by
  cases a with
  | reader a =>
    simp only [step, Option.ite_none_right_eq_some, Option.map_eq_some_iff] at h
    obtain ⟨hmay, r, hr, rfl⟩ := h
    exact Or.inr ⟨a, hr, Or.inr ⟨rfl, hmay⟩⟩
  | encoder a | writer a =>
    simp only [step, Option.ite_none_right_eq_some, Option.map_eq_some_iff] at h
    obtain ⟨-, t, -, rfl⟩ := h
    exact Or.inl rfl
  | sendBlock =>
    simp only [step, Option.bind_eq_bind, Option.bind_eq_some_iff, Option.ite_none_right_eq_some,
      Option.some.injEq] at h
    obtain ⟨b, -, r, hr, -, rfl⟩ := h
    exact Or.inr ⟨.sent, hr, Or.inl rfl⟩
  | handBlock =>
    simp only [step, Option.bind_eq_bind, Option.bind_eq_some_iff, Option.ite_none_right_eq_some,
      Option.some.injEq] at h
    obtain ⟨b, -, r, hr, e, -, -, rfl⟩ := h
    exact Or.inr ⟨.sent, hr, Or.inl rfl⟩
  | recvBlock | recvPacket =>
    simp only [step, Option.bind_eq_bind, Option.bind_eq_some_iff, Option.some.injEq] at h
    obtain ⟨x, -, t, -, rfl⟩ := h
    exact Or.inl rfl
  | sendPacket =>
    simp only [step, Option.bind_eq_bind, Option.bind_eq_some_iff, Option.ite_none_right_eq_some,
      Option.some.injEq] at h
    obtain ⟨x, -, e, -, -, rfl⟩ := h
    exact Or.inl rfl
  | handPacket =>
    simp only [step, Option.bind_eq_bind, Option.bind_eq_some_iff, Option.ite_none_right_eq_some,
      Option.some.injEq] at h
    obtain ⟨x, -, e, -, w, -, -, rfl⟩ := h
    exact Or.inl rfl

/-- What a step does to the writer. -/
lemma step_writer {a : PipelineAction} (h : step setup p a = some p') :
    p'.writer = p.writer ∨ ∃ wa, p.stepWriter setup wa = some p'.writer ∧
      ((∃ x, wa = .recv x) ∨ a = .writer wa) := by
  cases a with
  | writer a =>
    simp only [step, Option.ite_none_right_eq_some, Option.map_eq_some_iff] at h
    obtain ⟨-, w, hw, rfl⟩ := h
    exact Or.inr ⟨a, hw, Or.inr rfl⟩
  | reader a | encoder a =>
    simp only [step, Option.ite_none_right_eq_some, Option.map_eq_some_iff] at h
    obtain ⟨-, t, -, rfl⟩ := h
    exact Or.inl rfl
  | sendBlock | sendPacket =>
    simp only [step, Option.bind_eq_bind, Option.bind_eq_some_iff, Option.ite_none_right_eq_some,
      Option.some.injEq] at h
    obtain ⟨b, -, t, -, -, rfl⟩ := h
    exact Or.inl rfl
  | handBlock =>
    simp only [step, Option.bind_eq_bind, Option.bind_eq_some_iff, Option.ite_none_right_eq_some,
      Option.some.injEq] at h
    obtain ⟨b, -, r, -, e, -, -, rfl⟩ := h
    exact Or.inl rfl
  | recvBlock =>
    simp only [step, Option.bind_eq_bind, Option.bind_eq_some_iff, Option.some.injEq] at h
    obtain ⟨b, -, e, -, rfl⟩ := h
    exact Or.inl rfl
  | recvPacket =>
    simp only [step, Option.bind_eq_bind, Option.bind_eq_some_iff, Option.some.injEq] at h
    obtain ⟨x, -, w, hw, rfl⟩ := h
    exact Or.inr ⟨.recv x, hw, Or.inl ⟨x, rfl⟩⟩
  | handPacket =>
    simp only [step, Option.bind_eq_bind, Option.bind_eq_some_iff, Option.ite_none_right_eq_some,
      Option.some.injEq] at h
    obtain ⟨x, -, e, -, w, hw, -, rfl⟩ := h
    exact Or.inr ⟨.recv x, hw, Or.inl ⟨x, rfl⟩⟩

/-- The reader returns an error when a read fails, or when a block is not taken. -/
lemma reader_error {r r' : Reader} {blockSize : ℕ} {a : ReaderAction}
    (h : Reader.step blockSize r a = some r') :
    (r'.point = .exited .error → a = .ioError ∨ a = .dropped) ∧
      (a = .ioError → r'.point = .exited .error) := by
  obtain ⟨n, rfl, hr, -, rfl⟩ | ⟨rfl, hr, rfl⟩ | ⟨rfl, -, rfl⟩ | ⟨b, last, rfl, -, rfl⟩ |
    ⟨b, last, rfl, -⟩ := Reader.step_cases h
  · exact ⟨fun herror => absurd herror (Reader.point_onRead_ne hr), nofun⟩
  · refine ⟨fun herror => ?_, nofun⟩
    rw [hr] at herror
    cases herror
  · exact ⟨fun _ => Or.inl rfl, fun _ => rfl⟩
  · refine ⟨fun herror => ?_, nofun⟩
    cases last <;> cases herror
  · exact ⟨fun _ => Or.inr rfl, nofun⟩

/-- The writer returns an error when a write fails. -/
lemma writer_error_iff {w w' : Writer} {codec : WireCodec} {pid : UInt16}
    {oti : ObjectTransmissionInformation} {a : WriterAction}
    (h : Writer.step codec pid oti w a = some w') :
    w'.point = .exited .error ↔ a = .ioError := by
  unfold Writer.step at h
  split at h
  · rw [← Option.some.inj h]
    exact ⟨nofun, nofun⟩
  · rw [← Option.some.inj h]
    exact ⟨nofun, nofun⟩
  · rw [← Option.some.inj h]
    exact ⟨nofun, nofun⟩
  · rw [← Option.some.inj h]
    exact ⟨nofun, nofun⟩
  · rw [← Option.some.inj h]
    exact ⟨fun _ => rfl, fun _ => rfl⟩
  · cases h

/-- A thread that has exited stays where it is. -/
lemma reader_of_exited {a : PipelineAction} (h : step setup p a = some p')
    (hexited : p.reader.hasExited = true) : p'.reader = p.reader := by
  rcases step_reader h with hsame | ⟨ra, hr, -⟩
  · exact hsame
  · rw [Reader.step_alive hr] at hexited
    cases hexited

lemma writer_of_exited {a : PipelineAction} (h : step setup p a = some p') {result : Exit}
    (hexited : p.writer.point = .exited result) : p'.writer = p.writer := by
  rcases step_writer h with hsame | ⟨wa, hw, -⟩
  · exact hsame
  · exact absurd hexited (Writer.point_of_step hw result)

/-- Errors come from a read or a write that fails. -/
lemma Inv.failed_step (hinv : Inv setup stdin rng p) {a : PipelineAction}
    (h : Pipeline.step setup p a = some p') : p'.Failed ↔ p.Failed ∨ ioFailure a = true := by
  constructor
  · rintro (hreader | hwriter)
    · rcases step_reader h with hsame | ⟨ra, hr, hwhy⟩
      · exact Or.inl (Or.inl (hsame ▸ hreader))
      rcases (reader_error hr).1 hreader with rfl | rfl
      · obtain ⟨rfl, -⟩ := hwhy.resolve_left nofun
        exact Or.inr rfl
      · -- the send was refused, so the encoder is gone, and before it the writer
        obtain ⟨rfl, hmay⟩ := hwhy.resolve_left nofun
        exact Or.inl (Or.inr (hinv.writer_failed hmay (Reader.step_alive hr)))
    · rcases step_writer h with hsame | ⟨wa, hw, hwhy⟩
      · exact Or.inl (Or.inr (hsame ▸ hwriter))
      · obtain rfl := (writer_error_iff hw).mp hwriter
        obtain rfl := hwhy.resolve_left (fun ⟨x, hx⟩ => by cases hx)
        exact Or.inr rfl
  · rintro ((hreader | hwriter) | hio)
    · refine Or.inl ?_
      rw [reader_of_exited h (by rw [Reader.hasExited, hreader])]
      exact hreader
    · refine Or.inr ?_
      rw [writer_of_exited h hwriter]
      exact hwriter
    · cases a with
      | reader a =>
        cases a with
        | ioError =>
          simp only [Pipeline.step, Option.ite_none_right_eq_some, Option.map_eq_some_iff] at h
          obtain ⟨-, r, hr, rfl⟩ := h
          exact Or.inl ((reader_error hr).2 rfl)
        | read _ | interrupted | sent | dropped => cases hio
      | writer a =>
        cases a with
        | ioError =>
          simp only [Pipeline.step, Option.ite_none_right_eq_some, Option.map_eq_some_iff] at h
          obtain ⟨-, w, hw, rfl⟩ := h
          exact Or.inr ((writer_error_iff hw).mpr rfl)
        | recv _ | empty | disconnected | written => cases hio
      | encoder _ | sendBlock | recvBlock | handBlock | sendPacket | recvPacket | handPacket =>
        cases hio

/-- A thread has failed exactly if a read or a write has. -/
lemma failed_iff {acts : List PipelineAction}
    (hrun : Machine.run (Pipeline.step setup) (init setup stdin rng) acts = some p) :
    p.Failed ↔ ∃ a ∈ acts, ioFailure a = true := by
  refine Machine.run_induction (P := fun acts (p : Pipeline E R) =>
    p.Failed ↔ ∃ a ∈ acts, ioFailure a = true) ?_ ?_ hrun
  · constructor
    · rintro (h | h) <;> cases h
    · rintro ⟨a, ha, -⟩
      cases ha
  · intro acts p a p' hrun ih hstep
    have hinv := (show Reachable setup stdin rng p from ⟨acts, hrun⟩).inv
    rw [hinv.failed_step hstep, ih]
    simp only [List.mem_append, List.mem_singleton, or_and_right, exists_or, exists_eq_left]

/-! ## The exit status -/

section Outcome

variable {code : FountainCode} {k : ℕ}

/-- **The exit status tells the truth.** When `main` returns, it returns an error if and only if
a read or a write has failed. If it returns `Ok(())`, every block of the padded input has gone
through the encoder, and every packet the encoder has sent is on the wire, in order. -/
theorem exit_status_faithful (hfits : setup.args.Fits k) (hcode : code.Laws symbolSize)
    (henc : setup.enc.Laws code setup.args.oti k) {acts : List PipelineAction}
    (hrun : Machine.run (Pipeline.step setup) (init setup stdin rng) acts = some p)
    {result : Exit} (hexit : p.exit = some result) :
    (result = .error ↔ ∃ a ∈ acts, ioFailure a = true) ∧
    (result = .ok → p.encoder.received.flatten = padded (k * symbolSize) stdin ∧
      ∃ items, Numbered setup.codec setup.pid setup.args.oti items p.writer.wire ∧
        items.filterMap id = p.encoder.sent) := by
  have hinv := (show Reachable setup stdin rng p from ⟨acts, hrun⟩).inv
  constructor
  · rw [← failed_iff hrun]
    constructor
    · rintro rfl
      exact failed_of_exit hexit
    · intro hfailed
      cases result with
      | error => rfl
      | ok => exact absurd (exit_eq_ok.mp hexit) (not_ended_of_failed hfailed)
  · rintro rfl
    have hended := exit_eq_ok.mp hexit
    obtain ⟨hreceived, hwritten⟩ := hinv.ended hended
    obtain ⟨all, hall⟩ := hinv.writer_run.numbered (hinv.fitting hfits hcode henc)
    obtain ⟨items, hitems, -, hend⟩ := hall.wire
    exact ⟨by rw [hreceived, hinv.sent_flatten hended hfits], items, hitems,
      by rw [hend hended.2.2, hwritten]⟩

/-- The short run ends well. -/
theorem exit_status_faithful_short : ∃ p : Pipeline Reference.Encoder Unit,
    Machine.run (Pipeline.step shortSetup) (init shortSetup Reference.stdin ()) shortRun = some p ∧
      p.exit = some .ok ∧ p.encoder.received.flatten = padded (1 * symbolSize) Reference.stdin := by
  have hobs : (Machine.run (Pipeline.step shortSetup) (init shortSetup Reference.stdin ())
      shortRun).map exit = some (some .ok) := by
    decide +kernel
  obtain ⟨p, hrun, hexit⟩ := Option.map_eq_some_iff.mp hobs
  have hfits : shortSetup.args.Fits 1 := Reference.params_fits
  exact ⟨p, hrun, hexit, ((exit_status_faithful hfits Reference.code_laws
    (Reference.encoder_laws rfl) hrun hexit).2 rfl).1⟩

/-! ## After a write has failed -/

/-- The encoder is about to find that the writer is gone, or has found it. -/
def Halting (e : Encoder E R) : Prop :=
  match e.point with
  | .emitting _ packets => packets.next ≠ none
  | .exited => True
  | _ => False

/-- What has become of `p`, whose writer has failed. -/
structure Stopping (p p' : Pipeline E R) : Prop where
  writer : p'.writer = p.writer
  sent : p'.encoder.sent = p.encoder.sent
  received : p'.encoder.received = p.encoder.received ∨
    p'.encoder.received.length = p.encoder.received.length + 1 ∧ Halting p'.encoder

lemma Stopping.refl (p : Pipeline E R) : Stopping p p := ⟨rfl, rfl, Or.inl rfl⟩

/-- A block has at least one packet to be sent. -/
lemma halting_onRecv (hfits : setup.args.Fits k) (henc : setup.enc.Laws code setup.args.oti k)
    {e : Encoder E R} {b : Bytes} (hb : b.length = k * symbolSize) :
    Halting (e.onRecv setup.enc setup.args b) := by
  show (interleave _ _ _).next ≠ none
  intro hnone
  have hrest := Interleave.rest_of_none hnone
  have hlength : b.length = setup.args.oti.transferLength := by
    rw [hb, hfits.oti_eq]
    rfl
  rw [interleave, Interleave.rest, henc.sourcePackets_new _ _ hlength] at hrest
  have hsource := (List.append_eq_nil_iff.mp hrest).1
  rw [List.map_eq_nil_iff, List.range_eq_nil] at hsource
  have hpos := hfits.k_pos
  omega

/-- The encoder takes one block more and no other. -/
lemma Stopping.takes (hfits : setup.args.Fits k) (henc : setup.enc.Laws code setup.args.oti k)
    {q : Pipeline E R} (h : Stopping p q) {b : Bytes} {e : Encoder E R}
    (he : q.stepEncoder setup (.recv b) = some e) (hb : b.length = k * symbolSize) :
    e.sent = p.encoder.sent ∧ e.received.length = p.encoder.received.length + 1 ∧ Halting e := by
  cases Encoder.step_moves he with
  | recv hpoint =>
    -- an encoder that halts does not receive
    have hreceived : q.encoder.received = p.encoder.received := by
      refine h.received.resolve_right fun ⟨_, hhalting⟩ => ?_
      unfold Halting at hhalting
      rw [hpoint] at hhalting
      exact hhalting
    refine ⟨h.sent, ?_, halting_onRecv hfits henc hb⟩
    show (q.encoder.received ++ [b]).length = _
    rw [hreceived, List.length_append, List.length_singleton]
  | exit ha => rcases ha with ha | ha <;> cases ha

/-- A step that the encoder takes by itself sends and receives nothing. -/
lemma Stopping.encoder {q : Pipeline E R} (h : Stopping p q) {a : EncoderAction} {e : Encoder E R}
    (hmay : q.encoderMay a = true) (he : q.stepEncoder setup a = some e) :
    Stopping p { q with encoder := e } := by
  have hrest (hpoint : ¬ Halting q.encoder) : q.encoder.received = p.encoder.received :=
    h.received.resolve_right fun ⟨_, hhalting⟩ => hpoint hhalting
  cases Encoder.step_moves he with
  | recv _ => cases hmay
  | nap hpoint _ _ => exact ⟨h.writer, h.sent, Or.inl (hrest (by simp [Halting, hpoint]))⟩
  | mint hpoint _ _ _ => exact ⟨h.writer, h.sent, Or.inl (hrest (by simp [Halting, hpoint]))⟩
  | send _ _ => cases hmay
  | finish hpoint hnext =>
    exact ⟨h.writer, h.sent, Or.inl (hrest (by simp [Halting, hpoint, hnext]))⟩
  | sendExtra _ => cases hmay
  | exit _ => exact ⟨h.writer, h.sent, h.received.imp_right fun hr => ⟨hr.1, trivial⟩⟩

lemma Stopping.step (hfits : setup.args.Fits k) (henc : setup.enc.Laws code setup.args.oti k)
    (hfailed : p.writer.point = .exited .error) {q q' : Pipeline E R} (h : Stopping p q)
    {a : PipelineAction} (hstep : Pipeline.step setup q a = some q')
    (hinv : Inv setup stdin rng q') : Stopping p q' := by
  have hgone : q.writer.point = .exited .error := by rw [h.writer, hfailed]
  have hexited : q.writer.hasExited = true := by rw [Writer.hasExited, hgone]
  -- the blocks received come from the reader
  have hlength : ∀ b ∈ q'.encoder.received, b.length = k * symbolSize := fun b hb =>
    hinv.sent_length hfits b (hinv.blocks.received_initial.subset hb)
  have hmem {b : Bytes} {e : Encoder E R} (he : q.stepEncoder setup (.recv b) = some e) :
      b ∈ e.received := by
    rw [(Encoder.step_recv he).1]
    exact List.mem_append_right _ (List.mem_singleton_self b)
  cases step_moves hstep with
  | reader _ _ => exact ⟨h.writer, h.sent, h.received⟩
  | encoder hmay he => exact h.encoder hmay he
  | writer _ hw => exact absurd hgone (Writer.point_of_step hw _)
  | sendBlock _ _ _ _ => exact ⟨h.writer, h.sent, h.received⟩
  | recvBlock _ he =>
    obtain ⟨hsent, hreceived⟩ := h.takes hfits henc he (hlength _ (hmem he))
    exact ⟨h.writer, hsent, Or.inr hreceived⟩
  | handBlock _ _ he _ =>
    obtain ⟨hsent, hreceived⟩ := h.takes hfits henc he (hlength _ (hmem he))
    exact ⟨h.writer, hsent, Or.inr hreceived⟩
  | sendPacket _ _ _ halive =>
    rw [hexited] at halive
    cases halive
  | recvPacket _ hw => exact absurd hgone (Writer.point_of_step hw _)
  | handPacket _ _ hw _ => exact absurd hgone (Writer.point_of_step hw _)

/-- **A failed write stops the pipeline.** From then on nothing is sent to the writer or written,
the encoder takes at most one block more, the reader gets rid of no more blocks than that and
the channel hold, and `main` does not return `Ok(())`. -/
theorem writer_failure_stops (hfits : setup.args.Fits k)
    (henc : setup.enc.Laws code setup.args.oti k) (h : Reachable setup stdin rng p)
    (hfailed : p.writer.point = .exited .error) {more : List PipelineAction}
    (hrun : Machine.run (Pipeline.step setup) p more = some p') :
    p'.writer = p.writer ∧ p'.encoder.sent = p.encoder.sent ∧
      p'.encoder.received.length ≤ p.encoder.received.length + 1 ∧
      p'.reader.sent.length ≤ p.encoder.received.length + 1 + setup.blockCap ∧
      p'.exit ≠ some .ok := by
  obtain ⟨acts, hacts⟩ := h
  have hreach {m : List PipelineAction} {q : Pipeline E R}
      (hm : Machine.run (Pipeline.step setup) p m = some q) : Reachable setup stdin rng q :=
    ⟨acts ++ m, Machine.run_append_eq_some.mpr ⟨p, hacts, hm⟩⟩
  have hstopping : Stopping p p' := by
    refine Machine.run_induction (P := fun _ q => Stopping p q) (Stopping.refl p) ?_ hrun
    intro m q a q' hm ih hstep
    have hm' := Machine.run_concat_eq_some.mpr ⟨q, hm, hstep⟩
    exact ih.step hfits henc hfailed hstep (hreach hm').inv
  have hreceived : p'.encoder.received.length ≤ p.encoder.received.length + 1 := by
    rcases hstopping.received with heq | ⟨heq, -⟩
    · rw [heq]
      exact Nat.le_succ _
    · rw [heq]
  have hinv := (hreach hrun).inv
  have hblocks := congrArg List.length hinv.blocks
  rw [List.length_append] at hblocks
  have hcap := hinv.blocks_le
  refine ⟨hstopping.writer, hstopping.sent, hreceived, by omega, fun hok => ?_⟩
  have hwriter := (exit_eq_ok.mp hok).2.2
  rw [hstopping.writer, hfailed] at hwriter
  cases hwriter

/-- The first frame, a noop, cannot be written. -/
def failingRun : List PipelineAction := [.writer .empty, .writer .ioError]

/-- The block is still taken, but not its packet. -/
def stoppingRun : List PipelineAction :=
  [.reader (.read 3), .reader (.read 0), .sendBlock, .recvBlock, .encoder .dropped]

theorem writer_failure_stops_first : ∃ p p' : Pipeline Reference.Encoder Unit,
    Reachable shortSetup Reference.stdin () p ∧ p.writer.point = .exited .error ∧
      Machine.run (Pipeline.step shortSetup) p stoppingRun = some p' ∧
      p'.encoder.received.length = 1 ∧ p'.encoder.sent = p.encoder.sent ∧ p'.exit ≠ some .ok := by
  have hobs : (Machine.run (Pipeline.step shortSetup) (init shortSetup Reference.stdin ())
      failingRun).map (fun p => p.writer.point) = some (.exited .error) := by
    decide +kernel
  obtain ⟨p, hrun, hfailed⟩ := Option.map_eq_some_iff.mp hobs
  have hobs' : (Machine.run (Pipeline.step shortSetup) (init shortSetup Reference.stdin ())
      (failingRun ++ stoppingRun)).map (fun p => p.encoder.received.length) = some 1 := by
    decide +kernel
  obtain ⟨p', hrun', hreceived⟩ := Option.map_eq_some_iff.mp hobs'
  obtain ⟨m, hm, hmore⟩ := Machine.run_append_eq_some.mp hrun'
  obtain rfl := Option.some.inj (hrun.symm.trans hm)
  have hfits : shortSetup.args.Fits 1 := Reference.params_fits
  obtain ⟨-, hsent, -, -, hexit⟩ :=
    writer_failure_stops hfits (Reference.encoder_laws rfl) ⟨failingRun, hrun⟩ hfailed hmore
  exact ⟨p, p', ⟨failingRun, hrun⟩, hfailed, hmore, hreceived, hsent, hexit⟩

end Outcome

end RaptorqTs.Enc.Pipeline
