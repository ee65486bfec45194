import RaptorqTs.Enc.Shutdown

/-!
# The encoder process comes to an end

Noops, naps and interrupted reads apart, the three threads take no more steps than the input
allows: the repair symbols that the ring may still yield are among what is left to do. And no
state of the pipeline is a dead end, with channels of any capacity and also after a failure.
-/

namespace RaptorqTs.Enc

variable {E R : Type}

/-! ## What the threads may still do -/

/-- The repair symbols the blocks of a ring can still yield. -/
def ringLeft (ring : List (BlockGen E)) : ℕ :=
  (ring.map fun bg => bg.maxRepair - bg.nextRepairId).sum

lemma ringLeft_suffix {ring ring' : List (BlockGen E)} (h : ring' <:+ ring) :
    ringLeft ring' ≤ ringLeft ring := by
  obtain ⟨front, rfl⟩ := h
  rw [ringLeft, ringLeft, List.map_append, List.sum_append]
  exact Nat.le_add_left _ _

/-- One symbol less. -/
lemma ringLeft_mint {ring : List (BlockGen E)} {idx : ℕ} {bg : BlockGen E}
    (hbg : ring[idx]? = some bg) (hlive : bg.exhausted = false) :
    ringLeft (ring.set idx { bg with nextRepairId := bg.nextRepairId + 1 }) + 1 =
      ringLeft ring := by
  have hlt : bg.nextRepairId < bg.maxRepair := by simpa [BlockGen.exhausted] using hlive
  induction ring generalizing idx with
  | nil => simp at hbg
  | cons front ring ih =>
    cases idx with
    | zero =>
      obtain rfl : front = bg := by simpa using hbg
      simp only [ringLeft, List.set_cons_zero, List.map_cons, List.sum_cons]
      omega
    | succ idx =>
      have hrest := ih (by simpa using hbg)
      simp only [ringLeft, List.set_cons_succ, List.map_cons, List.sum_cons] at hrest ⊢
      omega

/-- The steps that a block takes up in the encoder, those of its extra repair symbols
included. -/
def Params.blockCost (args : Params) (k : ℕ) : ℕ :=
  3 * (k + args.baselineRepair) + 4 * (args.maxRepair - args.baselineRepair) + 2

/-- A packet that is sent costs its send and what the writer does with it. -/
def Encoder.left (args : Params) (e : Encoder E R) : ℕ :=
  4 * ringLeft e.ring + match e.point with
    | .receiving => 1
    | .emitting _ packets =>
      3 * packets.rest.length + 4 * (args.maxRepair - args.baselineRepair) + 2
    | .sendingExtra _ _ => 4
    | .exited => 0

def Writer.left (w : Writer) : ℕ :=
  match w.point with
  | .polling => 1
  | .writing _ => 2
  | .exited _ => 0

/-- The slack of a nap. -/
def EncoderAction.slack : EncoderAction → ℕ
  | .empty _ => 1
  | _ => 0

/-- A frame is one more to write. -/
def WriterAction.slack : WriterAction → ℕ
  | .recv _ | .empty => 2
  | _ => 0

namespace Encoder

variable {enc : SourceBlockEncoder E} {coin : R → Bool × R} {args : Params} {e e' : Encoder E R}

/-- A block that is received brings its cost with it. -/
lemma left_recv {code : FountainCode} {k : ℕ} (hfits : args.Fits k)
    (henc : enc.Laws code args.oti k) {b : Bytes} (hb : b.length = k * symbolSize)
    (h : step enc coin args e (.recv b) = some e') :
    e'.left args + 1 = e.left args + args.blockCost k := by
  cases step_moves h with
  | recv hpoint =>
    have hlength : b.length = args.oti.transferLength := by
      rw [hb, hfits.oti_eq]
      rfl
    have hesi := hfits.esi_le
    simp only [left, onRecv, hpoint, interleave, Interleave.rest, Params.blockCost,
      henc.sourcePackets_new _ _ hlength,
      henc.repairPackets_new e.sbn _ 0 args.baselineRepair hlength (by omega),
      List.length_append, List.length_map, List.length_range]
    omega
  | exit ha => rcases ha with ha | ha <;> cases ha

/-- A packet that is sent. -/
lemma left_send (h : step enc coin args e .send = some e') : e'.left args + 3 = e.left args := by
  cases step_moves h with
  | send hpoint hnext =>
    have hrest := Interleave.length_rest hnext
    simp only [left, hpoint, hrest]
    omega
  | sendExtra hpoint => simp only [left, hpoint]
  | exit ha => rcases ha with ha | ha <;> cases ha

/-- Any other step; an idle slot that finds nothing to send is free. -/
lemma left_other {a : EncoderAction} (hrecv : ∀ b, a ≠ .recv b) (hsend : a ≠ .send)
    (h : step enc coin args e a = some e') :
    e'.left args + 1 ≤ e.left args + a.slack := by
  cases step_moves h with
  | recv _ => exact absurd rfl (hrecv _)
  | send _ _ => exact absurd rfl hsend
  | sendExtra _ => exact absurd rfl hsend
  | @nap clock rng hpoint _ _ =>
    have hring := ringLeft_suffix (pruneRing_suffix clock args.horizon e.ring)
    simp only [left, hpoint, EncoderAction.slack]
    omega
  | @mint clock rng idx bg hpoint _ hpick hbg =>
    obtain ⟨bg', hbg', hlive⟩ := pickBlock_live coin (congrArg Prod.fst hpick)
    obtain rfl := Option.some.inj (hbg.symm.trans hbg')
    have hmint := ringLeft_mint hbg hlive
    have hring := ringLeft_suffix (pruneRing_suffix clock args.horizon e.ring)
    cases hextra : (enc.repairPackets bg.encoder bg.nextRepairId 1).getLast? with
    | none =>
      simp only [left, hpoint, EncoderAction.slack]
      omega
    | some packet =>
      simp only [left, hpoint, EncoderAction.slack]
      omega
  | @finish encoder packets created clock hpoint hnext =>
    simp only [left, onFinish, hpoint, EncoderAction.slack]
    split
    · have hring := ringLeft_suffix (pruneRing_suffix clock args.horizon
        (e.ring ++ [⟨encoder, args.baselineRepair, args.maxRepair, created,
          e.received.length - 1⟩]))
      have hpush : ringLeft (e.ring ++ [⟨encoder, args.baselineRepair, args.maxRepair, created,
          e.received.length - 1⟩]) =
            ringLeft e.ring + (args.maxRepair - args.baselineRepair) := by
        simp only [ringLeft, List.map_append, List.map_singleton, List.sum_append,
          List.sum_singleton]
      omega
    · omega
  | exit _ =>
    have halive := step_alive h
    simp only [left]
    unfold hasExited at halive
    split at halive
    · cases halive
    · rename_i hpoint
      split
      · omega
      · omega
      · omega
      · rename_i hexited
        exact absurd hexited hpoint

end Encoder

/-- What a step of the writer does to its measure. -/
lemma Writer.left_step {codec : WireCodec} {pid : UInt16} {oti : ObjectTransmissionInformation}
    {w w' : Writer} {a : WriterAction} (h : Writer.step codec pid oti w a = some w') :
    w'.left + 1 ≤ w.left + a.slack := by
  unfold Writer.step at h
  split at h
  · rename_i hpoint
    rw [← Option.some.inj h, Writer.left, Writer.left, hpoint]
    exact Nat.le_refl 3
  · rename_i hpoint
    rw [← Option.some.inj h, Writer.left, Writer.left, hpoint]
    exact Nat.le_refl 3
  · rename_i hpoint
    rw [← Option.some.inj h, Writer.left, Writer.left, hpoint]
    exact Nat.le_refl 1
  · rename_i hpoint
    rw [← Option.some.inj h, Writer.left, Writer.left, hpoint]
    exact Nat.le_refl 2
  · rename_i hpoint
    rw [← Option.some.inj h, Writer.left, Writer.left, hpoint]
    exact Nat.le_succ 1
  · cases h

namespace Pipeline

variable {setup : Setup E R} {stdin : Bytes} {rng : R} {p p' : Pipeline E R}
  {code : FountainCode} {k : ℕ}

/-! ## The measure -/

/-- A bound on the steps to come, but for noops, naps and interrupted reads. A byte may be the
last one of a block. -/
def left (args : Params) (k : ℕ) (p : Pipeline E R) : ℕ :=
  (args.blockCost k + 1) * p.reader.left + args.blockCost k * p.blocks.length +
    p.encoder.left args + 2 * p.packets.length + p.writer.left

/-- What a noop, a nap or an interrupted read puts back into the measure. -/
def cost : PipelineAction → ℕ
  | .writer .empty => 2
  | .encoder (.empty _) | .reader .interrupted => 1
  | _ => 0

/-- A step of the reader pays for a block. -/
lemma reader_pays {args : Params} {r r' : Reader} {blockSize : ℕ} {a : ReaderAction}
    (ha : a ≠ .interrupted) (h : Reader.step blockSize r a = some r') :
    (args.blockCost k + 1) * r'.left + args.blockCost k + 1 ≤
      (args.blockCost k + 1) * r.left := by
  have hleft := Reader.left_step h
  rw [if_pos ha] at hleft
  rw [Nat.add_assoc, ← Nat.mul_succ]
  exact Nat.mul_le_mul_left _ hleft

/-! ### The steps of one thread -/

lemma left_reader {a : ReaderAction} (h : Pipeline.step setup p (.reader a) = some p') :
    p'.left setup.args k + 1 ≤ p.left setup.args k + cost (.reader a) := by
  simp only [Pipeline.step, Option.ite_none_right_eq_some, Option.map_eq_some_iff] at h
  obtain ⟨-, r, hr, rfl⟩ := h
  by_cases ha : a = .interrupted
  · subst ha
    have hleft : r.left ≤ p.reader.left := (Nat.le_add_right _ _).trans (Reader.left_step hr)
    have hmul := Nat.mul_le_mul_left (setup.args.blockCost k + 1) hleft
    simp only [left, cost]
    omega
  · have hpay := @reader_pays k setup.args _ _ _ _ ha hr
    simp only [left]
    omega

lemma left_encoder {a : EncoderAction} (h : Pipeline.step setup p (.encoder a) = some p') :
    p'.left setup.args k + 1 ≤ p.left setup.args k + cost (.encoder a) := by
  simp only [Pipeline.step, Option.ite_none_right_eq_some, Option.map_eq_some_iff] at h
  obtain ⟨hmay, e, he, rfl⟩ := h
  have hleft := Encoder.left_other (by rintro b rfl; cases hmay) (by rintro rfl; cases hmay) he
  have hcost : a.slack ≤ cost (.encoder a) := by cases a <;> exact Nat.le_refl _
  simp only [left]
  omega

lemma left_writer {a : WriterAction} (h : Pipeline.step setup p (.writer a) = some p') :
    p'.left setup.args k + 1 ≤ p.left setup.args k + cost (.writer a) := by
  simp only [Pipeline.step, Option.ite_none_right_eq_some, Option.map_eq_some_iff] at h
  obtain ⟨hmay, w, hw, rfl⟩ := h
  have hleft := Writer.left_step hw
  have hcost : a.slack ≤ cost (.writer a) := by
    cases a with
    | recv x => cases hmay
    | empty | disconnected | written | ioError => exact Nat.le_refl _
  simp only [left]
  omega

/-! ### A block is handed over -/

/-- A block that the encoder receives comes from the reader, and so it is a whole one. -/
lemma Inv.left_recv (hfits : setup.args.Fits k) (henc : setup.enc.Laws code setup.args.oti k)
    {b : Bytes} {e : Encoder E R} (hinv : Inv setup stdin rng p')
    (he : p.stepEncoder setup (.recv b) = some e) (hsame : p'.encoder = e) :
    e.left setup.args + 1 = p.encoder.left setup.args + setup.args.blockCost k := by
  refine Encoder.left_recv hfits henc ?_ he
  apply hinv.sent_length hfits
  apply hinv.blocks.received_initial.subset
  rw [hsame, (Encoder.step_recv he).1]
  exact List.mem_append_right _ (List.mem_singleton_self b)

lemma left_sendBlock (h : Pipeline.step setup p .sendBlock = some p') :
    p'.left setup.args k + 1 ≤ p.left setup.args k := by
  simp only [Pipeline.step, Option.bind_eq_bind, Option.bind_eq_some_iff,
    Option.ite_none_right_eq_some, Option.some.injEq] at h
  obtain ⟨b, -, r, hr, -, rfl⟩ := h
  have hpay := @reader_pays k setup.args _ _ _ .sent (by rintro ⟨⟩) hr
  simp only [left, List.length_append, List.length_singleton, Nat.mul_succ]
  omega

lemma Inv.left_handBlock (hfits : setup.args.Fits k)
    (henc : setup.enc.Laws code setup.args.oti k) (hinv : Inv setup stdin rng p')
    (h : Pipeline.step setup p .handBlock = some p') :
    p'.left setup.args k + 1 ≤ p.left setup.args k := by
  simp only [Pipeline.step, Option.bind_eq_bind, Option.bind_eq_some_iff,
    Option.ite_none_right_eq_some, Option.some.injEq] at h
  obtain ⟨b, -, r, hr, e, he, -, rfl⟩ := h
  have hpay := @reader_pays k setup.args _ _ _ .sent (by rintro ⟨⟩) hr
  have hgain := hinv.left_recv hfits henc he rfl
  simp only [left]
  omega

lemma Inv.left_recvBlock (hfits : setup.args.Fits k)
    (henc : setup.enc.Laws code setup.args.oti k) (hinv : Inv setup stdin rng p')
    (h : Pipeline.step setup p .recvBlock = some p') :
    p'.left setup.args k + 1 ≤ p.left setup.args k := by
  simp only [Pipeline.step, Option.bind_eq_bind, Option.bind_eq_some_iff, Option.some.injEq] at h
  obtain ⟨b, hb, e, he, rfl⟩ := h
  have hgain := hinv.left_recv hfits henc he rfl
  have hqueue : p.blocks.length = p.blocks.tail.length + 1 := by
    rw [← List.cons_head?_tail hb, List.length_cons, List.tail_cons]
  simp only [left, hqueue, Nat.mul_succ]
  omega

/-! ### A packet is handed over -/

lemma left_sendPacket (h : Pipeline.step setup p .sendPacket = some p') :
    p'.left setup.args k + 1 ≤ p.left setup.args k := by
  simp only [Pipeline.step, Option.bind_eq_bind, Option.bind_eq_some_iff,
    Option.ite_none_right_eq_some, Option.some.injEq] at h
  obtain ⟨x, -, e, he, -, rfl⟩ := h
  have hsend := Encoder.left_send he
  simp only [left, List.length_append, List.length_singleton]
  omega

lemma left_recvPacket (h : Pipeline.step setup p .recvPacket = some p') :
    p'.left setup.args k + 1 ≤ p.left setup.args k := by
  simp only [Pipeline.step, Option.bind_eq_bind, Option.bind_eq_some_iff, Option.some.injEq] at h
  obtain ⟨x, hx, w, hw, rfl⟩ := h
  have hleft := Writer.left_step hw
  have hqueue : p.packets.length = p.packets.tail.length + 1 := by
    rw [← List.cons_head?_tail hx, List.length_cons, List.tail_cons]
  simp only [left, hqueue, WriterAction.slack] at hleft ⊢
  omega

lemma left_handPacket (h : Pipeline.step setup p .handPacket = some p') :
    p'.left setup.args k + 1 ≤ p.left setup.args k := by
  simp only [Pipeline.step, Option.bind_eq_bind, Option.bind_eq_some_iff,
    Option.ite_none_right_eq_some, Option.some.injEq] at h
  obtain ⟨x, -, e, he, w, hw, -, rfl⟩ := h
  have hsend := Encoder.left_send he
  have hleft := Writer.left_step hw
  simp only [left, WriterAction.slack] at hleft ⊢
  omega

/-! ### All steps -/

lemma Inv.left_step (hfits : setup.args.Fits k) (henc : setup.enc.Laws code setup.args.oti k)
    {a : PipelineAction} (h : Pipeline.step setup p a = some p') (hinv : Inv setup stdin rng p') :
    p'.left setup.args k + 1 ≤ p.left setup.args k + cost a := by
  cases a with
  | reader a => exact left_reader h
  | encoder a => exact left_encoder h
  | writer a => exact left_writer h
  | sendBlock => exact left_sendBlock h
  | handBlock => exact hinv.left_handBlock hfits henc h
  | recvBlock => exact hinv.left_recvBlock hfits henc h
  | sendPacket => exact left_sendPacket h
  | recvPacket => exact left_recvPacket h
  | handPacket => exact left_handPacket h

/-- No run is longer than its input, its noops, its naps and its interrupted reads allow. -/
lemma length_run_le (hfits : setup.args.Fits k) (henc : setup.enc.Laws code setup.args.oti k)
    {acts : List PipelineAction}
    (hrun : Machine.run (Pipeline.step setup) (init setup stdin rng) acts = some p) :
    acts.length + p.left setup.args k ≤
      (setup.args.blockCost k + 1) * (2 * stdin.length + 2) + 2 + (acts.map cost).sum := by
  refine Machine.run_induction (P := fun acts (p : Pipeline E R) =>
    acts.length + p.left setup.args k ≤
      (setup.args.blockCost k + 1) * (2 * stdin.length + 2) + 2 + (acts.map cost).sum) ?_ ?_ hrun
  · exact Nat.le_of_eq (Nat.zero_add _)
  · intro acts p a p' hacts ih hstep
    have hinv : Inv setup stdin rng p' := (show Reachable setup stdin rng p' from
      ⟨acts ++ [a], Machine.run_concat_eq_some.mpr ⟨p, hacts, hstep⟩⟩).inv
    have hless := Inv.left_step hfits henc hstep hinv
    rw [List.length_append, List.length_singleton, List.map_append, List.map_singleton,
      List.sum_append, List.sum_singleton]
    omega

/-! ## No state is a dead end -/

/-- The step needs no noop, no nap and no failure, and the clock stands at `t` in it. -/
def Smooth (t : Instant) : PipelineAction → Prop
  | .reader a => a ≠ .interrupted ∧ a ≠ .ioError
  | .encoder (.finish created clock) => created = t ∧ clock = fun _ => t
  | .encoder (.empty _) => False
  | .writer a => a ≠ .empty ∧ a ≠ .ioError
  | _ => True

lemma cost_of_smooth {t : Instant} {a : PipelineAction} (h : Smooth t a) :
    cost a = 0 ∧ ioFailure a = false := by
  cases a with
  | reader a =>
    cases a with
    | interrupted => exact absurd rfl h.1
    | ioError => exact absurd rfl h.2
    | read _ | sent | dropped => exact ⟨rfl, rfl⟩
  | encoder a =>
    cases a with
    | empty _ => exact absurd h id
    | recv _ | disconnected | send | dropped | finish _ _ => exact ⟨rfl, rfl⟩
  | writer a =>
    cases a with
    | empty => exact absurd rfl h.1
    | ioError => exact absurd rfl h.2
    | recv _ | disconnected | written => exact ⟨rfl, rfl⟩
  | sendBlock | recvBlock | handBlock | sendPacket | recvPacket | handPacket => exact ⟨rfl, rfl⟩

/-- The reader moves on, when the encoder waits for a block or is gone. -/
lemma Inv.exists_reader_step (h : Inv setup stdin rng p) (hfits : setup.args.Fits k) (t : Instant)
    (halive : p.reader.hasExited = false)
    (hfree : p.blocks = [] ∧ p.encoder.point = .receiving ∨ p.encoder.hasExited = true) :
    ∃ a, Smooth t a ∧ (Pipeline.step setup p a).isSome = true := by
  obtain ⟨racts, hrun, -⟩ := h.reader_run
  have hpos : 0 < setup.args.oti.transferLength := by
    rw [hfits.oti_eq]
    exact Nat.mul_pos hfits.k_pos symbolSize_pos
  cases hpoint : p.reader.point with
  | reading =>
    have hspace : p.reader.point = .reading →
        p.reader.filled < setup.args.oti.transferLength := by
      intro hr
      rcases Reader.inv_or_exited hpos hrun with ⟨hinv, -⟩ | ⟨⟨result, hexit⟩, -⟩
      · exact (hinv.reading hr).2.1
      · rw [hr] at hexit
        cases hexit
    have hopen : ∀ result, p.reader.point ≠ .exited result := by
      intro result hexited
      rw [hpoint] at hexited
      cases hexited
    obtain ⟨a, hint, hio, hdropped, hsome⟩ := Reader.exists_step hopen hspace
    obtain ⟨r, hr⟩ := Option.isSome_iff_exists.mp hsome
    have hmay : p.readerMay a = true := by
      cases a with
      | sent =>
        unfold Reader.step at hr
        rw [hpoint] at hr
        cases hr
      | dropped => exact absurd rfl hdropped
      | read _ | interrupted | ioError => rfl
    refine ⟨.reader a, ⟨hint, hio⟩, ?_⟩
    simp only [Pipeline.step, hmay, if_true, stepReader, hr, Option.map_some, Option.isSome_some]
  | sending block last =>
    have hoffered : p.reader.offered = some block := by rw [Reader.offered, hpoint]
    rcases hfree with ⟨hblocks, hreceiving⟩ | hgone
    · obtain ⟨r, hr⟩ : ∃ r, p.stepReader setup .sent = some r :=
        ⟨_, by simp only [stepReader, Reader.step, hpoint]; rfl⟩
      obtain ⟨e, he⟩ : ∃ e, p.stepEncoder setup (.recv block) = some e :=
        ⟨_, by simp only [stepEncoder, Encoder.step, hreceiving]; rfl⟩
      have hopen : p.encoder.hasExited = false := by rw [Encoder.hasExited, hreceiving]
      by_cases hcap : setup.blockCap = 0
      · refine ⟨.handBlock, trivial, ?_⟩
        simp only [Pipeline.step, hoffered, hr, he, hcap, Option.bind_eq_bind, Option.bind_some,
          if_true, Option.isSome_some]
      · refine ⟨.sendBlock, trivial, ?_⟩
        have hfull : p.blocks.length < setup.blockCap ∧ p.encoder.hasExited = false := by
          rw [hblocks]
          exact ⟨Nat.pos_of_ne_zero hcap, hopen⟩
        simp only [Pipeline.step, hoffered, hr, Option.bind_eq_bind, Option.bind_some,
          if_pos hfull, Option.isSome_some]
    · obtain ⟨r, hr⟩ : ∃ r, p.stepReader setup .dropped = some r :=
        ⟨_, by simp only [stepReader, Reader.step, hpoint]; rfl⟩
      refine ⟨.reader .dropped, ⟨by rintro ⟨⟩, by rintro ⟨⟩⟩, ?_⟩
      simp only [Pipeline.step, readerMay, hgone, if_true, hr, Option.map_some,
        Option.isSome_some]
  | exited result =>
    rw [Reader.hasExited, hpoint] at halive
    cases halive

/-- The encoder gets rid of a packet, when the writer waits for one or has failed. -/
lemma exists_send_step (t : Instant) {x : Sent}
    (hfree : p.packets = [] ∧ p.writer.point = .polling ∨ p.writer.point = .exited .error)
    (hoffered : p.encoder.offered = some x) (hsend : (p.stepEncoder setup .send).isSome = true)
    (hdrop : (p.stepEncoder setup .dropped).isSome = true) :
    ∃ a, Smooth t a ∧ (Pipeline.step setup p a).isSome = true := by
  obtain ⟨e, hsend⟩ := Option.isSome_iff_exists.mp hsend
  rcases hfree with ⟨hpackets, hpolling⟩ | hgone
  · obtain ⟨w, hw⟩ : ∃ w, p.stepWriter setup (.recv x) = some w :=
      ⟨_, by simp only [stepWriter, Writer.step, hpolling]; rfl⟩
    by_cases hcap : setup.packetCap = 0
    · refine ⟨.handPacket, trivial, ?_⟩
      simp only [Pipeline.step, hoffered, hsend, hw, hcap, Option.bind_eq_bind, Option.bind_some,
        if_true, Option.isSome_some]
    · refine ⟨.sendPacket, trivial, ?_⟩
      have hfull : p.packets.length < setup.packetCap ∧ p.writer.hasExited = false := by
        rw [hpackets, Writer.hasExited, hpolling]
        exact ⟨Nat.pos_of_ne_zero hcap, rfl⟩
      simp only [Pipeline.step, hoffered, hsend, Option.bind_eq_bind, Option.bind_some,
        if_pos hfull, Option.isSome_some]
  · have hexited : p.writer.hasExited = true := by rw [Writer.hasExited, hgone]
    refine ⟨.encoder .dropped, trivial, ?_⟩
    simp only [Pipeline.step, encoderMay, hexited, if_true, Option.isSome_map, hdrop]

/-- The encoder moves on, when the writer waits for a packet or has failed. -/
lemma Inv.exists_encoder_step (h : Inv setup stdin rng p) (hfits : setup.args.Fits k)
    (t : Instant) (halive : p.encoder.hasExited = false)
    (hfree : p.packets = [] ∧ p.writer.point = .polling ∨ p.writer.point = .exited .error) :
    ∃ a, Smooth t a ∧ (Pipeline.step setup p a).isSome = true := by
  cases hpoint : p.encoder.point with
  | emitting encoder packets =>
    cases hnext : packets.next with
    | some next =>
      apply exists_send_step t hfree (x := ⟨next.1, p.encoder.received.length - 1⟩)
      · simp only [Encoder.offered, hpoint, hnext, Option.map_some]
      · simp only [stepEncoder, Encoder.step, hpoint, hnext, Option.isSome_some]
      · simp only [stepEncoder, Encoder.step, hpoint, hnext, Option.isSome_some]
    | none =>
      refine ⟨.encoder (.finish t fun _ => t), ⟨rfl, rfl⟩, ?_⟩
      simp only [Pipeline.step, encoderMay, if_true, stepEncoder, Encoder.step, hpoint, hnext,
        Option.map_some, Option.isSome_some]
  | sendingExtra packet block =>
    apply exists_send_step t hfree (x := ⟨packet, block⟩)
    · simp only [Encoder.offered, hpoint]
    · simp only [stepEncoder, Encoder.step, hpoint, Option.isSome_some]
    · simp only [stepEncoder, Encoder.step, hpoint, Option.isSome_some]
  | receiving =>
    cases hblocks : p.blocks with
    | cons b rest =>
      refine ⟨.recvBlock, trivial, ?_⟩
      simp only [Pipeline.step, hblocks, List.head?_cons, stepEncoder, Encoder.step, hpoint,
        Option.bind_eq_bind, Option.bind_some, Option.isSome_some]
    | nil =>
      cases hexited : p.reader.hasExited with
      | true =>
        refine ⟨.encoder .disconnected, trivial, ?_⟩
        simp only [Pipeline.step, encoderMay, hblocks, List.isEmpty_nil, hexited, Bool.and_self,
          if_true, stepEncoder, Encoder.step, hpoint, Option.map_some, Option.isSome_some]
      | false => exact h.exists_reader_step hfits t hexited (Or.inl ⟨hblocks, hpoint⟩)
  | exited =>
    rw [Encoder.hasExited, hpoint] at halive
    cases halive

/-- As long as `main` has not returned, some thread can move on. -/
lemma Inv.exists_step (h : Inv setup stdin rng p) (hfits : setup.args.Fits k) (t : Instant)
    (hexit : p.exit = none) : ∃ a, Smooth t a ∧ (Pipeline.step setup p a).isSome = true := by
  cases hwriter : p.writer.point with
  | writing f =>
    refine ⟨.writer .written, ⟨by rintro ⟨⟩, by rintro ⟨⟩⟩, ?_⟩
    simp only [Pipeline.step, writerMay, if_true, stepWriter, Writer.step, hwriter,
      Option.map_some, Option.isSome_some]
  | polling =>
    cases hpackets : p.packets with
    | cons x rest =>
      refine ⟨.recvPacket, trivial, ?_⟩
      simp only [Pipeline.step, hpackets, List.head?_cons, stepWriter, Writer.step, hwriter,
        Option.bind_eq_bind, Option.bind_some, Option.isSome_some]
    | nil =>
      cases hencoder : p.encoder.hasExited with
      | false => exact h.exists_encoder_step hfits t hencoder (Or.inl ⟨hpackets, hwriter⟩)
      | true =>
        refine ⟨.writer .disconnected, ⟨by rintro ⟨⟩, by rintro ⟨⟩⟩, ?_⟩
        simp only [Pipeline.step, writerMay, hpackets, List.isEmpty_nil, hencoder, Bool.and_self,
          if_true, stepWriter, Writer.step, hwriter, Option.map_some, Option.isSome_some]
  | exited result =>
    cases hencoder : p.encoder.hasExited with
    | false =>
      cases result with
      | error => exact h.exists_encoder_step hfits t hencoder (Or.inr hwriter)
      | ok =>
        rw [(h.writer_exit hwriter).2] at hencoder
        cases hencoder
    | true =>
      cases hreader : p.reader.hasExited with
      | false => exact h.exists_reader_step hfits t hreader (Or.inr hencoder)
      | true =>
        -- all of them have exited, and `main` has joined them
        unfold Reader.hasExited at hreader
        unfold Encoder.hasExited at hencoder
        unfold exit at hexit
        split at hreader
        · split at hencoder
          · rename_i rresult hr _ he
            rw [hr, he, hwriter] at hexit
            cases rresult <;> cases hexit
          · cases hencoder
        · cases hreader

/-- **Every run comes to an end.** A run is not longer than its input, its noops, its naps and
its interrupted reads allow. From wherever it stands, a thread can move on until `main` returns,
with channels of any capacity, without another failure and with the clock at a standstill; it
returns `Ok(())` unless a thread has failed already. -/
theorem pipeline_completes (hfits : setup.args.Fits k)
    (henc : setup.enc.Laws code setup.args.oti k) {acts : List PipelineAction}
    (hrun : Machine.run (Pipeline.step setup) (init setup stdin rng) acts = some p) :
    acts.length ≤ (setup.args.blockCost k + 1) * (2 * stdin.length + 2) + 2 +
      (acts.map cost).sum ∧
    ∀ t, ∃ more p', Machine.run (Pipeline.step setup) p more = some p' ∧
      (∀ a ∈ more, Smooth t a) ∧ p'.exit.isSome ∧ (¬ p.Failed → p'.exit = some .ok) := by
  refine ⟨(Nat.le_add_right _ _).trans (length_run_le hfits henc hrun), fun t => ?_⟩
  let final (s : Pipeline E R) : Prop := s.exit.isSome ∧ (¬ p.Failed → s.exit = some .ok)
  have hstep : ∀ s : Pipeline E R, Inv setup stdin rng s ∧ (s.Failed → p.Failed) → ¬ final s →
      ∃ a s', Smooth t a ∧ Pipeline.step setup s a = some s' ∧
        (Inv setup stdin rng s' ∧ (s'.Failed → p.Failed)) ∧
          s'.left setup.args k < s.left setup.args k := by
    rintro s ⟨hinv, hback⟩ hnot
    have hexit : s.exit = none := by
      by_contra hsome
      obtain ⟨result, hresult⟩ := Option.ne_none_iff_exists'.mp hsome
      refine hnot ⟨Option.isSome_iff_exists.mpr ⟨result, hresult⟩, fun hgood => ?_⟩
      cases result with
      | ok => exact hresult
      | error => exact absurd (hback (failed_of_exit hresult)) hgood
    obtain ⟨a, ha, hsome⟩ := hinv.exists_step hfits t hexit
    obtain ⟨s', hs'⟩ := Option.isSome_iff_exists.mp hsome
    obtain ⟨hfree, hcalm⟩ := cost_of_smooth ha
    have hless := Inv.left_step hfits henc hs' (hinv.step hs')
    rw [hfree] at hless
    refine ⟨a, s', ha, hs', ⟨hinv.step hs', fun hfailed => ?_⟩, hless⟩
    rw [hinv.failed_step hs', hcalm] at hfailed
    exact hback (hfailed.resolve_right (by rintro ⟨⟩))
  obtain ⟨more, p', hmore, hsmooth, hfinal⟩ :=
    Machine.exists_run_of_measure hstep ⟨Reachable.inv ⟨acts, hrun⟩, id⟩
  exact ⟨more, p', hmore, hsmooth, hfinal⟩

/-- After a noop, with part of the only block read. -/
theorem pipeline_completes_short : ∃ p : Pipeline Reference.Encoder Unit,
    Machine.run (Pipeline.step shortSetup) (init shortSetup Reference.stdin ())
        (shortRun.take 2) = some p ∧
      ∀ t, ∃ more p', Machine.run (Pipeline.step shortSetup) p more = some p' ∧
        (∀ a ∈ more, Smooth t a) ∧ p'.exit = some .ok := by
  have hobs : (Machine.run (Pipeline.step shortSetup) (init shortSetup Reference.stdin ())
      (shortRun.take 2)).map (fun p => (p.reader.point, p.writer.point)) =
        some (.reading, .writing none) := by
    decide +kernel
  obtain ⟨p, hrun, hp⟩ := Option.map_eq_some_iff.mp hobs
  simp only [Prod.mk.injEq] at hp
  refine ⟨p, hrun, fun t => ?_⟩
  have hfits : shortSetup.args.Fits 1 := Reference.params_fits
  obtain ⟨more, p', hmore, hsmooth, -, hend⟩ :=
    (pipeline_completes hfits (Reference.encoder_laws rfl) hrun).2 t
  refine ⟨more, p', hmore, hsmooth, hend ?_⟩
  rintro (hfailed | hfailed)
  · rw [hp.1] at hfailed
    cases hfailed
  · rw [hp.2] at hfailed
    cases hfailed

end Pipeline

end RaptorqTs.Enc
