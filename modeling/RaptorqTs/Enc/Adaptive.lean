import RaptorqTs.Enc.InBand
import RaptorqTs.Common.Reference

/-!
# Adaptive FEC

The encoder with adaptive FEC refines the encoder without it: leave out the extra repair
symbols, and what is left is what the plain encoder sends for the same blocks.
-/

namespace RaptorqTs.Enc

/-- The same arguments without adaptive FEC. -/
def Params.plain (args : Params) : Params := { args with adaptive := false }

lemma Params.plain_minting (args : Params) : args.plain.minting = false := rfl

namespace Encoder

variable {E R : Type} {enc : SourceBlockEncoder E} {coin : R → Bool × R} {args : Params}
  {S : Stream} {s s' t : Encoder E R}

/-- The encoder is not inside the sending loop of `emit_block`. -/
def AtRest (s : Encoder E R) : Prop :=
  match s.point with
  | .emitting _ _ => False
  | _ => True

lemma Serves.plain (hs : Serves enc args S) : Serves enc args.plain S :=
  ⟨hs.laws, hs.oti_eq, hs.block_length, hs.esi_le⟩

/-! ## Outside the sending loop -/

/-- The in-band packets sent are those of the first blocks, as far as they go. -/
lemma InBandInv.filter_initial (h : InBandInv enc args S s) :
    s.sent.filter (inBand args S) <+: inBandUpTo enc args S s.received.length := by
  have hat := h.at_point
  unfold InBandAt at hat
  cases hpoint : s.point with
  | receiving =>
    simp only [hpoint] at hat
    rw [hat]
  | emitting encoder packets =>
    simp only [hpoint] at hat
    rw [← hat]
    exact List.prefix_append _ _
  | sendingExtra packet l =>
    simp only [hpoint] at hat
    rw [hat.1]
  | exited =>
    simp only [hpoint] at hat
    rw [hat]

lemma InBandInv.filter_atRest (h : InBandInv enc args S s) (hrest : s.AtRest) :
    s.sent.filter (inBand args S) = inBandUpTo enc args S s.received.length := by
  have hat := h.at_point
  unfold InBandAt at hat
  unfold AtRest at hrest
  cases hpoint : s.point with
  | receiving =>
    simp only [hpoint] at hat
    exact hat
  | emitting encoder packets =>
    simp only [hpoint] at hrest
  | sendingExtra packet l =>
    simp only [hpoint] at hat
    exact hat.1
  | exited =>
    simp only [hpoint] at hat
    exact hat

/-- After a cut between blocks only the blocks that follow are sent in-band. -/
lemma InBandInv.after_cut (h : InBandInv enc args S s) {pre post : List Sent}
    (hcut : s.sent = pre ++ post) {n : ℕ}
    (hpre : pre.filter (inBand args S) = inBandUpTo enc args S n) :
    ∀ y ∈ post, inBand args S y = true → n ≤ y.block := by
  intro y hy hyin
  have hy' : y ∈ post.filter (inBand args S) := List.mem_filter.mpr ⟨hy, hyin⟩
  obtain ⟨rest, hrest⟩ := h.filter_initial
  rw [hcut, List.filter_append, hpre, List.append_assoc] at hrest
  by_cases hn : n ≤ s.received.length
  · obtain ⟨m, hm⟩ := Nat.exists_eq_add_of_le hn
    rw [hm, inBandUpTo_add, List.append_cancel_left_eq] at hrest
    -- what follows in-band is from the blocks that follow
    have hmem : y ∈ (List.range m).flatMap fun i => inBandOf enc args S (n + i) := by
      rw [← hrest]
      exact List.mem_append_left _ hy'
    obtain ⟨i, -, hi⟩ := List.mem_flatMap.mp hmem
    rw [(block_of_mem_ofBlock hi).1]
    omega
  · -- all in-band packets stand before the cut
    obtain ⟨m, hm⟩ := Nat.exists_eq_add_of_le (Nat.le_of_lt (not_le.mp hn))
    rw [hm, inBandUpTo_add, List.append_assoc] at hrest
    have hnil := List.append_right_eq_self.mp hrest
    rw [List.append_eq_nil_iff, List.append_eq_nil_iff] at hnil
    rw [hnil.2.1] at hy'
    cases hy'

/-! ## Simulation -/

/-- The point of the plain encoder: it has nothing to do with extra repair symbols. -/
def plainPoint : EncoderPoint E → EncoderPoint E
  | .sendingExtra _ _ => .receiving
  | point => point

/-- The plain encoder `t` has done the same, but for the extra repair symbols. -/
structure Plainly (args : Params) (S : Stream) (s t : Encoder E R) : Prop where
  point : t.point = plainPoint s.point
  sbn : t.sbn = s.sbn
  received : t.received = s.received
  sent : t.sent = s.sent.filter (inBand args S)

/-- One step is matched by one step of the plain encoder, or by none in an idle slot. -/
lemma Plainly.step (hs : Serves enc args S) (h : Plainly args S s t) (hinv : InBandInv enc args S s)
    {a : EncoderAction} (halive : a ≠ .dropped) (hstep : step enc coin args s a = some s') :
    Plainly args S s' t ∨ ∃ t', Encoder.step enc coin args.plain t a = some t' ∧
      Plainly args S s' t' := by
  obtain ⟨hpt, hsbn, hrecv, hsent⟩ := h
  cases step_moves hstep with
  | @recv block hpoint =>
    rw [hpoint] at hpt
    refine Or.inr ⟨t.onRecv enc args.plain block, ?_, ?_⟩
    · unfold Encoder.step
      rw [hpt]
      rfl
    · refine ⟨?_, hsbn, ?_, hsent⟩
      · show EncoderPoint.emitting _ _ = EncoderPoint.emitting _ _
        rw [hsbn]
        rfl
      · show t.received ++ [_] = s.received ++ [_]
        rw [hrecv]
  | nap hpoint _ _ =>
    refine Or.inl ⟨?_, hsbn, hrecv, hsent⟩
    rw [hpt, hpoint]
  | mint hpoint _ _ _ =>
    refine Or.inl ⟨?_, hsbn, hrecv, hsent⟩
    rw [hpt, hpoint]
    show EncoderPoint.receiving = plainPoint _
    cases (enc.repairPackets _ _ 1).getLast? <;> rfl
  | @send encoder packets packet packets' hpoint hnext =>
    obtain ⟨hin, -⟩ := hinv.send hs hpoint hnext
    rw [hpoint] at hpt
    refine Or.inr ⟨{ t with
      point := .emitting encoder packets'
      sent := t.sent ++ [⟨packet, t.received.length - 1⟩] }, ?_, rfl, hsbn, hrecv, ?_⟩
    · unfold Encoder.step
      rw [hpt]
      simp only [plainPoint, hnext]
    · show t.sent ++ [_] = (s.sent ++ [_]).filter (inBand args S)
      rw [hsent, hrecv, List.filter_append, List.filter_cons_of_pos hin, List.filter_nil]
  | @finish encoder packets created clock hpoint hnext =>
    rw [hpoint] at hpt
    refine Or.inr ⟨t.onFinish args.plain encoder created clock, ?_, rfl, ?_, hrecv, hsent⟩
    · unfold Encoder.step
      rw [hpt]
      simp only [plainPoint, hnext]
    · show t.sbn + 1 = s.sbn + 1
      rw [hsbn]
  | @sendExtra packet l hpoint =>
    obtain ⟨hout, -⟩ := hinv.sendExtra hpoint
    refine Or.inl ⟨?_, hsbn, hrecv, ?_⟩
    · rw [hpt, hpoint]
      rfl
    · show t.sent = (s.sent ++ [_]).filter (inBand args S)
      rw [hsent, List.filter_append, List.filter_cons_of_neg (by simp [hout]), List.filter_nil,
        List.append_nil]
  | exit ha =>
    obtain rfl := ha.resolve_right halive
    obtain ⟨hpoint, -⟩ := step_disconnected hstep
    rw [hpoint] at hpt
    refine Or.inr ⟨{ t with point := .exited }, ?_, rfl, hsbn, hrecv, hsent⟩
    unfold Encoder.step
    rw [hpt]
    rfl

/-- **Simulation.** Every run with a writer is matched by a run of the plain encoder. -/
theorem exists_plain_run (hs : Serves enc args S) {rng : R} {acts : List EncoderAction}
    (hrun : Machine.run (step enc coin args) (init rng) acts = some s)
    (halive : ∀ a ∈ acts, a ≠ .dropped) (hreads : Reads S s) :
    ∃ acts' t, Machine.run (step enc coin args.plain) (init rng) acts' = some t ∧
      (∀ a ∈ acts', a ≠ .dropped) ∧ Plainly args S s t := by
  refine alive_induction hs (P := fun _ s =>
    ∃ acts' t, Machine.run (step enc coin args.plain) (init rng) acts' = some t ∧
      (∀ a ∈ acts', a ≠ .dropped) ∧ Plainly args S s t) ?_ ?_ hrun halive hreads
  · refine ⟨[], init rng, rfl, fun a ha => ?_, rfl, rfl, rfl, rfl⟩
    cases ha
  · rintro acts s a s' hrun halive hreads - ⟨acts', t, hrun', halive', hplain⟩ ha hstep -
    have hinv := run_inBandInv hs hrun halive hreads
    rcases hplain.step hs hinv ha hstep with hsame | ⟨t', hstep', hnext⟩
    · exact ⟨acts', t, hrun', halive', hsame⟩
    · refine ⟨acts' ++ [a], t', Machine.run_concat_eq_some.mpr ⟨t, hrun', hstep'⟩, ?_, hnext⟩
      intro b hb
      rcases List.mem_append.mp hb with hold | hnew
      · exact halive' b hold
      · rw [List.mem_singleton.mp hnew]
        exact ha

/-! ## The refinement -/

/-- **Adaptive FEC refines the plain encoder.** In every run with a writer, the packets sent
without the extra repair symbols are those of the plain encoder for the same blocks; each
extra repair symbol stands between blocks, after those of its own; and once a block has been
sent, no packet of a block 64 or more before it follows. -/
theorem adaptive_refines_plain (hs : Serves enc args S) (hk : 1 ≤ S.k) {rng : R}
    {acts : List EncoderAction}
    (hrun : Machine.run (step enc coin args) (init rng) acts = some s)
    (halive : ∀ a ∈ acts, a ≠ .dropped) (hreads : Reads S s) :
    (∃ acts' t, Machine.run (step enc coin args.plain) (init rng) acts' = some t ∧
      (∀ a ∈ acts', a ≠ .dropped) ∧ t.received = s.received ∧ (t.AtRest ↔ s.AtRest) ∧
      t.sent = s.sent.filter (inBand args S)) ∧
    (∀ acts' t, Machine.run (step enc coin args.plain) (init rng) acts' = some t →
      (∀ a ∈ acts', a ≠ .dropped) → t.received = s.received → t.AtRest → s.AtRest →
        t.sent = s.sent.filter (inBand args S)) ∧
    (∀ x ∈ s.sent, x.packet.payloadId.sourceBlockNumber.toNat = x.block % 256) ∧
    (∀ pre x post, s.sent = pre ++ x :: post → inBand args S x = false →
      ∃ n, x.block < n ∧ pre.filter (inBand args S) = inBandUpTo enc args S n ∧
        ∀ y ∈ post, inBand args S y = true → n ≤ y.block) ∧
    (∀ pre post m, s.sent = pre ++ post → (∀ x ∈ inBandOf enc args S m, x ∈ pre) →
      ∀ y ∈ post, m < y.block + 64) := by
  have hinv : Inv enc args S s := Reachable.inv hs ⟨acts, hrun⟩ hreads
  have hband : InBandInv enc args S s := run_inBandInv hs hrun halive hreads
  refine ⟨?_, ?_, ?_, ?_, ?_⟩
  · obtain ⟨acts', t, hrun', halive', hplain⟩ := exists_plain_run hs hrun halive hreads
    refine ⟨acts', t, hrun', halive', hplain.received, ?_, hplain.sent⟩
    unfold AtRest
    rw [hplain.point]
    cases s.point <;> rfl
  · intro acts' t hrun' halive' hreceived htrest hsrest
    have hreads' : Reads S t := by
      unfold Reads
      rw [hreceived]
      exact hreads
    have ht : InBandInv enc args.plain S t := run_inBandInv hs.plain hrun' halive' hreads'
    have hall : t.sent.filter (inBand args.plain S) = t.sent :=
      List.filter_eq_self.mpr (ht.plain args.plain_minting)
    rw [hband.filter_atRest hsrest, ← hreceived, ← hall]
    exact ht.filter_atRest htrest
  · intro x hx
    rw [(hinv.mints x hx).1.1]
    exact toNat_sbnOf x.block
  · intro pre x post hcut hx
    obtain ⟨n, hn, hpre⟩ := hband.extras pre x post hcut hx
    have hcut' : s.sent = (pre ++ [x]) ++ post := by
      rw [hcut]
      simp
    refine ⟨n, hn, hpre, hband.after_cut hcut' ?_⟩
    rw [List.filter_append, List.filter_cons_of_neg (by simp [hx]), List.filter_nil,
      List.append_nil, hpre]
  · intro pre post m hcut hall y hy
    -- the block has a source packet, which is in-band
    obtain ⟨x, hx⟩ : ∃ x, x ∈ inBandOf enc args S m := by
      refine ⟨⟨S.packet ⟨m, 0⟩, m⟩, List.mem_map.mpr ⟨_, ?_, rfl⟩⟩
      rw [Interleave.mem_toList, Interleave.rest, (blockPackets_of_serves hs m).1]
      exact List.mem_append_left _ (List.mem_map.mpr ⟨0, List.mem_range.mpr hk, rfl⟩)
    have hlag := hinv.lag
    rw [hcut, List.pairwise_append] at hlag
    have := hlag.2.2 x (hall x hx) y hy
    rwa [(block_of_mem_ofBlock hx).1] at this

/-! ## Idle slots over the reference instance -/

/-- Blocks of two symbols with two repair symbols in-band, and at most one more. -/
def oneExtra : Params := ⟨Reference.pairStream.oti, 2, 3, true, 700000000⟩

/-- A block is sent in-band. -/
def emitRun (block : Bytes) : List EncoderAction :=
  .recv block :: (List.replicate 4 .send ++ [.finish 0 fun _ => 0])

/-- Two blocks are sent, two idle slots go to extra repair symbols, and a third block is sent. -/
def idleRun : List EncoderAction :=
  emitRun (Reference.pairStream.block 0) ++ emitRun (Reference.pairStream.block 1) ++
    [.empty fun _ => 0, .send, .empty fun _ => 0, .send] ++
      emitRun (Reference.pairStream.block 2)

/-- The blocks and the ESIs of the packets sent in it. -/
def idleOrigins : List Origin :=
  [⟨0, 0⟩, ⟨0, 2⟩, ⟨0, 1⟩, ⟨0, 3⟩, ⟨1, 0⟩, ⟨1, 2⟩, ⟨1, 1⟩, ⟨1, 3⟩, ⟨0, 4⟩, ⟨1, 4⟩, ⟨2, 0⟩,
    ⟨2, 2⟩, ⟨2, 1⟩, ⟨2, 3⟩]

def idleSent : List Sent := idleOrigins.map fun o => ⟨Reference.pairStream.packet o, o.block⟩

lemma oneExtra_serves : Serves Reference.encoder oneExtra Reference.pairStream where
  laws := Reference.encoder_laws rfl
  oti_eq := rfl
  block_length := Reference.pairStream_block_length
  esi_le := by decide

lemma exists_idleRun : ∃ s : Encoder Reference.Encoder Xorshift64,
    Machine.run (step Reference.encoder Xorshift64.coin oneExtra) (init (.new 1)) idleRun
        = some s ∧
      (∀ a ∈ idleRun, a ≠ .dropped) ∧ Reads Reference.pairStream s ∧
      s.received = (List.range 3).map Reference.pairStream.block ∧ s.sent = idleSent := by
  have hobs : (Machine.run (step Reference.encoder Xorshift64.coin oneExtra) (init (.new 1))
      idleRun).map (fun s => (s.received, s.sent)) =
        some ((List.range 3).map Reference.pairStream.block, idleSent) := by
    decide +kernel
  obtain ⟨s, hrun, hs⟩ := Option.map_eq_some_iff.mp hobs
  obtain ⟨hreceived, hsent⟩ := Prod.mk.inj hs
  refine ⟨s, hrun, ?_, ?_, hreceived, hsent⟩
  · simp [idleRun, emitRun]
  · intro i b hb
    rw [hreceived, List.getElem?_map, Option.map_eq_some_iff] at hb
    obtain ⟨l, hl, rfl⟩ := hb
    obtain ⟨_, hil⟩ := List.getElem?_eq_some_iff.mp hl
    rw [← hil, List.getElem_range]

/-- The extra repair symbols are all that is left out. -/
theorem adaptive_refines_plain_idle : ∃ s : Encoder Reference.Encoder Xorshift64,
    Machine.run (step Reference.encoder Xorshift64.coin oneExtra) (init (.new 1)) idleRun
        = some s ∧
      s.sent = idleSent ∧
      ∃ acts' t, Machine.run (step Reference.encoder Xorshift64.coin oneExtra.plain)
          (init (.new 1)) acts' = some t ∧
        t.sent = idleSent.filter (inBand oneExtra Reference.pairStream) := by
  obtain ⟨s, hrun, halive, hreads, -, hsent⟩ := exists_idleRun
  obtain ⟨⟨acts', t, hrun', -, -, -, ht⟩, -⟩ :=
    adaptive_refines_plain oneExtra_serves (by decide) hrun halive hreads
  refine ⟨s, hrun, hsent, acts', t, hrun', ?_⟩
  rw [ht, hsent]

end Encoder

end RaptorqTs.Enc
