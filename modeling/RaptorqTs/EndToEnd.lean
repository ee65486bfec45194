import RaptorqTs.Dec.Recovery
import RaptorqTs.Enc.Adaptive
import RaptorqTs.Enc.Numbering

/-!
# From the encoder's input to the decoder's output

The threads of the encoder, the wire and the decoder, put together. The channels between the
threads are first in, first out, and the wire loses any frames it likes; so what the decoder
is delivered are packets of the stream, in the order of the encoder's sends, with the lag of
the repair ring at most.
-/

namespace RaptorqTs

/-! ## The frames on the wire -/

section Frames

variable {D : Type} {env : Env D} {S : Stream} {f : WireFrame}

/-- A frame is parsed as what the writer has built it around. -/
lemma WireFrame.Built.parsed (hS : S.Wf) (hcodec : env.wire.Laws) (hpid : env.args.pid < 0x2000)
    (hf : f.Built env.wire env.args.pid S) (hesi : ∀ o ∈ f.origin, o.esi < 2 ^ 24) :
    dataFrame env (.frame f.bytes) = f.origin.map fun o => (S.oti, S.packet o) := by
  obtain ⟨cc, out, hout, hbytes⟩ := hf
  unfold dataFrame
  cases horigin : f.origin with
  | none =>
    simp only [horigin] at hbytes
    simp only [hbytes, parsePacket_buildNoopPacket _ _ _ hout, if_pos hpid]
    rfl
  | some o =>
    simp only [horigin] at hbytes
    have hrange : S.oti.InRange := blockOti_inRange hS.k_le
    have hid : (S.packet o).payloadId.encodingSymbolId < 2 ^ 24 := hesi o horigin
    simp only [hbytes, parsePacket_buildDataPacket env.wire env.args.pid cc hcodec hpid hout hrange
      hid (hS.packet_length o)]
    rfl

/-- With a PID of more than 13 bits no frame is parsed. -/
lemma WireFrame.Built.rejected (hS : S.Wf) (hpid : ¬ env.args.pid < 0x2000)
    (hf : f.Built env.wire env.args.pid S) : dataFrame env (.frame f.bytes) = none := by
  obtain ⟨cc, out, hout, hbytes⟩ := hf
  unfold dataFrame
  cases horigin : f.origin with
  | none =>
    simp only [horigin] at hbytes
    simp only [hbytes, parsePacket_buildNoopPacket _ _ _ hout, if_neg hpid]
  | some o =>
    simp only [horigin] at hbytes
    simp only [hbytes,
      parsePacket_buildDataPacket_wide env.wire env.args.pid cc hpid hout (hS.packet_length o)]

/-- A frame as the decoder sees it: with a PID of more than 13 bits it carries nothing. -/
def WireFrame.seen (pid : UInt16) (f : WireFrame) : WireFrame :=
  if pid < 0x2000 then f else { f with origin := none }

lemma WireFrame.seen_bytes (pid : UInt16) (f : WireFrame) : (f.seen pid).bytes = f.bytes := by
  unfold seen
  split <;> rfl

lemma map_seen_of_lt {pid : UInt16} (h : pid < 0x2000) (frames : List WireFrame) :
    frames.map (WireFrame.seen pid) = frames := by
  rw [List.map_congr_left fun f _ => show f.seen pid = f from if_pos h, List.map_id']

lemma origins_map_seen {pid : UInt16} (h : ¬ pid < 0x2000) (frames : List WireFrame) :
    origins (frames.map (WireFrame.seen pid)) = [] := by
  unfold origins
  rw [List.filterMap_eq_nil_iff]
  intro f hf
  obtain ⟨g, -, rfl⟩ := List.mem_map.mp hf
  rw [WireFrame.seen, if_neg h]

lemma parses_seen (hS : S.Wf) (hcodec : env.wire.Laws) {frames : List WireFrame}
    (hbuilt : ∀ f ∈ frames, f.Built env.wire env.args.pid S)
    (hesi : ∀ o ∈ origins frames, o.esi < 2 ^ 24) :
    Parses env S (frames.map (WireFrame.seen env.args.pid)) := by
  intro f hf
  obtain ⟨g, hg, rfl⟩ := List.mem_map.mp hf
  rw [WireFrame.seen_bytes]
  unfold WireFrame.seen
  by_cases hpid : env.args.pid < 0x2000
  · rw [if_pos hpid]
    apply (hbuilt g hg).parsed hS hcodec hpid
    intro o ho
    exact hesi o (List.mem_filterMap.mpr ⟨g, hg, ho⟩)
  · rw [if_neg hpid]
    exact (hbuilt g hg).rejected hS hpid

lemma FreshRun.seen {now : Instant} {frames : List WireFrame} {acts : List Action} {c : Conf D}
    (h : FreshRun env now frames acts c) (pid : UInt16) :
    FreshRun env now (frames.map (WireFrame.seen pid)) acts c where
  frames_eq := by
    rw [h.frames_eq, List.map_map]
    exact List.map_congr_left fun f _ => (f.seen_bytes pid).symm
  fresh := h.fresh
  run_eq := h.run_eq

end Frames

/-! ## The encoder -/

namespace Enc

/-- The threads of the encoder. -/
structure Threads (E R : Type) where
  reader : Reader
  encoder : Encoder E R
  writer : Writer

/-- The threads have run on `stdin`: the reader to its end, the other two as far as they like.
A channel hands on what was sent into it, in order. -/
structure Threads.Running {E R : Type} (enc : SourceBlockEncoder E) (coin : R → Bool × R)
    (codec : WireCodec) (pid : UInt16) (args : Params) (rng : R) (stdin : Bytes)
    (t : Threads E R) : Prop where
  reader : t.reader.Finished args.oti.transferLength stdin
  encoder : Encoder.Reachable enc coin args rng t.encoder
  writer : Writer.Reachable codec pid args.oti t.writer
  blocks : t.encoder.received <+: t.reader.sent
  packets : t.writer.received <+: t.encoder.sent

/-- The arguments are those of an encoder with blocks of `k` symbols, within the limits of the
crate. -/
structure Params.Fits (args : Params) (k : ℕ) : Prop where
  oti_eq : args.oti = blockOti (k * symbolSize) symbolSize
  k_pos : 1 ≤ k
  k_le : k ≤ maxSourceSymbolsPerBlock
  esi_le : k + max args.baselineRepair args.maxRepair ≤ 2 ^ 24

/-- The stream of some blocks of `k` symbols; blocks of zeros follow. -/
def streamOf (code : FountainCode) (k : ℕ) (blocks : List Bytes) : Stream where
  code := code
  k := k
  block l := (blocks[l]?).getD (List.replicate (k * symbolSize) 0)

lemma length_streamOf_block (code : FountainCode) {k : ℕ} {blocks : List Bytes}
    (hblocks : ∀ b ∈ blocks, b.length = k * symbolSize) (l : ℕ) :
    ((streamOf code k blocks).block l).length = k * symbolSize := by
  show ((blocks[l]?).getD (List.replicate (k * symbolSize) 0)).length = k * symbolSize
  cases hl : blocks[l]? with
  | none => exact List.length_replicate ..
  | some b => exact hblocks b (List.mem_of_getElem? hl)

lemma streamOf_wf {code : FountainCode} {k : ℕ} {blocks : List Bytes}
    (hcode : code.Laws symbolSize) (hk : 1 ≤ k) (hle : k ≤ maxSourceSymbolsPerBlock)
    (hblocks : ∀ b ∈ blocks, b.length = k * symbolSize) : (streamOf code k blocks).Wf where
  code_laws := hcode
  k_pos := hk
  k_le := hle
  block_length := length_streamOf_block code hblocks

/-- The blocks of the stream are those it was made of. -/
lemma range_map_streamOf (code : FountainCode) (k : ℕ) (blocks : List Bytes) :
    (List.range blocks.length).map (streamOf code k blocks).block = blocks := by
  apply List.ext_getElem?
  intro l
  rw [List.getElem?_map]
  by_cases hl : l < blocks.length
  · rw [List.getElem?_range hl, List.getElem?_eq_getElem hl]
    show some ((blocks[l]?).getD _) = some blocks[l]
    rw [List.getElem?_eq_getElem hl]
    rfl
  · rw [List.getElem?_eq_none (by simpa using hl), List.getElem?_eq_none (by omega)]
    rfl

section Running

variable {E R : Type} {enc : SourceBlockEncoder E} {coin : R → Bool × R} {codec : WireCodec}
  {pid : UInt16} {args : Params} {rng : R} {stdin : Bytes} {t : Threads E R}
  {code : FountainCode} {k : ℕ}

lemma serves_streamOf (hfits : args.Fits k) (henc : enc.Laws code args.oti k) {blocks : List Bytes}
    (hblocks : ∀ b ∈ blocks, b.length = k * symbolSize) :
    Encoder.Serves enc args (streamOf code k blocks) := by
  rw [hfits.oti_eq] at henc
  exact ⟨henc, hfits.oti_eq, length_streamOf_block code hblocks, hfits.esi_le⟩

lemma reads_streamOf {blocks : List Bytes} {s : Encoder E R} (h : s.received <+: blocks) :
    Encoder.Reads (streamOf code k blocks) s := by
  intro i b hb
  obtain ⟨more, hmore⟩ := h
  show (blocks[i]?).getD _ = b
  rw [← hmore, List.getElem?_append_left (List.getElem?_eq_some_iff.mp hb).1, hb]
  rfl

lemma Threads.Running.sent (h : t.Running enc coin codec pid args rng stdin) (hfits : args.Fits k) :
    (∀ b ∈ t.reader.sent, b.length = k * symbolSize) ∧
      t.reader.sent.flatten = padded (k * symbolSize) stdin ∧
      t.reader.sent.length = numBlocks (k * symbolSize) stdin := by
  have hpos : 0 < k * symbolSize := Nat.mul_pos hfits.k_pos symbolSize_pos
  have hreader := h.reader
  rw [hfits.oti_eq] at hreader
  obtain ⟨hlength, hflatten⟩ := hreader.sent_flatten hpos
  exact ⟨hlength, hflatten, numBlocks_of_flatten hpos hlength hflatten⟩

/-- What the encoder has sent, the blocks being those the reader has cut. -/
lemma Threads.Running.encoderInv (h : t.Running enc coin codec pid args rng stdin)
    (hfits : args.Fits k) (henc : enc.Laws code args.oti k) :
    Encoder.Inv enc args (streamOf code k t.reader.sent) t.encoder :=
  h.encoder.inv (serves_streamOf hfits henc (h.sent hfits).1) (reads_streamOf h.blocks)

/-- What the writer has written, the packets being those the encoder has sent. -/
lemma Threads.Running.writerInv (h : t.Running enc coin codec pid args rng stdin)
    (hfits : args.Fits k) (hcode : code.Laws symbolSize) (henc : enc.Laws code args.oti k) :
    Writer.Inv codec pid (streamOf code k t.reader.sent) t.writer := by
  have hwriter := h.writer
  rw [hfits.oti_eq] at hwriter
  apply Writer.Reachable.inv
    (streamOf_wf hcode hfits.k_pos hfits.k_le (h.sent hfits).1) hwriter
  intro x hx
  exact ((h.encoderInv hfits henc).mints x (h.packets.subset hx)).1.1

/-- **What can be delivered.** The packets on the wire, and so those that are not lost, are
packets of the blocks cut, none of them 64 or more blocks behind another. -/
theorem Threads.Running.delivery (h : t.Running enc coin codec pid args rng stdin)
    (hfits : args.Fits k) (hcode : code.Laws symbolSize) (henc : enc.Laws code args.oti k)
    {frames : List WireFrame} (hlost : frames.Sublist t.writer.wire) {maxInFlight : ℕ}
    (htime : InTime code k maxInFlight (origins frames)) :
    Delivery code k maxInFlight (numBlocks (k * symbolSize) stdin) (origins frames) := by
  have hinv := h.encoderInv hfits henc
  -- the wire, the writer and both channels keep the order of the sends
  have hsent : (origins frames).Sublist (t.encoder.sent.map Sent.origin) := by
    refine (hlost.filterMap WireFrame.origin).trans ?_
    exact ((h.writerInv hfits hcode henc).origins_initial.trans (h.packets.map _)).sublist
  have hmem : ∀ o ∈ origins frames, ∃ x ∈ t.encoder.sent, x.origin = o := fun o ho =>
    List.mem_map.mp (hsent.subset ho)
  refine ⟨htime, fun o ho => ?_, fun o ho => ?_, ?_⟩
  · obtain ⟨x, hx, rfl⟩ := hmem o ho
    have hlt := (hinv.mints x hx).2
    have hle := h.blocks.length_le
    rw [(h.sent hfits).2.2] at hle
    exact lt_of_lt_of_le hlt hle
  · obtain ⟨x, hx, rfl⟩ := hmem o ho
    exact (hinv.mints x hx).1.2
  · refine List.Pairwise.sublist hsent (List.pairwise_map.mpr (hinv.lag.imp ?_))
    intro x y hxy
    show x.block < y.block + 128
    unfold maxRing at hxy
    omega

end Running

end Enc

/-! ## Recovery from end to end -/

/-- What is assumed of the FEC crate: its codec and both of its sides are those of one code. -/
structure CrateLaws {E D : Type} (enc : SourceBlockEncoder E) (env : Env D) (code : FountainCode)
    (oti : ObjectTransmissionInformation) (k : ℕ) : Prop where
  code_laws : code.Laws symbolSize
  wire_laws : env.wire.Laws
  encoder_laws : enc.Laws code oti k
  decoder_laws : env.dec.Laws code oti k

/-- The next step of the decoder is enabled: a pass of the drain loop at any time, or the next
frame at any time, and the end of the input. -/
def NotStuck {D : Type} (env : Env D) (rest : List WireFrame) (c : Conf D) : Prop :=
  match c.point with
  | .drain => ∀ clk, (step env c (.pass clk)).isSome
  | .recv => (∀ f ∈ rest.head?, ∀ now, (step env c (.event now (.frame f.bytes))).isSome) ∧
      (step env c .disconnect).isSome
  | .closed => True

open Enc

namespace Reference

/-! ## Runs of all threads -/

lemma crateLaws {env : Env Decoder} (hwire : env.wire = codec) (hdec : env.dec = decoder) {k : ℕ}
    (hk : 1 ≤ k) : CrateLaws encoder env code (blockOti (k * symbolSize) symbolSize) k where
  code_laws := code_laws
  wire_laws := by
    rw [hwire]
    exact codec_laws
  encoder_laws := encoder_laws rfl
  decoder_laws := by
    rw [hdec]
    exact decoder_laws hk rfl

/-- Each frame is delivered at the time 0, with some passes of the drain loop behind it, and then
the input ends. -/
def deliver : List (WireFrame × ℕ) → List Action
  | [] => [.disconnect]
  | (f, passes) :: rest =>
    .event 0 (.frame f.bytes) :: (List.replicate passes (.pass (Clock.at 0)) ++ deliver rest)

lemma guard_of_mem_deliver {plan : List (WireFrame × ℕ)} {a : Action} (ha : a ∈ deliver plan)
    {clk : Clock} (hclk : a = .pass clk) : clk.guard = 0 := by
  subst hclk
  induction plan with
  | nil => simp [deliver] at ha
  | cons x plan ih =>
    rcases List.mem_cons.mp ha with heq | ha
    · cases heq
    rcases List.mem_append.mp ha with hpass | hrest
    · obtain rfl := Action.pass.inj (List.eq_of_mem_replicate hpass)
      rfl
    · exact ih hrest

lemma frameBytes_deliver (plan : List (WireFrame × ℕ)) :
    (deliver plan).filterMap frameBytes = (plan.map Prod.fst).map WireFrame.bytes := by
  induction plan with
  | nil => rfl
  | cons x plan ih =>
    have hframe : frameBytes (.event 0 (.frame x.1.bytes)) = some x.1.bytes := rfl
    have hpasses : (List.replicate x.2 (Action.pass (Clock.at 0))).filterMap frameBytes = [] := by
      rw [List.filterMap_eq_nil_iff]
      intro a ha
      rw [List.eq_of_mem_replicate ha]
      rfl
    rw [deliver, List.filterMap_cons_some hframe, List.filterMap_append, hpasses, ih]
    rfl

/-- Such a run is a fresh one. -/
lemma freshRun_deliver {env : Env Decoder} (htimeout : 0 < env.timeout)
    {plan : List (WireFrame × ℕ)} {c : Conf Decoder} (h : runFrom env 0 (deliver plan) = some c) :
    FreshRun env 0 (plan.map Prod.fst) (deliver plan) c where
  frames_eq := frameBytes_deliver plan
  fresh pre a post s hcut _ := by
    have ha : a ∈ deliver plan := by rw [hcut]; simp
    exact fresh_of_guard_zero htimeout fun clk => guard_of_mem_deliver ha
  run_eq := h

/-- With the reference code a block is ready once each position has been heard. -/
lemma inTime_of_positions {k n maxInFlight : ℕ} {os : List Origin}
    (hfirst : ∀ o ∈ os.head?, o.block = 0) (hn : ∀ o ∈ os, o.block < n)
    (hheard : ∀ l < n, ∀ i < k, ∃ e ∈ esisOf l (heardInTime maxInFlight l os), e % k = i) :
    InTime code k maxInFlight os ∧ ∀ l < n, Ready code k l os := by
  refine inTime_of_heardInTime hfirst hn fun l hl i hi => ?_
  obtain ⟨e, he, hmod⟩ := hheard l hl i hi
  exact ⟨e, List.mem_toFinset.mpr he, hmod⟩

lemma timeout_pos (M : UInt64) : 0 < (env M).timeout := by
  show 0 < 700 * 1000000
  decide

/-! ## One packet -/

/-- The decoder's command line with another PID. -/
def envAt (pid : UInt16) : Env Decoder := { env 8 with args := { (env 8).args with pid := pid } }

/-- One symbol a block, without repair. -/
def params : Params where
  oti := blockOti (1 * symbolSize) symbolSize
  baselineRepair := 0
  maxRepair := 0
  adaptive := false
  horizon := 0

def stdin : Bytes := [1, 2, 3]

/-- The only packet of the input, as it is sent. -/
def sent : Sent := ⟨code.packet 0 1 (padded symbolSize stdin) 0, 0⟩

/-- The frame it is written in. -/
def sentFrame (pid : UInt16) : WireFrame where
  bytes := buildDataPacket codec pid 0 params.oti sent.packet (List.replicate tsPacketSize 0)
  origin := some ⟨0, 0⟩

/-- The decoder's run on that frame, with `passes` passes of the drain loop. -/
def shortRun (pid : UInt16) (passes : ℕ) : List Action := deliver [(sentFrame pid, passes)]

lemma params_fits : params.Fits 1 where
  oti_eq := rfl
  k_pos := le_refl _
  k_le := by decide
  esi_le := by decide

lemma exists_running (pid : UInt16) : ∃ t : Threads Encoder Unit,
    t.Running encoder (fun _ => (true, ())) codec pid params () stdin ∧
      t.writer.wire = [sentFrame pid] := by
  have hreader : Machine.run (Reader.step symbolSize) (Reader.init symbolSize stdin)
      [.read 3, .read 0, .sent] =
        some ⟨.exited .ok, [], [], 3, [padded symbolSize stdin]⟩ := by
    decide +kernel
  obtain ⟨e, he, hobs⟩ : ∃ e : Enc.Encoder Encoder Unit,
      Machine.run (Enc.Encoder.step encoder (fun _ => (true, ())) params) (Enc.Encoder.init ())
        [.recv (padded symbolSize stdin), .send] = some e ∧
        (e.received, e.sent) = ([padded symbolSize stdin], [sent]) :=
    Option.map_eq_some_iff.mp (by decide +kernel)
  obtain ⟨hreceived, hsent⟩ := Prod.mk.inj hobs
  refine ⟨⟨_, e, ⟨.polling, 1, (sentFrame pid).bytes, 1, 0, [sent], [sentFrame pid]⟩⟩,
    ⟨⟨_, hreader, by decide, rfl⟩, ⟨_, he⟩, ⟨[.recv sent, .written], rfl⟩, ?_, ?_⟩, rfl⟩
  · rw [hreceived]
  · rw [hsent]

lemma freshRun {pid : UInt16} {passes : ℕ} {c : Conf Decoder}
    (h : runFrom (envAt pid) 0 (shortRun pid passes) = some c) :
    FreshRun (envAt pid) 0 [sentFrame pid] (shortRun pid passes) c := by
  have htimeout : 0 < (envAt pid).timeout := timeout_pos 8
  unfold shortRun at h ⊢
  exact freshRun_deliver htimeout h

lemma numBlocks_stdin : numBlocks (1 * symbolSize) stdin = 1 := by decide +kernel

/-! ## Three blocks with repair -/

/-- The frames of a noop and of the packets of three blocks, two of them extra repair symbols. -/
def pairFrames (oti : ObjectTransmissionInformation) : List WireFrame :=
  (none :: Encoder.idleSent.map some).zipIdx.map fun (item, i) =>
    ⟨frameFor codec 0x100 oti (ccOf i) item (List.replicate tsPacketSize 0),
      item.map Sent.origin⟩

/-- The writer's actions on them. -/
def pairWrites : List WriterAction :=
  .empty :: .written :: Encoder.idleSent.flatMap fun x => [.recv x, .written]

def pairWire : List WireFrame := pairFrames Encoder.oneExtra.oti

/-- The frames with the given numbers. -/
def heard (ns : List ℕ) : List WireFrame := ns.filterMap fun n => pairWire[n]?

/-- The decoder's run on those frames. -/
def heardRun (ns passes : List ℕ) : List Action := deliver ((heard ns).zip passes)

lemma freshRun_heard {M : UInt64} {ns passes : List ℕ} {c : Conf Decoder}
    (hlen : (heard ns).length ≤ passes.length)
    (h : runFrom (env M) 0 (heardRun ns passes) = some c) :
    FreshRun (env M) 0 (heard ns) (heardRun ns passes) c := by
  have hrun := freshRun_deliver (timeout_pos M) h
  rwa [List.map_fst_zip hlen] at hrun

lemma oneExtra_fits : Encoder.oneExtra.Fits 2 where
  oti_eq := rfl
  k_pos := by decide
  k_le := by decide
  esi_le := by decide

lemma numBlocks_pairStdin : numBlocks (2 * symbolSize) pairStdin = 3 := by decide +kernel

lemma exists_pair_running : ∃ t : Threads Encoder Xorshift64,
    t.Running encoder Xorshift64.coin codec 0x100 Encoder.oneExtra (.new 1) pairStdin ∧
      t.writer.wire = pairWire := by
  have hreader : (Machine.run (Reader.step (2 * symbolSize))
      (Reader.init (2 * symbolSize) pairStdin)
      [.read 334, .sent, .read 334, .sent, .read 3, .read 0, .sent]).map
        (fun r => (r.point, r.sent)) =
          some (.exited .ok, (List.range 3).map pairStream.block) := by
    decide +kernel
  obtain ⟨r, hr, hrobs⟩ := Option.map_eq_some_iff.mp hreader
  obtain ⟨hexit, hrsent⟩ := Prod.mk.inj hrobs
  obtain ⟨e, he, -, -, hreceived, hsent⟩ := Encoder.exists_idleRun
  have hwriter : (Machine.run (Writer.step codec 0x100 Encoder.oneExtra.oti) Writer.init
      pairWrites).map (fun w => (w.received, w.wire)) = some (Encoder.idleSent, pairWire) := by
    decide +kernel
  obtain ⟨w, hw, hwobs⟩ := Option.map_eq_some_iff.mp hwriter
  obtain ⟨hwreceived, hwire⟩ := Prod.mk.inj hwobs
  refine ⟨⟨r, e, w⟩, ⟨⟨_, hr, by decide, hexit⟩, ⟨_, he⟩, ⟨_, hw⟩, ?_, ?_⟩, hwire⟩
  · rw [hreceived, hrsent]
  · rw [hsent, hwreceived]

end Reference

section EndToEnd

variable {E R D : Type} {enc : SourceBlockEncoder E} {coin : R → Bool × R} {env : Env D}
  {code : FountainCode} {args : Params} {rng : R} {stdin : Bytes} {t : Threads E R}
  {k : ℕ} {frames : List WireFrame}

/-- The decoder is delivered frames of the stream of the blocks cut. -/
lemma parses_of_running (hfits : args.Fits k) (hlaws : CrateLaws enc env code args.oti k)
    (ht : t.Running enc coin env.wire env.args.pid args rng stdin)
    (hlost : frames.Sublist t.writer.wire)
    (htime : InTime code k env.maxInFlight (origins frames)) :
    Parses env (streamOf code k t.reader.sent)
      (frames.map (WireFrame.seen env.args.pid)) := by
  have hS := streamOf_wf hlaws.code_laws hfits.k_pos hfits.k_le (ht.sent hfits).1
  apply parses_seen hS hlaws.wire_laws
  · intro f hf
    exact (ht.writerInv hfits hlaws.code_laws hlaws.encoder_laws).built f (hlost.subset hf)
  · exact (ht.delivery hfits hlaws.code_laws hlaws.encoder_laws hlost htime).esi_lt

/-- Frames that carry nothing are delivered in time. -/
lemma delivery_seen {maxInFlight n : ℕ} (pid : UInt16)
    (hdel : Delivery code k maxInFlight n (origins frames)) :
    Delivery code k maxInFlight n (origins (frames.map (WireFrame.seen pid))) := by
  by_cases hpid : pid < 0x2000
  · rwa [map_seen_of_lt hpid]
  · rw [origins_map_seen hpid]
    exact Delivery.nil

/-- What is on the decoder's output when its input has ended. -/
lemma bytes_of_running (hfits : args.Fits k) (hlaws : CrateLaws enc env code args.oti k)
    (hM : env.maxInFlight ≤ 128) (hn : numBlocks (k * symbolSize) stdin < 2 ^ 63)
    (ht : t.Running enc coin env.wire env.args.pid args rng stdin)
    (hlost : frames.Sublist t.writer.wire)
    (htime : InTime code k env.maxInFlight (origins frames))
    (hready : ∀ l < numBlocks (k * symbolSize) stdin, Ready code k l (origins frames))
    {now : Instant} {acts : List Action} {c : Conf D} (h : FreshRun env now frames acts c)
    (hclosed : c.point = .closed) :
    c.window.bytes = if env.args.pid < 0x2000 then padded (k * symbolSize) stdin else [] := by
  obtain ⟨hlength, hflatten, hcount⟩ := ht.sent hfits
  have hS := streamOf_wf hlaws.code_laws hfits.k_pos hfits.k_le hlength
  have hdec := hlaws.decoder_laws
  rw [hfits.oti_eq] at hdec
  have hparse := parses_of_running hfits hlaws ht hlost htime
  have hdel := ht.delivery hfits hlaws.code_laws hlaws.encoder_laws hlost htime
  have hseen := h.seen env.args.pid
  by_cases hpid : env.args.pid < 0x2000
  · rw [if_pos hpid]
    rw [map_seen_of_lt hpid] at hseen hparse
    have hstdout := hseen.recovered hS hdec hM (by omega) hparse hdel hready hclosed
    have hblocks := range_map_streamOf code k t.reader.sent
    rw [hcount] at hblocks
    calc c.window.bytes
        = ((List.range (numBlocks (k * symbolSize) stdin)).map
            (streamOf code k t.reader.sent).block).flatten := by
          rw [Window.bytes, hstdout, List.flatMap_map]
          rfl
      _ = padded (k * symbolSize) stdin := by rw [hblocks, hflatten]
  · -- no block was delivered, and none is written
    rw [if_neg hpid]
    have hnil := origins_map_seen hpid frames
    have hstdout := hseen.recovered (n := 0) hS hdec hM (by omega) hparse
      (by rw [hnil]; exact Delivery.nil) (fun l hl => absurd hl (Nat.not_lt_zero l)) hclosed
    rw [Window.bytes, hstdout]
    rfl

/-- Before its input has ended, the decoder is never stuck, and never in the drain loop for
long. -/
lemma notStuck_of_running (hfits : args.Fits k) (hlaws : CrateLaws enc env code args.oti k)
    (hM : env.maxInFlight ≤ 128) (hn : numBlocks (k * symbolSize) stdin < 2 ^ 63)
    (ht : t.Running enc coin env.wire env.args.pid args rng stdin)
    (hlost : frames.Sublist t.writer.wire)
    (htime : InTime code k env.maxInFlight (origins frames)) {before rest : List WireFrame}
    (hcut : frames = before ++ rest) {now : Instant} {acts : List Action} {c : Conf D}
    (h : FreshRun env now before acts c) (hopen : c.point ≠ .closed) :
    NotStuck env rest c ∧
      acts.length ≤ 2 * acts.countP Action.isEvent + numBlocks (k * symbolSize) stdin := by
  have hS := streamOf_wf hlaws.code_laws hfits.k_pos hfits.k_le (ht.sent hfits).1
  have hdec := hlaws.decoder_laws
  rw [hfits.oti_eq] at hdec
  have hparse := parses_of_running hfits hlaws ht hlost htime
  have hdel := delivery_seen env.args.pid
    (ht.delivery hfits hlaws.code_laws hlaws.encoder_laws hlost htime)
  have hseen := h.seen env.args.pid
  rw [hcut, List.map_append] at hparse hdel
  have hfit : numBlocks (k * symbolSize) stdin + env.maxInFlight < 2 ^ 64 := by omega
  refine ⟨?_, ?_⟩
  · unfold NotStuck
    cases hpoint : c.point with
    | drain =>
      intro clk
      exact Option.isSome_iff_exists.mpr (exists_step_pass hpoint clk)
    | recv =>
      refine ⟨fun f hf t' => ?_, by simp only [step, hpoint, if_true, Option.isSome_some]⟩
      obtain ⟨later, rfl⟩ : ∃ later, rest = f :: later := by
        cases rest with
        | nil => cases hf
        | cons g later =>
          obtain rfl := Option.some.inj hf
          exact ⟨later, rfl⟩
      rw [List.map_cons, ← List.singleton_append, ← List.append_assoc] at hparse hdel
      rw [origins_append] at hdel
      -- the next frame is the last of those delivered so far
      have hstep := hseen.exists_step hS hdec hM hfit hparse.of_append hdel.of_append hpoint t'
      rw [WireFrame.seen_bytes] at hstep
      exact Option.isSome_iff_exists.mpr hstep
    | closed => exact absurd hpoint hopen
  · rw [origins_append] at hdel
    have hrec := hseen.recovering hS hdec hM hfit hparse.of_append hdel.of_append hopen
    have hlength := length_run_le h.run_eq hopen
    have hcursor := hrec.cursor_le_of_delivery
      ((show Reachable env c from ⟨now, acts, h.run_eq⟩).wf hopen) hdel.of_append
    omega

/-- **Recovery from end to end.** When each block is delivered in time and none reaches the
timeout, the decoder is never stuck, and all it writes until its input ends is the encoder's
input, padded to full blocks, if and only if the PID fits its 13 bits. With a wider PID it
writes nothing. -/
theorem end_to_end_recovery (hfits : args.Fits k) (hlaws : CrateLaws enc env code args.oti k)
    (hM : env.maxInFlight ≤ 128) (hn : numBlocks (k * symbolSize) stdin < 2 ^ 63)
    (ht : t.Running enc coin env.wire env.args.pid args rng stdin)
    (hlost : frames.Sublist t.writer.wire)
    (htime : InTime code k env.maxInFlight (origins frames))
    (hready : ∀ l < numBlocks (k * symbolSize) stdin, Ready code k l (origins frames))
    (now : Instant) :
    (∀ acts c, FreshRun env now frames acts c → c.point = .closed →
      (c.window.bytes = padded (k * symbolSize) stdin ↔
        env.args.pid < 0x2000 ∨ stdin = [])) ∧
    (∀ before rest acts c, frames = before ++ rest → FreshRun env now before acts c →
      c.point ≠ .closed → NotStuck env rest c ∧
        acts.length ≤ 2 * acts.countP Action.isEvent + numBlocks (k * symbolSize) stdin) := by
  refine ⟨fun acts c h hclosed => ?_, fun before rest acts c hcut h hopen => ?_⟩
  · rw [bytes_of_running hfits hlaws hM hn ht hlost htime hready h hclosed]
    by_cases hpid : env.args.pid < 0x2000
    · rw [if_pos hpid]
      exact ⟨fun _ => Or.inl hpid, fun _ => rfl⟩
    · rw [if_neg hpid, eq_comm, padded_eq_nil_iff]
      exact ⟨Or.inr, fun h => h.resolve_left hpid⟩
  · exact notStuck_of_running hfits hlaws hM hn ht hlost htime hcut h hopen

/-- Packets of each block are lost, and block 0 is decoded by an extra repair symbol, which comes
behind packets of block 1: all that is read arrives, padded to three blocks. -/
theorem end_to_end_losses : ∃ c : Conf Reference.Decoder,
    runFrom (Reference.env 2) 0 (Reference.heardRun [3, 4, 5, 6, 8, 9, 10, 11, 12, 13, 14]
        [1, 1, 1, 1, 1, 3, 0, 1, 1, 2, 0]) = some c ∧
      c.window.bytes = padded (2 * symbolSize) Reference.pairStdin := by
  obtain ⟨c, hc, hclosed⟩ : ∃ c : Conf Reference.Decoder,
      runFrom (Reference.env 2) 0 (Reference.heardRun [3, 4, 5, 6, 8, 9, 10, 11, 12, 13, 14]
        [1, 1, 1, 1, 1, 3, 0, 1, 1, 2, 0]) = some c ∧ c.point = .closed :=
    exists_of_run_map (by decide +kernel)
  obtain ⟨t, ht, hwire⟩ := Reference.exists_pair_running
  have hlost : (Reference.heard [3, 4, 5, 6, 8, 9, 10, 11, 12, 13, 14]).Sublist t.writer.wire := by
    rw [hwire]
    decide +kernel
  obtain ⟨htime, hready⟩ := @Reference.inTime_of_positions 2 3 (Reference.env 2).maxInFlight
    (origins (Reference.heard [3, 4, 5, 6, 8, 9, 10, 11, 12, 13, 14])) (by decide +kernel)
    (by decide +kernel) (by decide +kernel)
  have hlaws : CrateLaws Reference.encoder (Reference.env 2) Reference.code
      Encoder.oneExtra.oti 2 := Reference.crateLaws rfl rfl (by decide)
  have hM : (Reference.env 2).maxInFlight ≤ 128 := by decide
  have h := end_to_end_recovery Reference.oneExtra_fits hlaws hM
    (by rw [Reference.numBlocks_pairStdin]; decide) ht hlost htime
    (by rw [Reference.numBlocks_pairStdin]; exact hready) 0
  have hfresh := Reference.freshRun_heard (by decide +kernel) hc
  exact ⟨c, hc, (h.1 _ c hfresh hclosed).mpr (Or.inl (by decide))⟩

/-- With the PID `0x2000`, which the command lines admit, nothing arrives. -/
theorem end_to_end_wide_pid : ∃ (t : Threads Reference.Encoder Unit) (c : Conf Reference.Decoder),
    Reference.params.Fits 1 ∧
      CrateLaws Reference.encoder (Reference.envAt 0x2000) Reference.code Reference.params.oti 1 ∧
      t.Running Reference.encoder (fun _ => (true, ())) Reference.codec 0x2000 Reference.params ()
        Reference.stdin ∧
      InTime Reference.code 1 8 (origins t.writer.wire) ∧
      (∀ l < numBlocks (1 * symbolSize) Reference.stdin,
        Ready Reference.code 1 l (origins t.writer.wire)) ∧
      FreshRun (Reference.envAt 0x2000) 0 t.writer.wire (Reference.shortRun 0x2000 1) c ∧
      c.point = .closed ∧ c.window.bytes ≠ padded (1 * symbolSize) Reference.stdin := by
  obtain ⟨c, hc, hobs⟩ : ∃ c : Conf Reference.Decoder,
      runFrom (Reference.envAt 0x2000) 0 (Reference.shortRun 0x2000 1) = some c ∧
        (c.point, c.window.bytes) = (.closed, []) := exists_of_run_map (by decide +kernel)
  obtain ⟨hclosed, hbytes⟩ := Prod.mk.inj hobs
  obtain ⟨t, ht, hwire⟩ := Reference.exists_running 0x2000
  have hlaws : CrateLaws Reference.encoder (Reference.envAt 0x2000) Reference.code
      Reference.params.oti 1 := Reference.crateLaws rfl rfl le_rfl
  obtain ⟨htime, hready⟩ := @Reference.inTime_of_positions 1 1 8 [⟨0, 0⟩] (by decide) (by decide)
    (by decide)
  have horigins : origins t.writer.wire = [⟨0, 0⟩] := by
    rw [hwire]
    rfl
  refine ⟨t, c, Reference.params_fits, hlaws, ht, ?_, ?_, ?_, hclosed, ?_⟩
  · rw [horigins]
    exact htime
  · rw [horigins, Reference.numBlocks_stdin]
    exact hready
  · rw [hwire]
    exact Reference.freshRun hc
  · rw [hbytes]
    decide

end EndToEnd

end RaptorqTs
