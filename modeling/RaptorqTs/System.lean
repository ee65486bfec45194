import RaptorqTs.Dec.Completion
import RaptorqTs.Dec.Resync
import RaptorqTs.Link
import Mathlib.Data.Finset.Powerset

/-!
# The encoder process, the link and the decoder process

Three threads, two channels and a wire, and behind the link two threads, a channel and an output
buffer: the bytes that leave the decoder are the bytes that enter the encoder.
-/

namespace RaptorqTs

open Enc

/-! ## The decoder process on frames -/

namespace Dec.Process

variable {D : Type} {env : Env D} {now : Instant} {frames : List WireFrame}
  {acts : List ProcessAction} {q : Process D}

/-- The standard input that frames make up. -/
def stdinOf (frames : List WireFrame) : Bytes := (frames.map WireFrame.bytes).flatten

/-- In no pass of the drain loop a block has reached the timeout. -/
def NoTimeout (env : Env D) (now : Instant) (stdin : Bytes) (acts : List ProcessAction) : Prop :=
  Machine.EachStep (step env) (init now stdin)
    (fun p a => ∀ x ∈ p.decoderAction a, Fresh env p.conf.window x) acts

lemma length_decoderAction (p : Process D) (a : ProcessAction) :
    (p.decoderAction a).length ≤ 1 := by
  cases a with
  | recv t =>
    rw [decoderAction]
    cases p.queue.head? with
    | none => exact Nat.zero_le 1
    | some pkt => exact Nat.le_refl 1
  | timeout _ | pass _ _ | passError _ _ | disconnect | disconnectError _ => exact Nat.le_refl 1
  | reader _ | send => exact Nat.zero_le 1

/-- The scan finds the frames again. -/
lemma scan_stdinOf {S : Stream} (hS : S.Wf) {codec : WireCodec} {pid : UInt16}
    (hbuilt : ∀ f ∈ frames, f.Built codec pid S) :
    (tsFormat.scan 0 (stdinOf frames)).map Prod.snd = frames.map WireFrame.bytes := by
  rw [stdinOf, Framing.Format.scan_frames, Framing.Format.map_snd_placed]
  intro w hw
  obtain ⟨f, hf, rfl⟩ := List.mem_map.mp hw
  obtain ⟨cc, out, hout, hbytes⟩ := hbuilt f hf
  apply @IsWirePacket.frame codec pid
  cases horigin : f.origin with
  | none =>
    rw [horigin] at hbytes
    rw [hbytes]
    exact .noop cc out hout
  | some o =>
    rw [horigin] at hbytes
    rw [hbytes]
    exact .data cc S.oti (S.packet o) out hout (hS.packet_length o)

/-- `run_decoder` has run on the frames up to those in the channel and behind it. -/
lemma freshRun_of_run {S : Stream} (hS : S.Wf) {codec : WireCodec} {pid : UInt16}
    (hbuilt : ∀ f ∈ frames, f.Built codec pid S)
    (h : runFrom env now (stdinOf frames) acts = some q)
    (hfresh : NoTimeout env now (stdinOf frames) acts) :
    ∃ before rest, frames = before ++ rest ∧
      FreshRun env now before (decoded env now (stdinOf frames) acts) q.conf ∧
      (∀ pkt ∈ q.queue.head?, ∃ f ∈ rest.head?, f.bytes = pkt) ∧
      (q.exit = some .ok → q.reader.point = .exited .ok → rest = []) := by
  have hinv := inv_of_run h
  obtain ⟨racts, hrun, -⟩ := hinv.reader_run
  have hsent : q.reader.sent.map Prod.snd <+: frames.map WireFrame.bytes := by
    rw [← scan_stdinOf hS hbuilt]
    have hinitial : q.reader.sent <+: tsFormat.scan 0 (stdinOf frames) :=
      ⟨_, (Reader.inv_of_run hrun).scan_eq.symm⟩
    exact hinitial.map _
  obtain ⟨more, hmore⟩ := hsent
  have hpackets : q.reader.sent.map Prod.snd = _ ++ q.queue := hinv.packets
  rw [hpackets, List.append_assoc] at hmore
  obtain ⟨before, rest, rfl, hbefore, hrest⟩ := List.map_eq_append_iff.mp hmore.symm
  refine ⟨before, rest, rfl, ⟨hbefore.symm, ?_, hinv.conf_run⟩, fun pkt hpkt => ?_,
    fun hexit hreader => ?_⟩
  · exact Machine.EachStep.trace (fun hr => (inv_of_run hr).conf_run) length_decoderAction h hfresh
  · -- the next packet is the next frame
    have hhead : (rest.map WireFrame.bytes).head? = some pkt := by
      rw [hrest, List.head?_append, hpkt]
      rfl
    rw [List.head?_map, Option.map_eq_some_iff] at hhead
    exact hhead
  · have hall := hinv.frames_eq (exit_eq_some.mp hexit).2 hreader
    rw [scan_stdinOf hS hbuilt, List.map_append, hbefore] at hall
    exact List.map_eq_nil_iff.mp (List.append_right_eq_self.mp hall.symm)

end Dec.Process

/-! ## The system -/

section System

variable {E R D : Type} {setup : Setup E R} {env : Env D} {code : FountainCode} {stdin : Bytes}
  {rng : R} {p : Pipeline E R} {k m δ j : ℕ} {frames before rest : List WireFrame}

/-- The two processes are started with arguments that fit each other, and the FEC crate is that
of one code. -/
structure Matched (setup : Setup E R) (env : Env D) (code : FountainCode) (k : ℕ) : Prop where
  fits : setup.args.Fits k
  crate : CrateLaws setup.enc env code setup.args.oti k
  codec_eq : setup.codec = env.wire
  pid_eq : setup.pid = env.args.pid
  pid_lt : env.args.pid < 0x2000
  inFlight_pos : 1 ≤ env.maxInFlight
  inFlight_le : env.maxInFlight ≤ 128

lemma Matched.decoder_laws (h : Matched setup env code k) (blocks : List Bytes) :
    env.dec.Laws code (streamOf code k blocks).oti k := by
  have hdec := h.crate.decoder_laws
  rwa [h.fits.oti_eq] at hdec

/-- The encoder's threads have run to their end, and some of the frames are delivered, in order. -/
structure Relayed (setup : Setup E R) (stdin : Bytes) (rng : R) (p : Pipeline E R)
    (frames : List WireFrame) : Prop where
  reachable : Pipeline.Reachable setup stdin rng p
  exit_ok : p.exit = some .ok
  sublist : frames.Sublist p.writer.wire

namespace Relayed

lemma inBandFirst (h : Relayed setup stdin rng p frames) (hmatched : Matched setup env code k) :
    InBandFirst setup.args k (numBlocks (k * symbolSize) stdin) (origins p.writer.wire) :=
  h.reachable.inv.inBandFirst (Pipeline.exit_eq_ok.mp h.exit_ok) hmatched.fits
    hmatched.crate.code_laws hmatched.crate.encoder_laws

lemma running (h : Relayed setup stdin rng p frames) (hmatched : Matched setup env code k) :
    Threads.Running setup.enc setup.coin env.wire env.args.pid setup.args rng stdin
      ⟨p.reader, p.encoder, p.writer⟩ := by
  obtain ⟨hreader, -, hwriter⟩ := Pipeline.exit_eq_ok.mp h.exit_ok
  rw [← hmatched.codec_eq, ← hmatched.pid_eq]
  exact h.reachable.running hreader (by rw [hwriter]; nofun)

lemma wf (h : Relayed setup stdin rng p frames) (hmatched : Matched setup env code k) :
    (streamOf code k p.reader.sent).Wf :=
  streamOf_wf hmatched.crate.code_laws hmatched.fits.k_pos hmatched.fits.k_le
    ((h.running hmatched).sent hmatched.fits).1

lemma built (h : Relayed setup stdin rng p frames) (hmatched : Matched setup env code k) :
    ∀ f ∈ frames, f.Built env.wire env.args.pid (streamOf code k p.reader.sent) := fun f hf =>
  ((h.running hmatched).writerInv hmatched.fits hmatched.crate.code_laws
    hmatched.crate.encoder_laws).built f (h.sublist.subset hf)

lemma parses (h : Relayed setup stdin rng p frames) (hmatched : Matched setup env code k) :
    Parses env (streamOf code k p.reader.sent) frames := by
  have hsub : (origins frames).Sublist (origins p.writer.wire) := h.sublist.filterMap _
  have hparse := parses_seen (h.wf hmatched) hmatched.crate.wire_laws (h.built hmatched)
    fun o ho => (h.inBandFirst hmatched).esi_lt o (hsub.subset ho)
  rwa [map_seen_of_lt hmatched.pid_lt] at hparse

lemma lag (h : Relayed setup stdin rng p frames) (hmatched : Matched setup env code k) :
    (origins frames).Pairwise fun o o' => o.block < o'.block + 128 := by
  have hrunning := h.running hmatched
  have hinv := hrunning.encoderInv hmatched.fits hmatched.crate.encoder_laws
  have hsent : (origins frames).Sublist (p.encoder.sent.map Sent.origin) := by
    refine (h.sublist.filterMap WireFrame.origin).trans ?_
    exact ((hrunning.writerInv hmatched.fits hmatched.crate.code_laws
      hmatched.crate.encoder_laws).origins_initial.trans (hrunning.packets.map _)).sublist
  refine List.Pairwise.sublist hsent (List.pairwise_map.mpr (hinv.lag.imp ?_))
  intro x y hxy
  show x.block < y.block + 128
  unfold maxRing at hxy
  omega

/-- The blocks of the stream are the input, padded. -/
lemma blocks (h : Relayed setup stdin rng p frames) (hmatched : Matched setup env code k) :
    ((List.range (numBlocks (k * symbolSize) stdin)).map
      (streamOf code k p.reader.sent).block).flatten = padded (k * symbolSize) stdin := by
  obtain ⟨-, hflatten, hcount⟩ := (h.running hmatched).sent hmatched.fits
  rw [← hcount, range_map_streamOf, hflatten]

/-- The first blocks are the start of the input, and the others are what is left of it. -/
lemma split_blocks (h : Relayed setup stdin rng p frames) (hmatched : Matched setup env code k)
    {l c : ℕ} (hlc : l ≤ c) (hc : c ≤ numBlocks (k * symbolSize) stdin) :
    ((List.range' l (c - l)).map (streamOf code k p.reader.sent).block).flatten <+:
      (padded (k * symbolSize) stdin).drop (l * (k * symbolSize)) ∧
    (c = numBlocks (k * symbolSize) stdin →
      ((List.range' l (c - l)).map (streamOf code k p.reader.sent).block).flatten =
        (padded (k * symbolSize) stdin).drop (l * (k * symbolSize))) := by
  have hblock := (h.wf hmatched).block_length
  have hdrop : (padded (k * symbolSize) stdin).drop (l * (k * symbolSize)) =
      ((List.range' l (c - l)).map (streamOf code k p.reader.sent).block).flatten ++
        ((List.range' c (numBlocks (k * symbolSize) stdin - c)).map
          (streamOf code k p.reader.sent).block).flatten := by
    have hlength : ((List.range' 0 l).map (streamOf code k p.reader.sent).block).flatten.length =
        l * (k * symbolSize) := by
      rw [length_flatten_of_length, List.length_map, List.length_range']
      intro b hb
      obtain ⟨i, -, rfl⟩ := List.mem_map.mp hb
      exact hblock i
    have hsplit : List.range (numBlocks (k * symbolSize) stdin) = List.range' 0 l ++
        (List.range' l (c - l) ++ List.range' c (numBlocks (k * symbolSize) stdin - c)) := by
      obtain ⟨d, hd⟩ := Nat.exists_eq_add_of_le hc
      obtain ⟨e, rfl⟩ := Nat.exists_eq_add_of_le hlc
      rw [hd, Nat.add_sub_cancel_left, Nat.add_sub_cancel_left, List.range'_append_1,
        List.range_eq_range', Nat.add_assoc, ← List.range'_append_1, Nat.zero_add]
    rw [← h.blocks hmatched, hsplit, List.map_append, List.flatten_append,
      List.drop_left' hlength, List.map_append, List.flatten_append]
  refine ⟨by rw [hdrop]; exact List.prefix_append _ _, ?_⟩
  rintro rfl
  rw [hdrop, Nat.sub_self, List.range'_zero, List.map_nil, List.flatten_nil, List.append_nil]

end Relayed

/-- **The system is lossless.** The encoder's threads run to their end, in any order, and of each
block the link loses at most `m` in-band packets, where `m` and the overhead of the code on the
in-band packets make up the baseline repair. Then the decoder process, in any order of its steps,
does not panic; what it has written while its input lasts is the start of the encoder's input,
padded to blocks, and it is all of it once `main` has read its input to the end and returned
`Ok(())`. -/
theorem system_lossless (hmatched : Matched setup env code k) (hmono : code.Monotone k)
    (hn : numBlocks (k * symbolSize) stdin < 2 ^ 63) (h : Relayed setup stdin rng p frames)
    (hlink : Loses setup.args k m p.writer.wire frames)
    (hcode : code.Overhead k (k + setup.args.baselineRepair) δ)
    (hm : m + δ ≤ setup.args.baselineRepair) {now : Instant} {acts : List Dec.ProcessAction}
    {q : Dec.Process D}
    (hrun : Dec.Process.runFrom env now (Dec.Process.stdinOf frames) acts = some q)
    (hfresh : Dec.Process.NoTimeout env now (Dec.Process.stdinOf frames) acts) :
    (∀ t, ¬ q.Panics env t) ∧
    (q.conf.point ≠ .closed → q.stdout.delivered <+: padded (k * symbolSize) stdin) ∧
    (q.exit = some .ok → q.reader.point = .exited .ok →
      q.stdout.delivered = padded (k * symbolSize) stdin) := by
  have hfits := hmatched.fits
  have ht := h.running hmatched
  have hS := h.wf hmatched
  have hdec := hmatched.decoder_laws p.reader.sent
  have hM := hmatched.inFlight_le
  obtain ⟨htime, hready⟩ := hlink.inTime (h.inBandFirst hmatched) hmono hcode hm hfits.k_pos
    hmatched.inFlight_pos
  have hdel := ht.delivery hfits hmatched.crate.code_laws hmatched.crate.encoder_laws h.sublist
    htime
  obtain ⟨before, rest, rfl, hbefore, hnext, hend⟩ :=
    Dec.Process.freshRun_of_run hS (h.built hmatched) hrun hfresh
  have hinv := Dec.Process.inv_of_run hrun
  refine ⟨fun t hpanic => ?_, fun hopen => ?_, fun hexit hreader => ?_⟩
  · obtain ⟨-, hrecv, pkt, hpkt, hnone⟩ := hpanic
    have hopen : q.conf.point ≠ .closed := by rw [hrecv]; nofun
    have hmoves := (notStuck_of_running hfits hmatched.crate hM hn ht h.sublist htime rfl hbefore
      hopen).1
    unfold NotStuck at hmoves
    rw [hrecv] at hmoves
    obtain ⟨f, hf, rfl⟩ := hnext pkt hpkt
    have hsome := hmoves.1 f hf t
    rw [hnone] at hsome
    cases hsome
  · rw [origins_append] at hdel
    have hrec := hbefore.recovering hS hdec hM (by omega) (h.parses hmatched).of_append
      hdel.of_append hopen
    have hcursor := hrec.cursor_le_of_delivery
      ((show Reachable env q.conf from ⟨now, _, hbefore.run_eq⟩).wf hopen) hdel.of_append
    have hbytes : q.conf.window.bytes = ((List.range' 0 (q.conf.window.cursor - 0)).map
        (streamOf code k p.reader.sent).block).flatten := by
      rw [Window.bytes, hrec.output, List.flatMap_map, List.range_eq_range']
      rfl
    have hblocks := (h.split_blocks hmatched (Nat.zero_le _) hcursor).1
    rw [Nat.zero_mul, List.drop_zero, ← hbytes] at hblocks
    exact hinv.delivered.trans hblocks
  · obtain rfl := hend hexit hreader
    rw [List.append_nil] at h htime hready
    have hreturned := hinv.returned (Dec.Process.exit_eq_some.mp hexit).2
    have hbytes := bytes_of_running hfits hmatched.crate hM hn ht h.sublist htime hready hbefore
      hreturned.closed
    rw [if_pos hmatched.pid_lt] at hbytes
    rw [hreturned.delivered, hbytes]

/-- **A receiver may tune in at any time.** It is delivered nothing before some packet of block
`j`, and then, with the same margin for each later block, it writes as many bytes as a block has
for block `j`, and after them the rest of the encoder's input. -/
theorem late_receiver_recovers (hmatched : Matched setup env code k)
    (hM : env.maxInFlight ≤ 127) (hmono : code.Monotone k)
    (hn : numBlocks (k * symbolSize) stdin < 2 ^ 63) (h : Relayed setup stdin rng p frames)
    (hlink : JoinsAt setup.args k m j p.writer.wire frames) (hheard : origins frames ≠ [])
    (hcode : code.Overhead k (k + setup.args.baselineRepair) δ)
    (hm : m + δ ≤ setup.args.baselineRepair) {now : Instant} {acts : List Dec.ProcessAction}
    {q : Dec.Process D}
    (hrun : Dec.Process.runFrom env now (Dec.Process.stdinOf frames) acts = some q)
    (hfresh : Dec.Process.NoTimeout env now (Dec.Process.stdinOf frames) acts) :
    (∀ t, ¬ q.Panics env t) ∧ ∃ front, front.length = k * symbolSize ∧
      (q.conf.point ≠ .closed → q.stdout.delivered <+:
        front ++ (padded (k * symbolSize) stdin).drop ((j + 1) * (k * symbolSize))) ∧
      (q.exit = some .ok → q.reader.point = .exited .ok → q.stdout.delivered =
        front ++ (padded (k * symbolSize) stdin).drop ((j + 1) * (k * symbolSize))) := by
  have hS := h.wf hmatched
  have hdec := hmatched.decoder_laws p.reader.sent
  have hM' := hmatched.inFlight_pos
  obtain ⟨htune, hready⟩ := hlink.tunesIn (h.inBandFirst hmatched) hmono hcode hm
    (h.lag hmatched)
  obtain ⟨o, ho⟩ := List.exists_mem_of_ne_nil _ hheard
  have hjn := (htune.le_block o ho).trans_lt (htune.block_lt o ho)
  obtain ⟨before, rest, rfl, hbefore, hnext, hend⟩ :=
    Dec.Process.freshRun_of_run hS (h.built hmatched) hrun hfresh
  have hparse := h.parses hmatched
  have hinv := Dec.Process.inv_of_run hrun
  refine ⟨fun t hpanic => ?_, ?_⟩
  · obtain ⟨-, hrecv, pkt, hpkt, hnone⟩ := hpanic
    obtain ⟨f, hf, rfl⟩ := hnext pkt hpkt
    obtain ⟨later, rfl⟩ : ∃ later, rest = f :: later := ⟨_, (List.cons_head?_tail hf).symm⟩
    rw [← List.singleton_append, ← List.append_assoc] at hparse htune
    rw [origins_append] at htune
    obtain ⟨c', hc'⟩ := hbefore.exists_step_tuned hS hdec hmono hM' hM hn hparse.of_append
      htune.of_append hrecv t
    rw [hnone] at hc'
    cases hc'
  have htuneBefore : TunesIn code k j (numBlocks (k * symbolSize) stdin) (origins before) := by
    rw [origins_append] at htune
    exact htune.of_append
  have htuned := hbefore.tuned hS hdec hmono hM' hM hn hjn hparse.of_append htuneBefore
  by_cases hdone : q.exit = some .ok ∧ q.reader.point = .exited .ok
  · -- the whole input has been read
    obtain rfl := hend hdone.1 hdone.2
    rw [List.append_nil] at hheard hready htune
    have hreturned := hinv.returned (Dec.Process.exit_eq_some.mp hdone.1).2
    obtain ⟨front, hfront, hbytes⟩ :=
      (htuned.2 hreturned.closed hheard hready).bytes hS htune hjn
    refine ⟨front, hfront, fun hopen => absurd hreturned.closed hopen, fun _ _ => ?_⟩
    rw [hreturned.delivered, Window.bytes, hbytes, (h.split_blocks hmatched hjn le_rfl).2 rfl]
  · by_cases hopen : q.conf.point = .closed
    · exact ⟨List.replicate (k * symbolSize) 0, List.length_replicate .., fun h => absurd hopen h,
        fun hexit hreader => absurd ⟨hexit, hreader⟩ hdone⟩
    · obtain ⟨cur, hcn, hout⟩ := htuned.1 hopen
      by_cases hjc : j < cur
      · obtain ⟨front, hfront, hbytes⟩ := hout.bytes hS htuneBefore hjc
        refine ⟨front, hfront, fun _ => ?_, fun hexit hreader => absurd ⟨hexit, hreader⟩ hdone⟩
        refine hinv.delivered.trans ?_
        rw [Window.bytes, hbytes, List.prefix_append_right_inj]
        exact (h.split_blocks hmatched hjc hcn).1
      · -- nothing has been written yet
        have hnil : q.conf.window.bytes = [] := by
          rw [Window.bytes, (hout.resolve_right fun hlater => hjc hlater.1).2]
          rfl
        have hdelivered := hinv.delivered
        rw [hnil, List.prefix_nil] at hdelivered
        refine ⟨List.replicate (k * symbolSize) 0, List.length_replicate .., fun _ => ?_,
          fun hexit hreader => absurd ⟨hexit, hreader⟩ hdone⟩
        rw [hdelivered]
        exact List.nil_prefix

end System

/-! ## Transmissions with losses -/

namespace Reference

/-- Any three of the four in-band packets hold both positions. -/
lemma overhead : code.Overhead 2 (2 + 2) 1 := by
  have hall : ∀ esis ∈ (Finset.range (2 + 2)).powerset, 2 + 1 ≤ esis.card →
      ∀ i < 2, ∃ e ∈ esis, e % 2 = i := by
    decide
  intro esis hesis hcard
  exact hall esis (Finset.mem_powerset.mpr hesis) hcard

lemma matched {M : UInt64} (hpos : 1 ≤ (env M).maxInFlight) (hle : (env M).maxInFlight ≤ 128) :
    Matched Pipeline.pairSetup (env M) code 2 where
  fits := oneExtra_fits
  crate := crateLaws rfl rfl (by decide)
  codec_eq := rfl
  pid_eq := rfl
  pid_lt := by
    show (0x100 : UInt16) < 0x2000
    decide
  inFlight_pos := hpos
  inFlight_le := hle

/-- Only three blocks are on the wire. -/
lemma inBandEsis_pairWire {l : ℕ} (hl : 3 ≤ l) :
    inBandEsis Encoder.oneExtra 2 l (origins pairWire) = [] := by
  have hblocks : ∀ o ∈ origins pairWire, o.block < 3 := by decide +kernel
  have hesis : esisOf l (origins pairWire) = [] := by
    apply List.eq_nil_iff_forall_not_mem.mpr
    intro esi hesi
    have hlt := hblocks _ (mem_esisOf.mp hesi)
    simp only at hlt
    omega
  rw [inBandEsis, hesis, List.filter_nil]

/-- The link loses one in-band packet of each block, and both extra repair symbols. -/
lemma loses : Loses Encoder.oneExtra 2 1 pairWire (heard [2, 3, 4, 5, 6, 8, 12, 13, 14]) where
  sublist := by decide +kernel
  le_delivered l := by
    rcases Nat.lt_or_ge l 3 with hl | hl
    · revert l
      decide +kernel
    · rw [inBandEsis_pairWire hl]
      exact Nat.zero_le _

/-- The receiver tunes in with the third packet of block 1. -/
lemma joinsAt : JoinsAt Encoder.oneExtra 2 1 1 pairWire (heard [7, 8, 12, 13, 14]) where
  sublist := by decide +kernel
  head := by decide +kernel
  le_block := by decide +kernel
  le_delivered l hjl := by
    rcases Nat.lt_or_ge l 3 with hl | hl
    · obtain rfl : l = 2 := by omega
      decide +kernel
    · rw [inBandEsis_pairWire hl]
      exact Nat.zero_le _

lemma exists_relayed (ns : List ℕ) (hsub : (heard ns).Sublist pairWire) :
    ∃ p : Pipeline Encoder Xorshift64,
      Relayed Pipeline.pairSetup pairStdin (.new 1) p (heard ns) ∧ p.writer.wire = pairWire := by
  obtain ⟨p, hreach, hended, hwire, -⟩ := Pipeline.exists_pairRun
  exact ⟨p, ⟨hreach, Pipeline.exit_eq_ok.mpr hended, by rw [hwire]; exact hsub⟩, hwire⟩

/-- The process reads frames one by one, each with some passes of the drain loop behind it, and
writes what it has when its input ends. -/
def processRun (passes : List ℕ) : List Dec.ProcessAction :=
  (passes.flatMap fun n =>
    [.reader (.read 188), .send, .recv 0] ++ List.replicate n (.pass (Clock.at 0) 0)) ++
      [.reader (.read 0), .disconnect]

/-- A pass of the drain loop happens at the time 0. -/
def AtZero : Dec.ProcessAction → Bool
  | .pass clk _ | .passError clk _ => clk.guard == 0
  | _ => true

lemma noTimeout {M : UInt64} {acts : List Dec.ProcessAction} (hzero : ∀ a ∈ acts, AtZero a = true)
    (stdin : Bytes) : Dec.Process.NoTimeout (env M) 0 stdin acts := by
  intro pre a post s hcut _ x hx
  have ha := hzero a (by rw [hcut]; exact List.mem_append_right _ (List.mem_cons_self ..))
  apply fresh_of_guard_zero (timeout_pos M)
  rintro clk rfl
  cases a with
  | pass clk' down | passError clk' down =>
    obtain rfl := Action.pass.inj (List.mem_singleton.mp hx)
    exact eq_of_beq ha
  | recv t =>
    obtain ⟨pkt, -, hpkt⟩ := Option.mem_map.mp (Option.mem_toList.mp hx)
    cases hpkt
  | timeout _ | disconnect | disconnectError _ => cases List.mem_singleton.mp hx
  | reader _ | send => cases hx

end Reference

/-- The link loses packets of each of three blocks, and they arrive at the other end. -/
theorem system_lossless_losses : ∃ (p : Pipeline Reference.Encoder Xorshift64)
    (q : Dec.Process Reference.Decoder),
    Relayed Pipeline.pairSetup Reference.pairStdin (.new 1) p
        (Reference.heard [2, 3, 4, 5, 6, 8, 12, 13, 14]) ∧
      Dec.Process.runFrom (Reference.env 1) 0
        (Dec.Process.stdinOf (Reference.heard [2, 3, 4, 5, 6, 8, 12, 13, 14]))
        (Reference.processRun [1, 2, 0, 1, 1, 2, 1, 2, 0]) = some q ∧
      q.stdout.delivered = padded (2 * symbolSize) Reference.pairStdin := by
  obtain ⟨p, hp, hwire⟩ := Reference.exists_relayed _ Reference.loses.sublist
  have hobs : (Dec.Process.runFrom (Reference.env 1) 0
      (Dec.Process.stdinOf (Reference.heard [2, 3, 4, 5, 6, 8, 12, 13, 14]))
      (Reference.processRun [1, 2, 0, 1, 1, 2, 1, 2, 0])).map (fun q => (q.exit, q.reader.point)) =
        some (some .ok, .exited .ok) := by
    decide +kernel
  obtain ⟨q, hq, hdone⟩ := Option.map_eq_some_iff.mp hobs
  obtain ⟨hexit, hreader⟩ := Prod.mk.inj hdone
  have hlink : Loses Encoder.oneExtra 2 1 p.writer.wire
      (Reference.heard [2, 3, 4, 5, 6, 8, 12, 13, 14]) := by
    rw [hwire]
    exact Reference.loses
  have hmatched : Matched Pipeline.pairSetup (Reference.env 1) Reference.code 2 :=
    Reference.matched (by decide) (by decide)
  have h := system_lossless hmatched (Reference.code_monotone 2)
    (by rw [Reference.numBlocks_pairStdin]; decide) hp hlink Reference.overhead (by decide) hq
    (Reference.noTimeout (by decide) _)
  exact ⟨p, q, hp, hq, h.2.2 hexit hreader⟩

/-- The receiver tunes in in the middle of block 1, and writes block 2 behind it. -/
theorem late_receiver_recovers_last_block : ∃ (p : Pipeline Reference.Encoder Xorshift64)
    (q : Dec.Process Reference.Decoder),
    Relayed Pipeline.pairSetup Reference.pairStdin (.new 1) p
        (Reference.heard [7, 8, 12, 13, 14]) ∧
      Dec.Process.runFrom (Reference.env 1) 0
        (Dec.Process.stdinOf (Reference.heard [7, 8, 12, 13, 14]))
        (Reference.processRun [1, 1, 2, 2, 0]) = some q ∧
      ∃ front, front.length = 2 * symbolSize ∧ q.stdout.delivered = front ++
        (padded (2 * symbolSize) Reference.pairStdin).drop (2 * (2 * symbolSize)) := by
  obtain ⟨p, hp, hwire⟩ := Reference.exists_relayed _ Reference.joinsAt.sublist
  have hobs : (Dec.Process.runFrom (Reference.env 1) 0
      (Dec.Process.stdinOf (Reference.heard [7, 8, 12, 13, 14]))
      (Reference.processRun [1, 1, 2, 2, 0])).map (fun q => (q.exit, q.reader.point)) =
        some (some .ok, .exited .ok) := by
    decide +kernel
  obtain ⟨q, hq, hdone⟩ := Option.map_eq_some_iff.mp hobs
  obtain ⟨hexit, hreader⟩ := Prod.mk.inj hdone
  have hlink : JoinsAt Encoder.oneExtra 2 1 1 p.writer.wire
      (Reference.heard [7, 8, 12, 13, 14]) := by
    rw [hwire]
    exact Reference.joinsAt
  have hmatched : Matched Pipeline.pairSetup (Reference.env 1) Reference.code 2 :=
    Reference.matched (by decide) (by decide)
  have hheard : origins (Reference.heard [7, 8, 12, 13, 14]) ≠ [] := by decide +kernel
  obtain ⟨-, front, hfront, -, hall⟩ := late_receiver_recovers hmatched (by decide)
    (Reference.code_monotone 2) (by rw [Reference.numBlocks_pairStdin]; decide) hp hlink hheard
    Reference.overhead (by decide) hq (Reference.noTimeout (by decide) _)
  exact ⟨p, q, hp, hq, front, hfront, hall hexit hreader⟩

end RaptorqTs
