import Mathlib.Algebra.Order.BigOperators.Group.List
import RaptorqTs.Dec.Process
import RaptorqTs.Enc.Pipeline

/-!
# What the two processes hold

The memory that a process takes for the stream does not grow with the stream, whatever is on it:
the channels are bounded, and so are the decoder's pool and the encoder's ring. What the FEC crate
holds for a block is not counted.
-/

namespace RaptorqTs

lemma sum_map_le {α : Type} {l : List α} {size : α → ℕ} {bound : ℕ}
    (h : ∀ x ∈ l, size x ≤ bound) : (l.map size).sum ≤ l.length * bound := by
  have hle := List.sum_le_card_nsmul (l.map size) bound (List.forall_mem_map.mpr h)
  rwa [List.length_map, nsmul_eq_mul, Nat.cast_id] at hle

/-! ## The decoder -/

section Decoder

variable {D : Type} {env : Env D}

/-- The bytes of the symbols and of the decoded block. -/
def BlockState.heldBytes (b : BlockState D) : ℕ :=
  (b.sourceSymbols.entries.map fun e => e.2.length).sum + (b.completed.getD []).length

/-- The bytes of all blocks in the pool. -/
def Window.heldBytes (w : Window D) : ℕ :=
  (w.pool.keys.map fun k => (w.pool[k]?.map BlockState.heldBytes).getD 0).sum

/-- The largest block that a sane OTI can announce. -/
def maxBlockBytes : ℕ := maxSourceSymbolsPerBlock * symbolSize

/-- No more symbols are stored than a block has. -/
lemma BlockState.Shape.length_entries_le {b : BlockState D} (h : b.Shape) :
    b.sourceSymbols.entries.length ≤ b.k := by
  have hnodup : b.sourceSymbols.keys.Nodup := b.sourceSymbols.keys_nodup
  have hsub : b.sourceSymbols.keys ⊆ List.range b.k := by
    intro i hi
    obtain ⟨s, hs⟩ := Option.isSome_iff_exists.mp (AList.lookup_isSome.mpr (AList.mem_keys.mpr hi))
    exact List.mem_range.mpr (h.symbol_lt hs)
  have hle := (hnodup.subperm hsub).length_le
  rwa [List.length_range, AList.keys, List.keys, List.length_map] at hle

/-- A block holds its bytes twice at most, as symbols and decoded. -/
lemma BlockState.Sized.heldBytes_le {b : BlockState D} (h : b.Sized env.dec) :
    b.heldBytes ≤ 2 * b.blockSize := by
  have hsymbols : (b.sourceSymbols.entries.map fun e => e.2.length).sum ≤ b.k * symbolSize :=
    calc (b.sourceSymbols.entries.map fun e => e.2.length).sum
        ≤ b.sourceSymbols.entries.length * symbolSize :=
          sum_map_le fun e he => (h.shape.symbol_length (AList.mem_lookup_iff.mpr he)).le
      _ ≤ b.k * symbolSize := Nat.mul_le_mul_right _ h.shape.length_entries_le
  have hcompleted : (b.completed.getD []).length ≤ b.blockSize := by
    cases hc : b.completed with
    | none => exact Nat.zero_le _
    | some data => exact (h.completed hc).le
  rw [h.shape.blockSize_eq] at hsymbols
  unfold heldBytes
  omega

/-- The blocks of the pool are no larger than a sane OTI lets them be. -/
lemma Reachable.blockSize_le {c : Conf D} (h : Reachable env c) (hopen : c.point ≠ .closed) {k : ℕ}
    {b : BlockState D} (hk : c.window.pool[k]? = some b) : b.blockSize ≤ maxBlockBytes := by
  refine h.pool (Q := fun b => b.blockSize ≤ maxBlockBytes) ?_ ?_ hopen hk
  · intro ev oti pkt now hev
    obtain ⟨-, j, -, hj, htransfer⟩ := otiIsSane_iff.mp (saneFrame_eq_some.mp hev).2
    show oti.transferLength ≤ maxBlockBytes
    rw [htransfer]
    exact Nat.mul_le_mul_right _ hj
  · intro ev oti pkt b b' _ hb hingest
    rw [BlockState.ingest_blockSize hingest]
    exact hb

/-- The pool spans half an SBN period at most. -/
lemma Reachable.pool_size_le {c : Conf D} (h : Reachable env c) (hopen : c.point ≠ .closed) :
    c.window.pool.size ≤ 128 := by
  have hwf := h.wf hopen
  have hlead := h.highestSeen_le
  have hkeys : ∀ k b, c.window.pool[k]? = some b →
      c.window.cursor ≤ k ∧ k < c.window.cursor + 128 := by
    intro k b hb
    have hhigh := hwf.key_le_highest hb
    exact ⟨hwf.cursor_le_key hb, by omega⟩
  exact BTreeMap.size_le_of_keys_in hkeys

lemma Reachable.heldBytes_le (hlaws : env.dec.LengthLaws) {c : Conf D} (h : Reachable env c)
    (hopen : c.point ≠ .closed) :
    c.window.heldBytes ≤ c.window.pool.size * (2 * maxBlockBytes) := by
  rw [← Std.ExtTreeMap.length_keys]
  refine sum_map_le fun k hk => ?_
  obtain ⟨b, hb⟩ := BTreeMap.mem_keys.mp hk
  rw [hb, Option.map_some, Option.getD_some]
  calc b.heldBytes ≤ 2 * b.blockSize := (h.sized hlaws hopen hb).heldBytes_le
    _ ≤ 2 * maxBlockBytes := Nat.mul_le_mul_left 2 (h.blockSize_le hopen hb)

end Decoder

namespace Dec.Process

variable {D : Type} {env : Env D} {now : Instant} {stdin : Bytes} {acts : List ProcessAction}
  {p : Process D}

/-- The bytes in the reader's window, in the channel and in the pool. -/
def heldBytes (p : Process D) : ℕ :=
  p.reader.scratch.length + (p.queue.map List.length).sum + p.conf.window.heldBytes

/-- The packets in the channel are whole. -/
lemma Inv.length_queue {dacts : List Action} (h : Inv env now stdin dacts p) :
    ∀ pkt ∈ p.queue, pkt.length = tsPacketSize := by
  intro pkt hpkt
  obtain ⟨racts, hrun, -⟩ := h.reader_run
  have hscan := (Reader.inv_of_run hrun).scan_eq
  have hsent : pkt ∈ p.reader.sent.map Prod.snd := by
    rw [h.packets]
    exact List.mem_append_right _ hpkt
  obtain ⟨⟨o, w⟩, hx, rfl⟩ := List.mem_map.mp hsent
  have hmem : (o, w) ∈ tsFormat.scan 0 stdin := by
    rw [hscan]
    exact List.mem_append_left _ hx
  exact (Framing.Format.frame_of_mem_scan hmem).length_eq

/-- **The memory of the decoder process** does not grow with its input. Whatever the bytes, the
reads and the order of the steps, the channel holds at most 1024 packets and the pool at most 128
blocks, and no more than `max_in_flight` when the next packet is waited for; all together hold
less than a fixed number of bytes. -/
theorem decoder_memory_bounded (hlaws : env.dec.LengthLaws)
    (h : runFrom env now stdin acts = some p) (hopen : p.result = none) :
    p.queue.length ≤ channelCapacity ∧ p.conf.window.pool.size ≤ 128 ∧
    (p.conf.point = .recv → p.conf.window.pool.size ≤ env.maxInFlight) ∧
    p.heldBytes ≤
      (1 + channelCapacity) * tsPacketSize + p.conf.window.pool.size * (2 * maxBlockBytes) := by
  have hinv := inv_of_run h
  have hpoint := (hinv.running hopen).open_point
  have hreach : RaptorqTs.Reachable env p.conf := ⟨now, _, hinv.conf_run⟩
  refine ⟨hinv.queue_le, hreach.pool_size_le hpoint, ?_, ?_⟩
  · intro hrecv
    have hwf := hreach.wf hpoint
    have hsettled := hreach.settled hrecv
    exact BTreeMap.size_le_of_keys_in fun k b hb =>
      ⟨hwf.cursor_le_key hb, hsettled.key_lt hb⟩
  · obtain ⟨racts, hrun, -⟩ := hinv.reader_run
    have hscratch := (Reader.inv_of_run hrun).scratch_length
    have hqueue : (p.queue.map List.length).sum ≤ channelCapacity * tsPacketSize :=
      calc (p.queue.map List.length).sum ≤ p.queue.length * tsPacketSize :=
            sum_map_le fun pkt hpkt => (hinv.length_queue pkt hpkt).le
        _ ≤ channelCapacity * tsPacketSize := Nat.mul_le_mul_right _ hinv.queue_le
    have hpool := hreach.heldBytes_le hlaws hpoint
    rw [heldBytes, hscratch, Nat.add_mul, Nat.one_mul]
    omega

/-- The short run, with a block in the pool. -/
theorem decoder_memory_bounded_short : ∃ p : Process Reference.Decoder,
    runFrom (Reference.env 8) 0 shortStdin (shortRun.take 6) = some p ∧
      p.conf.window.pool.size = 1 ∧ p.heldBytes ≤ 1025 * 188 + 2 * maxBlockBytes := by
  have hobs : (runFrom (Reference.env 8) 0 shortStdin (shortRun.take 6)).map (fun p =>
      (p.result, p.conf.window.pool.size)) = some (none, 1) := by
    decide +kernel
  obtain ⟨p, hrun, hp⟩ := Option.map_eq_some_iff.mp hobs
  simp only [Prod.mk.injEq] at hp
  obtain ⟨hopen, hsize⟩ := hp
  have hbound := (decoder_memory_bounded Reference.decoder_lengthLaws hrun hopen).2.2.2
  rw [hsize, Nat.one_mul] at hbound
  exact ⟨p, hrun, hsize, hbound⟩

end Dec.Process

/-! ## The encoder -/

namespace Enc

section Encoder

variable {E R : Type} {enc : SourceBlockEncoder E} {coin : R → Bool × R} {args : Params}
  {e e' : Encoder E R}

/-- The packets of the current block that have not been sent. -/
def Encoder.inHand (e : Encoder E R) : ℕ :=
  match e.point with
  | .emitting _ packets => packets.rest.length
  | .sendingExtra _ _ => 1
  | .receiving | .exited => 0

lemma Encoder.ring_step {a : EncoderAction} (h : e.ring.length ≤ maxRing)
    (hstep : Encoder.step enc coin args e a = some e') : e'.ring.length ≤ maxRing := by
  cases Encoder.step_moves hstep with
  | recv _ => exact h
  | nap _ _ _ => exact length_pruneRing_le _ _ _
  | mint _ _ _ _ =>
    rw [List.length_set]
    exact length_pruneRing_le _ _ _
  | send _ _ => exact h
  | finish _ _ =>
    unfold Encoder.onFinish
    simp only
    split
    · exact length_pruneRing_le _ _ _
    · exact h
  | sendExtra _ => exact h
  | exit _ => exact h

/-- A block that is received comes with its packets, and they get fewer from there. -/
lemma Encoder.inHand_step {code : FountainCode} {k : ℕ} (hfits : args.Fits k)
    (henc : enc.Laws code args.oti k) {a : EncoderAction}
    (hblocks : ∀ b ∈ e'.received, b.length = k * symbolSize)
    (h : e.inHand ≤ k + args.baselineRepair)
    (hstep : Encoder.step enc coin args e a = some e') :
    e'.inHand ≤ k + args.baselineRepair := by
  have hpos := hfits.k_pos
  cases Encoder.step_moves hstep with
  | @recv block _ =>
    have hlength : block.length = args.oti.transferLength := by
      rw [hblocks block (List.mem_append_right _ (List.mem_singleton_self _)), hfits.oti_eq]
      rfl
    have hesi := hfits.esi_le
    simp only [inHand, onRecv, interleave, Interleave.rest, henc.sourcePackets_new _ _ hlength,
      henc.repairPackets_new e.sbn _ 0 args.baselineRepair hlength (by omega), List.length_append,
      List.length_map, List.length_range]
    exact Nat.le_refl _
  | nap hpoint _ _ =>
    simp only [inHand, hpoint]
    omega
  | mint _ _ _ _ =>
    simp only [inHand]
    split
    · rename_i hpoint
      split at hpoint <;> cases hpoint
    · omega
    · exact Nat.zero_le _
    · exact Nat.zero_le _
  | send hpoint hnext =>
    have hrest := Interleave.length_rest hnext
    simp only [inHand, hpoint] at h ⊢
    omega
  | finish _ _ => exact Nat.zero_le _
  | sendExtra _ => exact Nat.zero_le _
  | exit _ => exact Nat.zero_le _

/-- What the thread holds, in a run on blocks of `k` symbols. -/
lemma Encoder.held_of_run {code : FountainCode} {k : ℕ} (hfits : args.Fits k)
    (henc : enc.Laws code args.oti k) {rng : R} {acts : List EncoderAction}
    (hrun : Machine.run (Encoder.step enc coin args) (Encoder.init rng) acts = some e)
    (hblocks : ∀ b ∈ e.received, b.length = k * symbolSize) :
    e.ring.length ≤ maxRing ∧ e.inHand ≤ k + args.baselineRepair := by
  revert hblocks
  refine Machine.run_induction (P := fun _ (e : Encoder E R) =>
    (∀ b ∈ e.received, b.length = k * symbolSize) →
      e.ring.length ≤ maxRing ∧ e.inHand ≤ k + args.baselineRepair) ?_ ?_ hrun
  · intro _
    exact ⟨Nat.zero_le _, Nat.zero_le _⟩
  · intro _ e _ e' _ ih hstep hblocks
    have hbefore : ∀ b ∈ e.received, b.length = k * symbolSize :=
      fun b hb => hblocks b ((Encoder.received_step hstep).subset hb)
    obtain ⟨hring, hhand⟩ := ih hbefore
    exact ⟨Encoder.ring_step hring hstep, Encoder.inHand_step hfits henc hblocks hhand hstep⟩

end Encoder

namespace Pipeline

variable {E R : Type} {setup : Setup E R} {stdin : Bytes} {rng : R} {p : Pipeline E R}
  {code : FountainCode} {k : ℕ}

/-- **The memory of the encoder process** does not grow with its input either: in every
interleaving of its threads the two channels hold no more blocks and packets than their capacities,
all of the fixed sizes, the encoder has at most the packets of one block in hand, and the ring
keeps the encoders of at most 64 blocks. -/
theorem encoder_memory_bounded (hfits : setup.args.Fits k) (hcode : code.Laws symbolSize)
    (henc : setup.enc.Laws code setup.args.oti k) (h : Reachable setup stdin rng p) :
    (p.blocks.map List.length).sum ≤ setup.blockCap * (k * symbolSize) ∧
    (p.packets.map fun x => x.packet.data.length).sum ≤ setup.packetCap * symbolSize ∧
    p.encoder.inHand ≤ k + setup.args.baselineRepair ∧ p.encoder.ring.length ≤ maxRing := by
  have hinv := h.inv
  have hblocks := hinv.sent_length hfits
  have hwf := streamOf_wf hcode hfits.k_pos hfits.k_le hblocks
  obtain ⟨acts, hrun, -⟩ := hinv.encoder_run
  have hsent := Encoder.Reachable.inv (hinv.serves hfits henc) ⟨acts, hrun⟩ hinv.reads
  have hheld := Encoder.held_of_run hfits henc hrun
    fun b hb => hblocks b (hinv.blocks.received_initial.subset hb)
  refine ⟨?_, ?_, hheld.2, hheld.1⟩
  · calc (p.blocks.map List.length).sum
        ≤ p.blocks.length * (k * symbolSize) := by
          refine sum_map_le fun b hb => ?_
          have hmem : b ∈ p.reader.sent := by
            rw [hinv.blocks]
            exact List.mem_append_right _ hb
          exact (hblocks b hmem).le
      _ ≤ setup.blockCap * (k * symbolSize) := Nat.mul_le_mul_right _ hinv.blocks_le
  · calc (p.packets.map fun x => x.packet.data.length).sum
        ≤ p.packets.length * symbolSize := by
          refine sum_map_le fun x hx => ?_
          have hmem : x ∈ p.encoder.sent := by
            rw [hinv.packets]
            exact List.mem_append_right _ hx
          have hpacket : x.packet = (streamOf code k p.reader.sent).packet x.origin :=
            (hsent.mints x hmem).1.1
          rw [hpacket]
          exact (hwf.packet_length _).le
      _ ≤ setup.packetCap * symbolSize := Nat.mul_le_mul_right _ hinv.packets_le

/-- The short run, with the only packet in the channel. -/
theorem encoder_memory_bounded_short : ∃ p : Pipeline Reference.Encoder Unit,
    Reachable shortSetup Reference.stdin () p ∧ p.packets.length = 1 ∧
      (p.packets.map fun x => x.packet.data.length).sum ≤ 167 := by
  have hobs : (Machine.run (step shortSetup) (init shortSetup Reference.stdin ())
      (shortRun.take 7)).map (fun p => p.packets.length) = some 1 := by
    decide +kernel
  obtain ⟨p, hrun, hp⟩ := Option.map_eq_some_iff.mp hobs
  have hfits : shortSetup.args.Fits 1 := Reference.params_fits
  have hreach : Reachable shortSetup Reference.stdin () p := ⟨_, hrun⟩
  exact ⟨p, hreach, hp, (encoder_memory_bounded hfits Reference.code_laws
    (Reference.encoder_laws rfl) hreach).2.1⟩

end Pipeline

end Enc

end RaptorqTs
