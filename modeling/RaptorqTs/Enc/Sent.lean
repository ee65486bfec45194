import RaptorqTs.Enc.Encoder
import RaptorqTs.Stream

/-!
# What the encoder sends

Every packet sent is a packet of the stream, from a block that has been received, and no
packet is from a block 64 or more before that of a packet sent earlier: extra repair symbols
come from the ring, which holds the last 64 blocks at most.
-/

namespace RaptorqTs

namespace Enc

/-- The origin of a packet sent. -/
def Sent.origin (x : Sent) : Origin := ⟨x.block, x.packet.payloadId.encodingSymbolId⟩

/-- The encoder of the block `l` of the stream. -/
def blockEncoder {E : Type} (enc : SourceBlockEncoder E) (S : Stream) (l : ℕ) : E :=
  enc.new (sbnOf l) S.oti (S.block l)

/-! ## The ring -/

/-- The ring holds the encoders of the last blocks of the first `n`, in order. -/
structure RingOk {E : Type} (enc : SourceBlockEncoder E) (S : Stream) (args : Params) (n : ℕ)
    (ring : List (BlockGen E)) : Prop where
  length_le : ring.length ≤ maxRing
  recent : ring.map BlockGen.index <:+ List.range n
  encoder : ∀ bg ∈ ring, bg.encoder = blockEncoder enc S bg.index ∧ bg.maxRepair = args.maxRepair
  unused : args.minting = false → ring = []

namespace RingOk

variable {E : Type} {enc : SourceBlockEncoder E} {S : Stream} {args : Params} {n : ℕ}
  {ring ring' : List (BlockGen E)}

lemma nil : RingOk enc S args n [] where
  length_le := Nat.zero_le _
  recent := List.nil_suffix
  encoder bg hbg := by cases hbg
  unused _ := rfl

/-- A block in the ring is one of the last 64. -/
lemma index_bounds (h : RingOk enc S args n ring) {bg : BlockGen E} (hbg : bg ∈ ring) :
    bg.index < n ∧ n ≤ bg.index + maxRing := by
  obtain ⟨older, holder⟩ := h.recent
  obtain ⟨j, hj, hget⟩ := List.mem_iff_getElem.mp hbg
  -- the ring is the end of the list of all blocks, so positions in it tell indices
  have hlen : older.length + ring.length = n := by
    have := congrArg List.length holder
    simpa using this
  have hindex : bg.index = older.length + j := by
    have hrange : (older ++ ring.map BlockGen.index)[older.length + j]? = some bg.index := by
      rw [List.getElem?_append_right (by omega), Nat.add_sub_cancel_left, List.getElem?_map,
        List.getElem?_eq_getElem hj, hget]
      rfl
    rw [holder, List.getElem?_range (by omega), Option.some.injEq] at hrange
    exact hrange.symm
  have := h.length_le
  omega

/-- The blocks in the ring are different. -/
lemma index_inj (h : RingOk enc S args n ring) {i j : ℕ} {a b : BlockGen E}
    (hi : ring[i]? = some a) (hj : ring[j]? = some b) (hab : a.index = b.index) : i = j := by
  have hnodup : (ring.map BlockGen.index).Nodup := List.nodup_range.sublist h.recent.sublist
  obtain ⟨hi', rfl⟩ := List.getElem?_eq_some_iff.mp hi
  obtain ⟨hj', rfl⟩ := List.getElem?_eq_some_iff.mp hj
  have hi'' : i < (ring.map BlockGen.index).length := by rwa [List.length_map]
  have hj'' : j < (ring.map BlockGen.index).length := by rwa [List.length_map]
  have hsame : (ring.map BlockGen.index)[i] = (ring.map BlockGen.index)[j] := by
    rw [List.getElem_map, List.getElem_map, hab]
  exact hnodup.getElem_inj_iff.mp hsame

lemma suffix (h : RingOk enc S args n ring) (hs : ring' <:+ ring) : RingOk enc S args n ring' where
  length_le := le_trans hs.length_le h.length_le
  recent := (hs.map _).trans h.recent
  encoder bg hbg := h.encoder bg (hs.subset hbg)
  unused hplain := by
    rw [h.unused hplain] at hs
    exact List.suffix_nil.mp hs

/-- The block `n` has been emitted and pushed. -/
lemma push (h : RingOk enc S args n ring) (hminting : args.minting = true) {bg : BlockGen E}
    (hindex : bg.index = n)
    (hbg : bg.encoder = blockEncoder enc S n ∧ bg.maxRepair = args.maxRepair)
    (clock : ℕ → Instant) :
    RingOk enc S args (n + 1) (pruneRing clock args.horizon (ring ++ [bg])) := by
  have hs := pruneRing_suffix clock args.horizon (ring ++ [bg])
  refine ⟨length_pruneRing_le _ _ _, (hs.map _).trans ?_, fun bg' hbg' => ?_, fun hplain => ?_⟩
  · obtain ⟨older, holder⟩ := h.recent
    refine ⟨older, ?_⟩
    rw [List.map_append, ← List.append_assoc, holder, List.range_succ, List.map_singleton, hindex]
  · rcases List.mem_append.mp (hs.subset hbg') with hold | hnew
    · exact h.encoder bg' hold
    · rw [List.mem_singleton.mp hnew, hindex]
      exact hbg
  · rw [hminting] at hplain
    cases hplain

/-- Another repair symbol of a block in the ring has been minted. -/
lemma mint (h : RingOk enc S args n ring) {idx : ℕ} {bg : BlockGen E} (hbg : ring[idx]? = some bg)
    (id : ℕ) : RingOk enc S args n (ring.set idx { bg with nextRepairId := id }) := by
  have hmem : bg ∈ ring := List.mem_of_getElem? hbg
  refine ⟨by rw [List.length_set]; exact h.length_le, ?_, fun bg' hbg' => ?_, fun hplain => ?_⟩
  · have hsame : (ring.map BlockGen.index).set idx bg.index = ring.map BlockGen.index := by
      have hmap : (ring.map BlockGen.index)[idx]? = some bg.index := by
        rw [List.getElem?_map, hbg]
        rfl
      obtain ⟨_, hget⟩ := List.getElem?_eq_some_iff.mp hmap
      rw [← hget, List.set_getElem_self]
    rw [List.map_set]
    show (ring.map BlockGen.index).set idx bg.index <:+ List.range n
    rw [hsame]
    exact h.recent
  · rcases List.mem_or_eq_of_mem_set hbg' with hold | rfl
    · exact h.encoder bg' hold
    · exact h.encoder bg hmem
  · rw [h.unused hplain] at hmem
    cases hmem

end RingOk

/-! ## The thread -/

namespace Encoder

variable {E R : Type} {enc : SourceBlockEncoder E} {coin : R → Bool × R} {args : Params}
  {S : Stream} {s s' : Encoder E R}

/-- The encoder runs on the stream: its OTI, blocks of the stream's size, and repair ids
that leave the ESIs within 24 bits. -/
structure Serves (enc : SourceBlockEncoder E) (args : Params) (S : Stream) : Prop where
  laws : enc.Laws S.code S.oti S.k
  oti_eq : args.oti = S.oti
  block_length : ∀ l, (S.block l).length = S.blockSize
  esi_le : S.k + max args.baselineRepair args.maxRepair ≤ 2 ^ 24

/-- The blocks received are those of the stream. -/
def Reads (S : Stream) (s : Encoder E R) : Prop :=
  ∀ (i : ℕ) b, s.received[i]? = some b → S.block i = b

/-- What the program point says about the other variables. -/
def AtPoint (enc : SourceBlockEncoder E) (args : Params) (S : Stream) (s : Encoder E R) : Prop :=
  match s.point with
  | .receiving => s.sbn = sbnOf s.received.length ∧ RingOk enc S args s.received.length s.ring
  | .emitting encoder packets => ∃ n, s.received.length = n + 1 ∧ s.sbn = sbnOf n ∧
      encoder = blockEncoder enc S n ∧ (∀ p ∈ packets.rest, S.Mints n p) ∧
      RingOk enc S args n s.ring
  | .sendingExtra packet l => s.sbn = sbnOf s.received.length ∧
      RingOk enc S args s.received.length s.ring ∧ S.Mints l packet ∧
      l < s.received.length ∧ s.received.length ≤ l + maxRing
  | .exited => True

/-- The invariant of the thread. -/
structure Inv (enc : SourceBlockEncoder E) (args : Params) (S : Stream) (s : Encoder E R) :
    Prop where
  mints : ∀ x ∈ s.sent, S.Mints x.block x.packet ∧ x.block < s.received.length
  lag : s.sent.Pairwise fun x y => x.block < y.block + maxRing
  at_point : AtPoint enc args S s

lemma Inv.init (rng : R) : Inv enc args S (init rng : Encoder E R) where
  mints x hx := by cases hx
  lag := List.Pairwise.nil
  at_point := ⟨rfl, RingOk.nil⟩

lemma Inv.receiving (h : Inv enc args S s) (hpoint : s.point = .receiving) :
    s.sbn = sbnOf s.received.length ∧ RingOk enc S args s.received.length s.ring := by
  have hat := h.at_point
  unfold AtPoint at hat
  rwa [hpoint] at hat

/-- A block is received, and its packets are prepared. -/
lemma Inv.recv (hs : Serves enc args S) (h : Inv enc args S s) (hpoint : s.point = .receiving)
    {block : Bytes} (hreads : Reads S (s.onRecv enc args block)) :
    Inv enc args S (s.onRecv enc args block) := by
  obtain ⟨hsbn, hring⟩ := h.receiving hpoint
  have hblock : S.block s.received.length = block := by
    apply hreads
    show (s.received ++ [block])[s.received.length]? = some block
    simp
  have hlen : block.length = S.oti.transferLength := by
    rw [← hblock, hs.block_length]
    rfl
  have hmax := hs.esi_le
  refine ⟨fun x hx => ?_, h.lag, s.received.length, ?_, hsbn, ?_, ?_, hring⟩
  · obtain ⟨hm, hlt⟩ := h.mints x hx
    refine ⟨hm, ?_⟩
    show x.block < (s.received ++ [block]).length
    rw [List.length_append]
    omega
  · show (s.received ++ [block]).length = _
    rw [List.length_append, List.length_singleton]
  · rw [blockEncoder, hblock, hsbn, hs.oti_eq]
  · intro p hp
    unfold Interleave.rest interleave at hp
    simp only [hsbn, hs.oti_eq] at hp
    -- a source packet, or one of the baseline repair
    rcases List.mem_append.mp hp with hp | hp
    · rw [hs.laws.sourcePackets_new _ _ hlen] at hp
      obtain ⟨i, hi, rfl⟩ := List.mem_map.mp hp
      rw [List.mem_range] at hi
      rw [← hblock]
      exact Stream.mints_packet (by omega)
    · rw [hs.laws.repairPackets_new _ _ _ _ hlen (by omega)] at hp
      obtain ⟨i, hi, rfl⟩ := List.mem_map.mp hp
      rw [List.mem_range] at hi
      rw [← hblock]
      exact Stream.mints_packet (by omega)

/-- The next packet of the block is sent. -/
lemma Inv.send (h : Inv enc args S s) {encoder : E} {packets packets' : Interleave}
    {packet : EncodingPacket} (hpoint : s.point = .emitting encoder packets)
    (hnext : packets.next = some (packet, packets')) :
    Inv enc args S { s with
      point := .emitting encoder packets'
      sent := s.sent ++ [⟨packet, s.received.length - 1⟩] } := by
  have hat := h.at_point
  unfold AtPoint at hat
  rw [hpoint] at hat
  obtain ⟨n, hlen, hsbn, hencoder, hrest, hring⟩ := hat
  obtain ⟨hpacket, hsub⟩ := Interleave.next_rest hnext
  have hn : s.received.length - 1 = n := by omega
  rw [hn]
  refine ⟨fun x hx => ?_, ?_, n, hlen, hsbn, hencoder, fun p hp => hrest p (hsub p hp), hring⟩
  · rcases List.mem_append.mp hx with hold | hnew
    · exact h.mints x hold
    · rw [List.mem_singleton.mp hnew]
      exact ⟨hrest packet hpacket, by show n < s.received.length; omega⟩
  · refine List.pairwise_append.mpr ⟨h.lag, List.pairwise_singleton _ _, fun x hx y hy => ?_⟩
    have := (h.mints x hx).2
    rw [List.mem_singleton.mp hy]
    show x.block < n + maxRing
    unfold maxRing
    omega

/-- The block has been emitted. -/
lemma Inv.finish (h : Inv enc args S s) {encoder : E} {packets : Interleave}
    (hpoint : s.point = .emitting encoder packets) (created : Instant) (clock : ℕ → Instant) :
    Inv enc args S (s.onFinish args encoder created clock) := by
  have hat := h.at_point
  unfold AtPoint at hat
  rw [hpoint] at hat
  obtain ⟨n, hlen, hsbn, hencoder, -, hring⟩ := hat
  refine ⟨h.mints, h.lag, ?_, ?_⟩
  · show s.sbn + 1 = sbnOf s.received.length
    rw [hsbn, hlen, sbnOf_succ]
  · show RingOk enc S args s.received.length _
    rw [hlen]
    unfold onFinish
    cases hminting : args.minting with
    | true =>
      exact hring.push hminting (by show s.received.length - 1 = n; omega) ⟨hencoder, rfl⟩ clock
    | false =>
      show RingOk enc S args (n + 1) s.ring
      rw [hring.unused hminting]
      exact RingOk.nil

/-- What an idle slot mints: the next repair symbol of a block in the ring, which is below the
ceiling. -/
lemma Inv.minted (hs : Serves enc args S) (h : Inv enc args S s) (hpoint : s.point = .receiving)
    {clock : ℕ → Instant} {rng : R} {idx : ℕ} {bg : BlockGen E}
    (hpick : pickBlock coin (pruneRing clock args.horizon s.ring) s.rng = (some idx, rng))
    (hbg : (pruneRing clock args.horizon s.ring)[idx]? = some bg) :
    (enc.repairPackets bg.encoder bg.nextRepairId 1).getLast? =
        some (S.packet ⟨bg.index, S.k + bg.nextRepairId⟩) ∧
      bg.nextRepairId < args.maxRepair := by
  have hpruned := (h.receiving hpoint).2.suffix (pruneRing_suffix clock args.horizon s.ring)
  obtain ⟨hencoder, hmax⟩ := hpruned.encoder bg (List.mem_of_getElem? hbg)
  -- the block picked is not exhausted, so the ESI of its next repair symbol fits 24 bits
  obtain ⟨bg', hbg', hlive⟩ : Live (pruneRing clock args.horizon s.ring) idx :=
    pickBlock_live coin (congrArg Prod.fst hpick)
  obtain rfl := Option.some.inj (hbg.symm.trans hbg')
  unfold BlockGen.exhausted at hlive
  rw [decide_eq_false_iff_not, hmax, not_le] at hlive
  have hesi := hs.esi_le
  refine ⟨?_, hlive⟩
  rw [hencoder, blockEncoder, hs.laws.repairPackets_new _ _ _ _ (hs.block_length _) (by omega)]
  rfl

/-- A repair symbol of a block in the ring is minted in an idle slot. -/
lemma Inv.mint (hs : Serves enc args S) (h : Inv enc args S s) (hpoint : s.point = .receiving)
    {clock : ℕ → Instant} {rng : R} {idx : ℕ} {bg : BlockGen E}
    (hpick : pickBlock coin (pruneRing clock args.horizon s.ring) s.rng = (some idx, rng))
    (hbg : (pruneRing clock args.horizon s.ring)[idx]? = some bg) :
    Inv enc args S { s with
      point := match (enc.repairPackets bg.encoder bg.nextRepairId 1).getLast? with
        | some packet => .sendingExtra packet bg.index
        | none => .receiving
      ring := (pruneRing clock args.horizon s.ring).set idx
        { bg with nextRepairId := bg.nextRepairId + 1 }
      rng := rng } := by
  obtain ⟨hsbn, hring⟩ := h.receiving hpoint
  have hpruned := hring.suffix (pruneRing_suffix clock args.horizon s.ring)
  obtain ⟨hlt, hle⟩ := hpruned.index_bounds (List.mem_of_getElem? hbg)
  obtain ⟨hextra, hlive⟩ := h.minted hs hpoint hpick hbg
  have hesi := hs.esi_le
  simp only [hextra]
  exact ⟨h.mints, h.lag, hsbn, hpruned.mint hbg _, Stream.mints_packet (by omega), hlt, hle⟩

/-- The extra repair symbol is sent. -/
lemma Inv.sendExtra (h : Inv enc args S s) {packet : EncodingPacket} {l : ℕ}
    (hpoint : s.point = .sendingExtra packet l) :
    Inv enc args S { s with point := .receiving, sent := s.sent ++ [⟨packet, l⟩] } := by
  have hat := h.at_point
  unfold AtPoint at hat
  rw [hpoint] at hat
  obtain ⟨hsbn, hring, hmints, hlt, hle⟩ := hat
  refine ⟨fun x hx => ?_, ?_, hsbn, hring⟩
  · rcases List.mem_append.mp hx with hold | hnew
    · exact h.mints x hold
    · rw [List.mem_singleton.mp hnew]
      exact ⟨hmints, hlt⟩
  · refine List.pairwise_append.mpr ⟨h.lag, List.pairwise_singleton _ _, fun x hx y hy => ?_⟩
    have := (h.mints x hx).2
    rw [List.mem_singleton.mp hy]
    show x.block < l + maxRing
    omega

/-- One step, if the blocks received are those of the stream. -/
lemma Inv.step (hs : Serves enc args S) (h : Inv enc args S s) {a : EncoderAction}
    (hstep : step enc coin args s a = some s') (hreads : Reads S s') : Inv enc args S s' := by
  cases step_moves hstep with
  | recv hpoint => exact h.recv hs hpoint hreads
  | @nap clock rng hpoint _ _ =>
    obtain ⟨hsbn, hring⟩ := h.receiving hpoint
    refine ⟨h.mints, h.lag, ?_⟩
    unfold AtPoint
    simp only [hpoint]
    exact ⟨hsbn, hring.suffix (pruneRing_suffix clock args.horizon s.ring)⟩
  | mint hpoint _ hpick hbg => exact h.mint hs hpoint hpick hbg
  | send hpoint hnext => exact h.send hpoint hnext
  | finish hpoint _ => exact h.finish hpoint _ _
  | sendExtra hpoint => exact h.sendExtra hpoint
  | exit _ => exact ⟨h.mints, h.lag, trivial⟩

/-- A step receives at most one block more. -/
lemma received_step {a : EncoderAction} (hstep : step enc coin args s a = some s') :
    s.received <+: s'.received := by
  cases step_moves hstep with
  | recv _ => exact List.prefix_append _ _
  | nap _ _ _ => exact List.prefix_rfl
  | mint _ _ _ _ => exact List.prefix_rfl
  | send _ _ => exact List.prefix_rfl
  | finish _ _ => exact List.prefix_rfl
  | sendExtra _ => exact List.prefix_rfl
  | exit _ => exact List.prefix_rfl

/-- The blocks received stay received. -/
lemma received_run {acts : List EncoderAction}
    (h : Machine.run (step enc coin args) s acts = some s') : s.received <+: s'.received :=
  Machine.run_induction (P := fun _ t => s.received <+: t.received) List.prefix_rfl
    (fun _ _ _ _ _ hP hstep => hP.trans (received_step hstep)) h

lemma Reads.mono (h : Reads S s') (hp : s.received <+: s'.received) : Reads S s := by
  intro i b hb
  obtain ⟨more, hmore⟩ := hp
  apply h
  rw [← hmore, List.getElem?_append_left (List.getElem?_eq_some_iff.mp hb).1, hb]

/-- **What the encoder sends**, in every run on the blocks of a stream. -/
theorem Reachable.inv (hs : Serves enc args S) {rng : R} (h : Reachable enc coin args rng s)
    (hreads : Reads S s) : Inv enc args S s := by
  refine Machine.Reachable.invariant (P := fun s => Reads S s → Inv enc args S s)
    (fun _ => Inv.init rng) ?_ h hreads
  intro s a s' _ ih hstep hreads'
  exact (ih (hreads'.mono (received_step hstep))).step hs hstep hreads'

/-- **Induction over a run with a writer** on the blocks of a stream. -/
theorem alive_induction (hs : Serves enc args S) {rng : R}
    {P : List EncoderAction → Encoder E R → Prop} (h₀ : P [] (init rng))
    (hstep : ∀ acts s a s', Machine.run (step enc coin args) (init rng) acts = some s →
      (∀ b ∈ acts, b ≠ .dropped) → Reads S s → Inv enc args S s → P acts s → a ≠ .dropped →
      step enc coin args s a = some s' → Reads S s' → P (acts ++ [a]) s')
    {acts : List EncoderAction}
    (hrun : Machine.run (step enc coin args) (init rng) acts = some s)
    (halive : ∀ a ∈ acts, a ≠ .dropped) (hreads : Reads S s) : P acts s := by
  refine Machine.run_induction_forall (P := fun acts s => Reads S s → P acts s) (fun _ => h₀) ?_
    halive hrun hreads
  intro acts s a s' hrun halive ih ha hstep' hreads'
  have hreads := hreads'.mono (received_step hstep')
  exact hstep acts s a s' hrun halive hreads (Reachable.inv hs ⟨acts, hrun⟩ hreads) (ih hreads)
    ha hstep' hreads'

end Encoder

end Enc

end RaptorqTs
