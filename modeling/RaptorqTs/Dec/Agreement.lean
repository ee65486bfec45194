import RaptorqTs.Dec.OwnOti
import RaptorqTs.Dec.Recovery
import RaptorqTs.Dec.Routing
import Mathlib.Data.Set.Basic

/-!
# Frames that agree on the OTI

Nothing in the decoder compares the OTI of a frame with that of the block the frame goes into, so
the frames decide. When those that can arrive carry one OTI for each SBN, every block is fed packets
of its own OTI; and two frames that do not agree can be put into one block.
-/

namespace RaptorqTs

variable {D : Type} {env : Env D}

/-- The packet opens a block and leaves it incomplete. -/
def LeavesOpen (dec : SourceBlockDecoder D) (oti : ObjectTransmissionInformation)
    (pkt : EncodingPacket) : Prop :=
  ∃ d, dec.decode (dec.new pkt.payloadId.sourceBlockNumber oti oti.transferLength) pkt =
    some (none, d)

/-- Of the sane data frames among those that can arrive, any two with one SBN carry one OTI, unless
the first of them completes a block by itself. -/
def OtisAgree (env : Env D) (arriving : Set Bytes) : Prop :=
  ∀ f ∈ arriving, ∀ g ∈ arriving, ∀ oti pkt oti' pkt',
    saneFrame env (.frame f) = some (oti, pkt) → saneFrame env (.frame g) = some (oti', pkt') →
      pkt.payloadId.sourceBlockNumber = pkt'.payloadId.sourceBlockNumber →
        LeavesOpen env.dec oti pkt → oti = oti'

/-! ## Blocks of frames that agree -/

section replay

variable {dec : SourceBlockDecoder D} {first : Ingestion} {rest : List Ingestion}
  {b : BlockState D}

/-- A block has the SBN of the packet that has opened it. -/
lemma replay_sourceBlockId (hsbn : dec.SbnLaws) (h : replay dec first rest = some b) :
    dec.sourceBlockId b.decoder = first.packet.payloadId.sourceBlockNumber := by
  refine Machine.Reachable.invariant (P := fun b : BlockState D =>
    dec.sourceBlockId b.decoder = first.packet.payloadId.sourceBlockNumber) ?_ ?_ ⟨_, h⟩
  · exact hsbn.new_sourceBlockId _ _ _
  · intro b i b' _ ih hi
    rw [BlockState.ingest_sourceBlockId hsbn hi, ih]

/-- A block that is incomplete was left so by its first packet. -/
lemma replay_leavesOpen (h : replay dec first rest = some b) (hb : b.completed = none) :
    LeavesOpen dec first.oti first.packet := by
  obtain ⟨b₁, hfirst, hrest⟩ := Machine.run_cons_eq_some.mp h
  rcases BlockState.ingest_cases hfirst with ⟨hnew, -⟩ | ⟨-, r, d, hdecode, hb₁⟩
  · cases hnew
  cases r with
  | none => exact ⟨d, hdecode⟩
  | some data =>
    -- it would have stayed complete
    have hdata : b₁.completed = some data := by rw [hb₁]
    have hkept : b.completed = some data := by
      refine Machine.Reachable.invariant (P := fun b : BlockState D => b.completed = some data)
        hdata ?_ ⟨_, hrest⟩
      intro b i b' _ ih hi
      rw [BlockState.ingest_of_completed ih hi, ih]
    rw [hb] at hkept
    cases hkept

end replay

/-- A packet that is ingested has come in a frame. -/
lemma saneFrame_of_ingestion {w : Window D} {a : Action} {i : Ingestion}
    (hi : i ∈ ingestion env w a) :
    ∃ bytes, frameBytes a = some bytes ∧ saneFrame env (.frame bytes) = some (i.oti, i.packet) := by
  cases a with
  | event now ev =>
    cases hev : saneFrame env ev with
    | none => simp [ingestion, hev] at hi
    | some f =>
      obtain ⟨oti, pkt⟩ := f
      have hmem : i = ⟨w.route pkt.payloadId.sourceBlockNumber, now, oti, pkt⟩ := by
        unfold ingestion at hi
        simp only [hev] at hi
        split_ifs at hi
        · cases hi
        · exact List.mem_singleton.mp hi
      subst hmem
      cases ev with
      | frame bytes => exact ⟨bytes, rfl, hev⟩
      | tick => cases hev
  | pass _ | disconnect => cases hi

section Run

variable {now : Instant} {acts : List Action} {c : Conf D} {arriving : Set Bytes}

lemma saneFrame_of_mem_ingestions (h : runFrom env now acts = some c) {i : Ingestion}
    (hi : i ∈ ingestions env now acts) :
    ∃ bytes ∈ acts.filterMap frameBytes,
      saneFrame env (.frame bytes) = some (i.oti, i.packet) := by
  refine Machine.run_induction (P := fun acts (_ : Conf D) => i ∈ ingestions env now acts →
    ∃ bytes ∈ acts.filterMap frameBytes, saneFrame env (.frame bytes) = some (i.oti, i.packet))
    (fun hi => by cases hi) ?_ h hi
  intro acts m a m' hrun ih _ hi
  rw [ingestions_concat hrun] at hi
  rw [List.filterMap_append]
  rcases List.mem_append.mp hi with hi | hi
  · obtain ⟨bytes, hbytes, hsane⟩ := ih hi
    exact ⟨bytes, List.mem_append_left _ hbytes, hsane⟩
  · obtain ⟨bytes, hbytes, hsane⟩ := saneFrame_of_ingestion hi
    refine ⟨bytes, List.mem_append_right _ ?_, hsane⟩
    exact List.mem_filterMap.mpr ⟨a, List.mem_singleton_self a, hbytes⟩

/-- A packet that goes into a block after others has the SBN of the first, which has left the
block incomplete. -/
lemma first_of_ingestion (hsbn : env.dec.SbnLaws) (hrun : runFrom env now acts = some c)
    {a : Action} {c' : Conf D} (hstep : step env c a = some c') {j : Ingestion}
    (hj : j ∈ ingestion env c.window a) {first : Ingestion} {rest : List Ingestion}
    (hfirst : fedTo (ingestions env now acts) j.logical = first :: rest) :
    first.packet.payloadId.sourceBlockNumber = j.packet.payloadId.sourceBlockNumber ∧
      LeavesOpen env.dec first.oti first.packet := by
  have hfed := run_fed hrun
  have hm := step_moves hstep
  generalize c.point = p, c.window = w, c'.point = p', c'.window = w' at hm hfed hj
  cases hm with
  | @drop _ now ev hdrop =>
    rw [ingestion_of_not_accepted (acceptedBlock_of_dropped hdrop)] at hj
    cases hj
  | @ignore _ now ev hev =>
    rw [ingestion_of_not_accepted (acceptedBlock_of_dataFrame hev)] at hj
    cases hj
  | @accept _ now' ev oti pkt b hev hred hb =>
    rw [ingestion_of_accepted now' hev hred] at hj
    split_ifs at hj with hfull
    · cases hj
    rw [List.mem_singleton.mp hj] at hfirst ⊢
    cases hold : w.pool[w.route pkt.payloadId.sourceBlockNumber]? with
    | none =>
      rw [hfed.fedTo_eq_nil (by decide) hred hold] at hfirst
      cases hfirst
    | some b₀ =>
      rw [Window.entry_of_get hold] at hb hfull
      obtain ⟨first', rest', hsplit, hreplay⟩ := hfed.built _ b₀ hold
      obtain ⟨rfl, rfl⟩ := List.cons.inj (hfirst.symm.trans hsplit)
      have hopen : b₀.completed = none := by simpa using hfull
      refine ⟨?_, replay_leavesOpen hreplay hopen⟩
      rcases BlockState.ingest_cases hb with ⟨hdone, -⟩ | ⟨-, r, d, hdecode, -⟩
      · exact absurd hdone hfull
      · rw [hsbn.decode_asserts hdecode, replay_sourceBlockId hsbn hreplay]
  | advance _ => cases hj
  | settle _ => cases hj
  | flush => cases hj

/-- The frames of a run agree if those that can arrive do. -/
lemma agreeing_of_otisAgree (hsbn : env.dec.SbnLaws) (hagree : OtisAgree env arriving)
    (hrun : runFrom env now acts = some c)
    (harrive : ∀ f ∈ acts.filterMap frameBytes, f ∈ arriving) :
    Agreeing (ingestions env now acts) := by
  refine Machine.run_induction (P := fun acts (_ : Conf D) =>
    (∀ f ∈ acts.filterMap frameBytes, f ∈ arriving) → Agreeing (ingestions env now acts))
    (fun _ => List.Pairwise.nil) ?_ hrun harrive
  intro acts m a m' hrun ih hstep harrive
  have harrive' : ∀ f ∈ acts.filterMap frameBytes, f ∈ arriving := by
    intro f hf
    apply harrive
    rw [List.filterMap_append]
    exact List.mem_append_left _ hf
  have hrun' : runFrom env now (acts ++ [a]) = some m' :=
    Machine.run_concat_eq_some.mpr ⟨m, hrun, hstep⟩
  have hagreeing := ih harrive'
  have hframe : ∀ x ∈ ingestions env now (acts ++ [a]), ∃ f ∈ arriving,
      saneFrame env (.frame f) = some (x.oti, x.packet) := by
    intro x hx
    obtain ⟨f, hf, hsane⟩ := saneFrame_of_mem_ingestions hrun' hx
    exact ⟨f, harrive f hf, hsane⟩
  rw [ingestions_concat hrun] at hframe ⊢
  refine List.pairwise_append.mpr ⟨hagreeing, ingestion_pairwise m.window a, ?_⟩
  intro i hi j hj hsame
  have hmem : i ∈ fedTo (ingestions env now acts) j.logical :=
    List.mem_filter.mpr ⟨hi, decide_eq_true hsame⟩
  -- both carry the OTI of the first packet of the block
  cases hfed : fedTo (ingestions env now acts) j.logical with
  | nil =>
    rw [hfed] at hmem
    cases hmem
  | cons first rest =>
    obtain ⟨hsbneq, hopen⟩ := first_of_ingestion hsbn hrun hstep hj hfed
    have hfirst : first ∈ ingestions env now acts := by
      have hmem : first ∈ fedTo (ingestions env now acts) j.logical := by
        rw [hfed]
        exact List.mem_cons_self
      exact (List.mem_filter.mp hmem).1
    obtain ⟨f, hf, hsane⟩ := hframe first (List.mem_append_left _ hfirst)
    obtain ⟨g, hg, hsane'⟩ := hframe j (List.mem_append_right _ hj)
    have hj' : first.oti = j.oti := hagree f hf g hg _ _ _ _ hsane hsane' hsbneq hopen
    rw [hfed] at hmem
    rcases List.mem_cons.mp hmem with rfl | hmem
    · exact hj'
    · rw [hagreeing.fedTo_eq hfed i hmem, hj']

end Run

/-! ## Two frames in one block -/

/-- A block that has just been opened stays in the pool, and the FEC decoder takes the packets of
its own block. -/
structure KeepsOpen (env : Env D) : Prop where
  timeout_pos : 0 < env.timeout
  inFlight_pos : 1 ≤ env.maxInFlight
  inFlight_fits : 255 + env.maxInFlight < 2 ^ 64
  decodes : ∀ d pkt, pkt.payloadId.sourceBlockNumber = env.dec.sourceBlockId d →
    ∃ r, env.dec.decode d pkt = some r

/-- The block of a packet that leaves it incomplete. -/
lemma LeavesOpen.exists_ingest {dec : SourceBlockDecoder D} {oti : ObjectTransmissionInformation}
    {pkt : EncodingPacket} (h : LeavesOpen dec oti pkt) (hsbn : dec.SbnLaws) (now : Instant) :
    ∃ b, (BlockState.new dec pkt.payloadId.sourceBlockNumber oti now).ingest dec pkt = some b ∧
      b.completed = none ∧ dec.sourceBlockId b.decoder = pkt.payloadId.sourceBlockNumber := by
  obtain ⟨d, hd⟩ := h
  obtain ⟨b, hb⟩ : ∃ b, (BlockState.new dec pkt.payloadId.sourceBlockNumber oti now).ingest dec
      pkt = some b := BlockState.exists_ingest fun _ => ⟨_, hd⟩
  refine ⟨b, hb, ?_, ?_⟩
  · rcases BlockState.ingest_cases hb with ⟨hdone, -⟩ | ⟨-, r, d', hdecode, rfl⟩
    · cases hdone
    · obtain ⟨rfl, -⟩ := Prod.mk.inj (Option.some.inj (hdecode.symm.trans hd))
      rfl
  · rw [BlockState.ingest_sourceBlockId hsbn hb]
    exact hsbn.new_sourceBlockId _ _ _

/-- The pool holds one block, the head, and it is not complete. -/
structure HoldsHead (env : Env D) (sbnU8 : UInt8) (w : Window D) (b : BlockState D) : Prop where
  started : w.started = true
  cursor_eq : w.cursor = sbnU8.toNat
  head : w.pool[w.cursor]? = some b
  only : ∀ k b', w.pool[k]? = some b' → k = w.cursor
  incomplete : b.completed = none
  sourceBlockId : env.dec.sourceBlockId b.decoder = sbnU8

/-- The first packet of a run opens its block. -/
lemma LeavesOpen.exists_step {f : Bytes} {oti : ObjectTransmissionInformation}
    {pkt : EncodingPacket} (h : LeavesOpen env.dec oti pkt) (hsbn : env.dec.SbnLaws)
    (hf : saneFrame env (.frame f) = some (oti, pkt)) :
    ∃ c b, step env (init 0) (.event 0 (.frame f)) = some c ∧ c.point = .drain ∧
      HoldsHead env pkt.payloadId.sourceBlockNumber c.window b ∧
      ingestion env (Window.init : Window D) (.event 0 (.frame f)) =
        [⟨pkt.payloadId.sourceBlockNumber.toNat, 0, oti, pkt⟩] := by
  obtain ⟨b, hb, hnone, hid⟩ := h.exists_ingest hsbn 0
  have hidle : (Window.init : Window D).started = false := rfl
  have hred : (Window.init : Window D).redundant pkt.payloadId.sourceBlockNumber = false :=
    Window.not_redundant_of_idle hidle
  have hroute : (Window.init : Window D).route pkt.payloadId.sourceBlockNumber = _ :=
    Window.route_of_idle hidle
  have hjoined : (Window.init : Window D).joined pkt.payloadId.sourceBlockNumber = _ :=
    Window.joined_of_idle hidle
  have hentry : (Window.init : Window D).entry env 0
      ((Window.init : Window D).route pkt.payloadId.sourceBlockNumber)
      pkt.payloadId.sourceBlockNumber oti =
        BlockState.new env.dec pkt.payloadId.sourceBlockNumber oti 0 :=
    Window.entry_of_absent (Window.get_init _)
  have hrecv : (init 0 : Conf D).point = .recv := rfl
  obtain ⟨c, hstep, hpoint, hw⟩ := exists_step_of_accepted hrecv hf hred (hentry ▸ hb)
  have hcursor : c.window.cursor = pkt.payloadId.sourceBlockNumber.toNat := by
    rw [hw]
    exact congrArg Window.cursor hjoined
  refine ⟨c, b, hstep, hpoint, ⟨?_, hcursor, ?_, fun k b' hk => ?_, hnone, hid⟩, ?_⟩
  · rw [hw]
    exact congrArg Window.started hjoined
  · rw [hcursor, hw, Window.get_hold]
    exact if_pos hroute
  · rw [hw] at hk
    rcases Window.get_of_get_hold hk with ⟨hkey, -⟩ | ⟨-, hbefore⟩
    · rw [hcursor, ← hkey]
      exact hroute
    · have hempty : (Window.init : Window D).pool[k]? = some b' := hbefore
      rw [Window.get_init] at hempty
      cases hempty
  · rw [ingestion_of_accepted 0 hf hred, hentry, hroute]
    rfl

/-- The head is kept. -/
lemma HoldsHead.not_mayAdvance {sbnU8 : UInt8} {w : Window D} {b : BlockState D}
    (h : HoldsHead env sbnU8 w b) (hkeeps : KeepsOpen env) : mayAdvance env 0 w = false := by
  have hfits : w.cursor + env.maxInFlight < 2 ^ 64 := by
    have hfits := hkeeps.inFlight_fits
    have hlt := sbnU8.toNat_lt
    rw [h.cursor_eq]
    omega
  have hforce : shouldForce env w = false := by
    rw [Bool.eq_false_iff, ne_eq, shouldForce_eq_true hfits]
    rintro ⟨k, b', hk, hle⟩
    have hkey := h.only k b' hk
    have hpos := hkeeps.inFlight_pos
    omega
  have htimeout : ¬ env.timeout ≤ elapsed 0 b.firstSeen := by
    have hpos := hkeeps.timeout_pos
    unfold elapsed
    omega
  simp [mayAdvance, h.head, h.incomplete, hforce, htimeout]

/-- A packet with the SBN of the head goes into it. -/
lemma HoldsHead.exists_step {pkt : EncodingPacket} {c : Conf D} {b : BlockState D}
    (h : HoldsHead env pkt.payloadId.sourceBlockNumber c.window b) (hkeeps : KeepsOpen env)
    (hrecv : c.point = .recv) {g : Bytes} {oti : ObjectTransmissionInformation}
    (hg : saneFrame env (.frame g) = some (oti, pkt)) :
    ∃ c', step env c (.event 0 (.frame g)) = some c' ∧
      ingestion env c.window (.event 0 (.frame g)) =
        [⟨pkt.payloadId.sourceBlockNumber.toNat, 0, oti, pkt⟩] := by
  have hroute : c.window.route pkt.payloadId.sourceBlockNumber = c.window.cursor := by
    rw [Window.route_of_started h.started]
    have hunwrap : unwrapSbn c.window.cursor (sbnOf c.window.cursor) = c.window.cursor :=
      unwrapSbn_sbnOf (by omega) (by omega)
    have hsbn : sbnOf c.window.cursor = pkt.payloadId.sourceBlockNumber := by
      rw [h.cursor_eq]
      exact UInt8.ofNat_toNat
    rwa [hsbn] at hunwrap
  have hred : c.window.redundant pkt.payloadId.sourceBlockNumber = false := by
    rw [Window.redundant_of_started h.started, ← Window.route_of_started h.started, hroute]
    simp
  have hentry : c.window.entry env 0 (c.window.route pkt.payloadId.sourceBlockNumber)
      pkt.payloadId.sourceBlockNumber oti = b := by
    rw [hroute]
    exact Window.entry_of_get h.head
  obtain ⟨b', hb'⟩ := BlockState.exists_ingest fun _ =>
    hkeeps.decodes b.decoder pkt h.sourceBlockId.symm
  obtain ⟨c', hstep, -⟩ := exists_step_of_accepted hrecv hg hred (hentry ▸ hb')
  refine ⟨c', hstep, ?_⟩
  rw [ingestion_of_accepted 0 hg hred, hentry, h.incomplete, hroute, h.cursor_eq]
  rfl

/-- Two packets with one SBN, of which the first opens a block, go into that block. -/
lemma KeepsOpen.exists_run (h : KeepsOpen env) (hsbn : env.dec.SbnLaws) {f g : Bytes}
    {oti oti' : ObjectTransmissionInformation} {pkt pkt' : EncodingPacket}
    (hf : saneFrame env (.frame f) = some (oti, pkt))
    (hg : saneFrame env (.frame g) = some (oti', pkt'))
    (hsame : pkt.payloadId.sourceBlockNumber = pkt'.payloadId.sourceBlockNumber)
    (hopen : LeavesOpen env.dec oti pkt) :
    ∃ c logical, runFrom env 0
        [.event 0 (.frame f), .pass (Clock.at 0), .event 0 (.frame g)] = some c ∧
      ingestions env 0 [.event 0 (.frame f), .pass (Clock.at 0), .event 0 (.frame g)] =
        [⟨logical, 0, oti, pkt⟩, ⟨logical, 0, oti', pkt'⟩] := by
  obtain ⟨c₁, b, hstep₁, hdrain, hhead, hfirst⟩ := hopen.exists_step hsbn hf
  obtain ⟨c₂, hstep₂⟩ : ∃ c₂, step env c₁ (.pass (Clock.at 0)) = some c₂ :=
    exists_step_pass hdrain _
  -- the drain loop keeps the block
  obtain ⟨hrecv, hw⟩ : c₂.point = .recv ∧ c₂.window = c₁.window := by
    rcases (step_pass hstep₂).2 with ⟨hmay, -⟩ | ⟨-, hrecv, hw⟩
    · have hkept : mayAdvance env (Clock.at 0).guard c₁.window = false := hhead.not_mayAdvance h
      rw [hkept] at hmay
      cases hmay
    · exact ⟨hrecv, hw⟩
  rw [hsame, ← hw] at hhead
  obtain ⟨c₃, hstep₃, hsecond⟩ := hhead.exists_step h hrecv hg
  have hrun₁ : runFrom env 0 [.event 0 (.frame f)] = some c₁ :=
    Machine.run_cons_eq_some.mpr ⟨c₁, hstep₁, rfl⟩
  have hrun₂ : runFrom env 0 ([.event 0 (.frame f)] ++ [.pass (Clock.at 0)]) = some c₂ :=
    Machine.run_concat_eq_some.mpr ⟨c₁, hrun₁, hstep₂⟩
  have hrun₃ : runFrom env 0 ([.event 0 (.frame f), .pass (Clock.at 0)] ++
      [.event 0 (.frame g)]) = some c₃ :=
    Machine.run_concat_eq_some.mpr ⟨c₂, hrun₂, hstep₃⟩
  refine ⟨c₃, pkt.payloadId.sourceBlockNumber.toNat, hrun₃, ?_⟩
  have hrun₀ : runFrom env 0 [] = some (init 0) := rfl
  rw [hsame] at hfirst ⊢
  calc ingestions env 0 ([.event 0 (.frame f), .pass (Clock.at 0)] ++ [.event 0 (.frame g)])
      = ingestions env 0 ([.event 0 (.frame f)] ++ [.pass (Clock.at 0)]) ++ _ :=
        ingestions_concat hrun₂ _
    _ = (ingestions env 0 ([] ++ [.event 0 (.frame f)]) ++ []) ++ _ := by
        rw [ingestions_concat hrun₁]
        rfl
    _ = _ := by
        rw [ingestions_concat hrun₀, hsecond]
        show ([] ++ ingestion env (Window.init : Window D) _ ++ []) ++ _ = _
        rw [hfirst]
        rfl

/-- **Every block of its own OTI.** When the frames that can arrive agree, this holds throughout
every run on them; and unless blocks are given up at once, it does so only then. -/
theorem ownOti_iff (hsbn : env.dec.SbnLaws) (arriving : Set Bytes) :
    (OtisAgree env arriving → ∀ now acts c, runFrom env now acts = some c →
      (∀ f ∈ acts.filterMap frameBytes, f ∈ arriving) → OwnOti env now acts) ∧
    (KeepsOpen env → (∀ now acts c, runFrom env now acts = some c →
      (∀ f ∈ acts.filterMap frameBytes, f ∈ arriving) → OwnOti env now acts) →
        OtisAgree env arriving) := by
  refine ⟨fun hagree now acts c hrun harrive => ?_, fun hkeeps hall => ?_⟩
  · exact (ownOti_iff_agreeing hrun).mpr (agreeing_of_otisAgree hsbn hagree hrun harrive)
  · intro f hf g hg oti pkt oti' pkt' hsane hsane' hsame hopen
    obtain ⟨c, logical, hrun, hingested⟩ := hkeeps.exists_run hsbn hsane hsane' hsame hopen
    have hown := hall 0 _ c hrun (by
      intro bytes hbytes
      have hframes : [Action.event 0 (.frame f), .pass (Clock.at 0), .event 0 (.frame g)].filterMap
          frameBytes = [f, g] := rfl
      rw [hframes] at hbytes
      rcases List.mem_pair.mp hbytes with rfl | rfl
      · exact hf
      · exact hg)
    have hagreeing := (ownOti_iff_agreeing hrun).mp hown
    rw [hingested] at hagreeing
    exact (List.pairwise_pair.mp hagreeing) rfl

/-- Two frames of block 0, with the numbers of symbols that their OTIs announce. -/
def Reference.twoOtis (k k' : ℕ) : List Action :=
  [.event 0 (Reference.frame k 0 0 (Reference.flat 1)), .pass (Clock.at 0),
    .event 0 (Reference.frame k' 0 1 (Reference.flat 2))]

theorem ownOti_same : ∃ c : Conf Reference.Decoder,
    runFrom (Reference.env 8) 0 (Reference.twoOtis 3 3) = some c ∧
      OwnOti (Reference.env 8) 0 (Reference.twoOtis 3 3) := by
  obtain ⟨c, hrun, -⟩ : ∃ c, runFrom (Reference.env 8) 0 (Reference.twoOtis 3 3) = some c ∧
      c.point = .drain := exists_of_run_map (by decide +kernel)
  refine ⟨c, hrun, (ownOti_iff Reference.decoder_sbnLaws
    {f | f ∈ (Reference.twoOtis 3 3).filterMap frameBytes}).1 ?_ 0 _ c hrun fun f hf => hf⟩
  have hotis : ∀ f ∈ (Reference.twoOtis 3 3).filterMap frameBytes,
      (saneFrame (Reference.env 8) (.frame f)).map Prod.fst =
        some (blockOti (3 * symbolSize) symbolSize) := by decide +kernel
  intro f hf g hg oti pkt oti' pkt' hsane hsane' _ _
  have hoti := hotis f hf
  have hoti' := hotis g hg
  rw [hsane] at hoti
  rw [hsane'] at hoti'
  exact Option.some.inj (hoti.trans hoti'.symm)

/-- A frame that announces two symbols opens a block of three: the next packet of the block goes
into it, and completes it at two thirds of its size. -/
theorem ownOti_shrunk : ∃ c : Conf Reference.Decoder,
    runFrom (Reference.env 8) 0 (Reference.twoOtis 2 3) = some c ∧
      c.window.pool[0]?.map (fun b => (b.k, b.completed.map List.length)) =
        some (2, some (2 * symbolSize)) ∧
      ¬ OwnOti (Reference.env 8) 0 (Reference.twoOtis 2 3) := by
  obtain ⟨c, hrun, hpool⟩ : ∃ c, runFrom (Reference.env 8) 0 (Reference.twoOtis 2 3) = some c ∧
      c.window.pool[0]?.map (fun b => (b.k, b.completed.map List.length)) =
        some (2, some (2 * symbolSize)) := exists_of_run_map (by decide +kernel)
  refine ⟨c, hrun, hpool, fun h => ?_⟩
  obtain ⟨b, hb, -⟩ := Option.map_eq_some_iff.mp hpool
  obtain ⟨first, rest, hfed, -, hrest⟩ := h.fed _ [] c (List.append_nil _).symm hrun 0 b hb
  have hlengths : (fedTo (ingestions (Reference.env 8) 0 (Reference.twoOtis 2 3)) 0).map
      (fun i => i.oti.transferLength) = [2 * symbolSize, 3 * symbolSize] := by decide +kernel
  rw [hfed, List.map_cons, List.cons.injEq] at hlengths
  obtain ⟨hfirst, hlengths⟩ := hlengths
  -- the second frame is one of the rest
  obtain ⟨i, hi, hlength⟩ := List.mem_map.mp
    (hlengths ▸ List.mem_singleton_self (3 * symbolSize))
  rw [hrest i hi, hfirst] at hlength
  simp [symbolSize_eq] at hlength

end RaptorqTs
