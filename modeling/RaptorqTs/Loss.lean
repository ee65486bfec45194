import RaptorqTs.Lib.Gaps
import RaptorqTs.EndToEnd
import RaptorqTs.Dec.Resync
import RaptorqTs.Dec.Tally

/-!
# The loss that the decoder reports

The writer numbers its frames modulo 16, and the decoder takes the gaps in the numbers for
losses. The packets between two frames that arrive are counted modulo 16; a frame that arrives
corrupted leaves the same gap as one that does not arrive.
-/

namespace RaptorqTs

open Enc (ccOf)
open Gaps

variable {D : Type} {env : Env D} {oti : ObjectTransmissionInformation} {w : Enc.Writer}

/-! ## The continuity counters of the wire -/

/-- The gap between two frames is what lies between them, modulo 16. -/
lemma ccGap_ccOf {a b : ℕ} (h : a < b) :
    (ccGap (some (ccOf a)) (ccOf b)).1 = (b - a - 1) % 16 := by
  have hexpected : ((ccOf a + 1) &&& 0x0F).toNat = (a + 1) % 16 := by
    rw [Enc.toNat_and_low, UInt8.toNat_add, Enc.toNat_ccOf]
    show (a % 16 + 1) % 2 ^ 8 % 16 = _
    omega
  show (ccOf b - ((ccOf a + 1) &&& 0x0F)).toNat &&& (2 ^ 4 - 1) = _
  rw [Nat.and_two_pow_sub_one_eq_mod, UInt8.toNat_sub, hexpected, Enc.toNat_ccOf]
  omega

lemma ccLoss_map_ccOf {a : ℕ} {ns : List ℕ} (h : (a :: ns).Pairwise (· < ·)) :
    ccLoss (some (ccOf a)) (ns.map ccOf) = visible 16 (a :: ns) := by
  induction ns generalizing a with
  | nil => rfl
  | cons b ns ih =>
    obtain ⟨hab, hb⟩ := List.pairwise_cons.mp h
    rw [List.map_cons, ccLoss, ccGap_ccOf (hab b List.mem_cons_self), ih hb, visible_cons_cons]

/-- The loss inferred from numbered frames. -/
lemma ccLoss_ccOf {ns : List ℕ} (h : ns.Pairwise (· < ·)) :
    ccLoss none (ns.map ccOf) = visible 16 ns := by
  cases ns with
  | nil => rfl
  | cons a ns =>
    rw [List.map_cons, ccLoss, ccLoss_map_ccOf h]
    exact Nat.zero_add _

/-- The counter of a frame of the writer, which can be read if the PID is one of 13 bits. -/
lemma frameCc_wire (hw : Enc.Writer.Reachable env.wire env.args.pid oti w) (hfit : w.Fitting)
    {i : ℕ} {f : WireFrame} (hf : w.wire[i]? = some f) :
    frameCc env f.bytes = if env.args.pid < 0x2000 then some (ccOf i) else none := by
  obtain ⟨item, hcarries, hitem⟩ := hw.carries hfit hf
  obtain ⟨out, hout, hbytes⟩ := hcarries.bytes
  unfold frameCc
  rw [hbytes]
  by_cases hpid : env.args.pid < 0x2000
  · rw [Enc.parsePacket_frameFor env.wire oti i hpid hout hitem, if_pos hpid]
    cases item <;> rfl
  · rw [Enc.parsePacket_frameFor_wide env.wire oti i hpid hout hitem, if_neg hpid]

/-- A frame of the writer is counted as unparseable if its PID or its OTI does not pass. -/
lemma rejected_wire (hw : Enc.Writer.Reachable env.wire env.args.pid oti w) (hfit : w.Fitting)
    {i : ℕ} {f : WireFrame} (hf : w.wire[i]? = some f) :
    rejected env f.bytes = false ↔ env.args.pid < 0x2000 ∧ (f.origin.isSome = true →
      otiIsSane (env.wire.deserializeOti (env.wire.serializeOti oti)) = true) := by
  obtain ⟨item, hcarries, hitem⟩ := hw.carries hfit hf
  obtain ⟨out, hout, hbytes⟩ := hcarries.bytes
  unfold rejected
  rw [hbytes, hcarries.origin]
  by_cases hpid : env.args.pid < 0x2000
  · rw [Enc.parsePacket_frameFor env.wire oti i hpid hout hitem]
    cases item <;> simp [Enc.readBack, hpid]
  · rw [Enc.parsePacket_frameFor_wide env.wire oti i hpid hout hitem]
    simp [hpid]

/-! ## Intact deliveries -/

/-- The loss reported when the frames with the numbers `ns` have been delivered. -/
structure LossAccounted (ns : List ℕ) (c : Counters) : Prop where
  lostPackets : c.lostPackets = visible 16 ns
  pktsLost : c.total IntervalStats.pktsLost = visible 16 ns
  le_missing : c.lostPackets ≤ (missing ns).card
  eq_missing_iff : c.lostPackets = (missing ns).card ↔ ∀ g ∈ gaps ns, g < 16

lemma lossAccounted_of_eq {ns : List ℕ} (hns : ns.Pairwise (· < ·)) {c : Counters}
    (hlost : c.lostPackets = visible 16 ns)
    (hpkts : c.total IntervalStats.pktsLost = visible 16 ns) : LossAccounted ns c := by
  refine ⟨hlost, hpkts, ?_, ?_⟩
  · rw [hlost, card_missing hns]
    exact visible_le
  · rw [hlost, card_missing hns]
    exact visible_eq_iff (by decide)

/-- The counters that the decoder reads. -/
lemma ccs_delivered (hw : Enc.Writer.Reachable env.wire env.args.pid oti w) (hfit : w.Fitting)
    {ns : List ℕ} {frames : List Bytes}
    (hdelivered : ns.map (fun n => w.wire[n]?.map WireFrame.bytes) = frames.map some) :
    frames.filterMap (frameCc env) = if env.args.pid < 0x2000 then ns.map ccOf else [] := by
  induction ns generalizing frames with
  | nil =>
    obtain rfl : frames = [] := by simpa using hdelivered.symm
    simp
  | cons n ns ih =>
    cases frames with
    | nil => simp at hdelivered
    | cons bytes frames =>
      simp only [List.map_cons, List.cons.injEq] at hdelivered
      obtain ⟨hhead, htail⟩ := hdelivered
      obtain ⟨f, hf, hbytes⟩ := Option.map_eq_some_iff.mp hhead
      have hcc := frameCc_wire hw hfit hf
      rw [hbytes] at hcc
      split_ifs at hcc ⊢ with hpid
      · rw [List.filterMap_cons_some hcc, ih htail, if_pos hpid, List.map_cons]
      · rw [List.filterMap_cons_none hcc, ih htail, if_neg hpid]

/-- **Loss accounting** for frames of the writer that arrive intact: the decoder counts the gaps
modulo 16, unless it cannot parse the frames because their PID is too wide. -/
theorem lossAccounted_iff (hw : Enc.Writer.Reachable env.wire env.args.pid oti w)
    (hfit : w.Fitting) {ns : List ℕ} (hns : ns.Pairwise (· < ·)) {now : Instant}
    {acts : List Action} {c : Conf D} (hrun : runFrom env now acts = some c)
    (hdelivered : ns.map (fun n => w.wire[n]?.map WireFrame.bytes) =
      (acts.filterMap frameBytes).map some) :
    LossAccounted ns c.state.toCounters ↔ env.args.pid < 0x2000 ∨ visible 16 ns = 0 := by
  have htally := run_tally hrun
  have hlost := htally.lostPackets
  have hpkts := htally.pktsLost
  rw [ccs_delivered hw hfit hdelivered] at hlost hpkts
  by_cases hpid : env.args.pid < 0x2000
  · rw [if_pos hpid, ccLoss_ccOf hns] at hlost hpkts
    exact iff_of_true (lossAccounted_of_eq hns hlost hpkts) (Or.inl hpid)
  · -- nothing is read, and nothing is found to be lost
    rw [if_neg hpid] at hlost hpkts
    constructor
    · intro h
      right
      rw [← h.lostPackets, hlost]
      rfl
    · intro h
      have hzero : visible 16 ns = 0 := h.resolve_left hpid
      apply lossAccounted_of_eq hns
      · rw [hlost, hzero]
        rfl
      · rw [hpkts, hzero]
        rfl

namespace Reference

def noopFrame (pid : UInt16) (i : ℕ) : WireFrame :=
  ⟨buildNoopPacket pid (ccOf i) (List.replicate tsPacketSize 0), none⟩

/-- The writer can go on to write noops. -/
lemma exists_noops_run (pid : UInt16) (n : ℕ) : ∃ w, Enc.Writer.Reachable codec pid params.oti w ∧
    w.point = .polling ∧ w.cc = ccOf n ∧ w.buf.length = tsPacketSize ∧ w.received = [] ∧
      w.wire = (List.range n).map (noopFrame pid) := by
  induction n with
  | zero => exact ⟨Enc.Writer.init, ⟨[], rfl⟩, rfl, rfl, List.length_replicate .., rfl, rfl⟩
  | succ n ih =>
    obtain ⟨w, ⟨acts, hrun⟩, hpoint, hcc, hbuf, hreceived, hwire⟩ := ih
    have hnoop : buildNoopPacket pid (ccOf n) w.buf = (noopFrame pid n).bytes := by
      rw [buildNoopPacket_eq pid (ccOf n) hbuf, noopFrame,
        buildNoopPacket_eq pid (ccOf n) (List.length_replicate ..)]
    refine ⟨{ w with
      cc := ccOf (n + 1)
      buf := (noopFrame pid n).bytes
      noopsSent := w.noopsSent + 1
      wire := w.wire ++ [noopFrame pid n] }, ⟨acts ++ [.empty, .written], ?_⟩, hpoint, rfl, ?_,
      hreceived, ?_⟩
    · apply Machine.run_append_eq_some.mpr
      refine ⟨w, hrun, ?_⟩
      rw [Machine.run_cons]
      simp only [Enc.Writer.step, hpoint, hcc, Enc.advance_ccOf, hnoop, Option.bind_some]
      rfl
    · exact length_buildNoopPacket pid (ccOf n) (List.length_replicate ..)
    · rw [hwire, List.range_succ, List.map_append, List.map_singleton]

/-- The writer can write any number of noops. -/
lemma exists_noops (pid : UInt16) (n : ℕ) : ∃ w, Enc.Writer.Reachable codec pid params.oti w ∧
    w.Fitting ∧ w.wire = (List.range n).map (noopFrame pid) := by
  obtain ⟨w, hw, -, -, -, hreceived, hwire⟩ := exists_noops_run pid n
  refine ⟨w, hw, fun x hx => ?_, hwire⟩
  rw [hreceived] at hx
  simp at hx

/-- The decoder is delivered the frames, one at a time. -/
def deliveries (frames : List Bytes) : List Action :=
  frames.flatMap fun bytes => [.event 0 (.frame bytes), .pass (Clock.at 0)]

/-- An OTI that the decoder does not take for sane, as it announces no symbol. -/
def insaneOti : ObjectTransmissionInformation := ⟨0, symbolSize, 1, 1, 1⟩

/-- The writer can write the noop and the packets of three blocks, with either OTI. -/
lemma exists_pairFrames {oti : ObjectTransmissionInformation}
    (hoti : oti ∈ [Enc.Encoder.oneExtra.oti, insaneOti]) :
    ∃ w, Enc.Writer.Reachable codec 0x100 oti w ∧ w.Fitting ∧ w.wire = pairFrames oti := by
  have hruns : ∀ oti ∈ [Enc.Encoder.oneExtra.oti, insaneOti],
      (Machine.run (Enc.Writer.step codec 0x100 oti) Enc.Writer.init pairWrites).map
        (fun w => (w.received, w.wire)) = some (Enc.Encoder.idleSent, pairFrames oti) := by
    decide +kernel
  obtain ⟨w, hw, hobs⟩ := Option.map_eq_some_iff.mp (hruns oti hoti)
  obtain ⟨hreceived, hwire⟩ := Prod.mk.inj hobs
  refine ⟨w, ⟨_, hw⟩, ?_, hwire⟩
  unfold Enc.Writer.Fitting
  rw [hreceived]
  decide +kernel

/-- The frames with the given numbers are delivered, with some passes of the drain loop behind each
of them. -/
def pairDeliveries (oti : ObjectTransmissionInformation) (ns passes : List ℕ) : List Action :=
  deliver ((ns.filterMap fun n => (pairFrames oti)[n]?).zip passes)

/-- With a sane OTI the frame 4 is redundant, with the other one all data frames are dropped. -/
def mixedPasses : List (ObjectTransmissionInformation × List ℕ) :=
  [(Enc.Encoder.oneExtra.oti, [1, 1, 1, 2, 0, 1, 1, 1]), (insaneOti, [1, 0, 0, 0, 0, 0, 0, 0])]

end Reference

/-- Of a noop and fourteen packets seven are lost, in two bursts; whether the data frames that
arrive are accepted, redundant or insane makes no difference. -/
theorem lossAccounted_mixed : Reference.mixedPasses.Forall fun x => ∃ w c,
    Enc.Writer.Reachable Reference.codec 0x100 x.1 w ∧
      runFrom (Reference.env 8) 0
        (Reference.pairDeliveries x.1 [0, 1, 2, 3, 4, 7, 8, 14] x.2) = some c ∧
      [0, 1, 2, 3, 4, 7, 8, 14].map (fun n => w.wire[n]?.map WireFrame.bytes) =
        ((Reference.pairDeliveries x.1 [0, 1, 2, 3, 4, 7, 8, 14] x.2).filterMap
          frameBytes).map some ∧
      c.state.lostPackets = 7 ∧ LossAccounted [0, 1, 2, 3, 4, 7, 8, 14] c.state.toCounters := by
  have hobs : ∀ x ∈ Reference.mixedPasses, x.1 ∈ [Enc.Encoder.oneExtra.oti, Reference.insaneOti] ∧
      (runFrom (Reference.env 8) 0
        (Reference.pairDeliveries x.1 [0, 1, 2, 3, 4, 7, 8, 14] x.2)).map
          (fun c => c.state.lostPackets) = some 7 ∧
      [0, 1, 2, 3, 4, 7, 8, 14].map (fun n => (Reference.pairFrames x.1)[n]?.map WireFrame.bytes) =
        ((Reference.pairDeliveries x.1 [0, 1, 2, 3, 4, 7, 8, 14] x.2).filterMap
          frameBytes).map some := by
    decide +kernel
  refine List.forall_iff_forall_mem.mpr fun x hx => ?_
  obtain ⟨hoti, hrun, hdelivered⟩ := hobs x hx
  obtain ⟨w, hw, hfit, hwire⟩ := Reference.exists_pairFrames hoti
  obtain ⟨c, hc, hlost⟩ := exists_of_run_map hrun
  rw [← hwire] at hdelivered
  refine ⟨w, c, hw, hc, hdelivered, hlost, ?_⟩
  have hw' : Enc.Writer.Reachable (Reference.env 8).wire (Reference.env 8).args.pid x.1 w := hw
  exact (lossAccounted_iff hw' hfit (by decide) hc hdelivered).mpr (Or.inl (by decide))

/-- With the smallest PID that does not fit the header, both frames that arrive are taken for
corrupted, and no loss is seen. -/
theorem lossAccounted_wide_pid : ∃ w acts c,
    Enc.Writer.Reachable Reference.codec 0x2000 Reference.params.oti w ∧
      runFrom (Reference.envAt 0x2000) 0 acts = some c ∧
      [0, 2].map (fun n => w.wire[n]?.map WireFrame.bytes) =
        (acts.filterMap frameBytes).map some ∧
      c.state.lostPackets = 0 ∧ ¬ LossAccounted [0, 2] c.state.toCounters := by
  obtain ⟨w, hw, -, hwire⟩ := Reference.exists_noops 0x2000 3
  obtain ⟨c, hrun, hlost⟩ : ∃ c, runFrom (Reference.envAt 0x2000) 0 (Reference.deliveries
      [(Reference.noopFrame 0x2000 0).bytes, (Reference.noopFrame 0x2000 2).bytes]) = some c ∧
        c.state.lostPackets = 0 := exists_of_run_map (by decide +kernel)
  refine ⟨w, _, c, hw, hrun, ?_, hlost, fun h => ?_⟩
  · rw [hwire]
    rfl
  · have hone : visible 16 [0, 2] = 1 := rfl
    have hcounted := h.lostPackets
    rw [hlost, hone] at hcounted
    simp at hcounted

/-! ## Corrupted packets -/

/-- What becomes of a packet on the link. -/
inductive Fate where
  | intact
  | corrupted (bytes : Bytes)
  | dropped
deriving DecidableEq, Repr

/-- What arrives of a packet. -/
def arrived : WireFrame × Fate → Option Bytes
  | (f, .intact) => some f.bytes
  | (_, .corrupted bytes) => some bytes
  | (_, .dropped) => none

def isIntact : WireFrame × Fate → Bool
  | (_, .intact) => true
  | (_, .corrupted _) | (_, .dropped) => false

def isCorrupted : WireFrame × Fate → Bool
  | (_, .corrupted _) => true
  | (_, .intact) | (_, .dropped) => false

def isDropped : WireFrame × Fate → Bool
  | (_, .dropped) => true
  | (_, .intact) | (_, .corrupted _) => false

@[simp] lemma fate_intact (f : WireFrame) : arrived (f, .intact) = some f.bytes ∧
    isIntact (f, .intact) = true ∧ isCorrupted (f, .intact) = false ∧
      isDropped (f, .intact) = false := ⟨rfl, rfl, rfl, rfl⟩

@[simp] lemma fate_corrupted (f : WireFrame) (bytes : Bytes) :
    arrived (f, .corrupted bytes) = some bytes ∧ isIntact (f, .corrupted bytes) = false ∧
      isCorrupted (f, .corrupted bytes) = true ∧ isDropped (f, .corrupted bytes) = false :=
  ⟨rfl, rfl, rfl, rfl⟩

@[simp] lemma fate_dropped (f : WireFrame) : arrived (f, .dropped) = none ∧
    isIntact (f, .dropped) = false ∧ isCorrupted (f, .dropped) = false ∧
      isDropped (f, .dropped) = true := ⟨rfl, rfl, rfl, rfl⟩

/-- The frames are sent over a link that corrupts and drops some of them: a corrupted one keeps its
length and its sync byte, without which it would not get past the reader, but does not parse, and
the gaps between intact ones are short. -/
structure Transmission (env : Env D) (wire : List WireFrame) (link : List (WireFrame × Fate)) :
    Prop where
  frames_eq : link.map Prod.fst = wire
  corrupted : ∀ f bytes, (f, Fate.corrupted bytes) ∈ link →
    tsFormat.Frame bytes ∧ ∃ e, parsePacket env.wire bytes env.args.pid = .error e
  first : ∀ x ∈ link.head?, isIntact x = true
  last : ∀ x ∈ link.getLast?, isIntact x = true
  short : ∀ burst, burst <:+: link → (∀ x ∈ burst, isIntact x = false) → burst.length < 16

/-- The statistics count each packet sent once, the dropped ones as lost and the corrupted ones
as unparseable. -/
structure Conserved (link : List (WireFrame × Fate)) (c : Counters) : Prop where
  lostPackets : c.lostPackets = link.countP isDropped
  unparseable : c.total IntervalStats.pktsUnparseable = link.countP isCorrupted
  balance : c.total IntervalStats.pktsOk + c.total IntervalStats.pktsRedundant +
    c.total IntervalStats.noops + c.total IntervalStats.pktsUnparseable +
      c.total IntervalStats.pktsLost = link.length

/-- The counters that the decoder has read when the packets have been sent. -/
def ccsRead (env : Env D) (sent : List (WireFrame × Fate)) : List UInt8 :=
  (sent.filterMap arrived).filterMap (frameCc env)

/-- The OTI that the decoder reads from the data frames is sane. -/
def ReadsSane (env : Env D) (oti : ObjectTransmissionInformation) : Prop :=
  otiIsSane (env.wire.deserializeOti (env.wire.serializeOti oti)) = true

section Link

variable {link : List (WireFrame × Fate)}

lemma length_arrived (link : List (WireFrame × Fate)) :
    (link.filterMap arrived).length + link.countP isDropped = link.length := by
  induction link with
  | nil => rfl
  | cons x link ih =>
    obtain ⟨f, fate⟩ := x
    cases fate with
    | intact | corrupted bytes =>
      simp
      omega
    | dropped =>
      simp
      omega

lemma countP_not_intact :
    link.countP (fun x => !isIntact x) = link.countP isDropped + link.countP isCorrupted := by
  induction link with
  | nil => rfl
  | cons x link ih =>
    obtain ⟨f, fate⟩ := x
    cases fate with
    | intact => simp [ih]
    | corrupted bytes | dropped =>
      simp [ih]
      omega

/-- The corrupted frames are rejected, and of the intact ones those that do not pass. -/
lemma countP_rejected (hcorrupted : ∀ f bytes, (f, Fate.corrupted bytes) ∈ link →
      ∃ e, parsePacket env.wire bytes env.args.pid = .error e) :
    (link.filterMap arrived).countP (rejected env) = link.countP isCorrupted +
      link.countP fun x => isIntact x && rejected env x.1.bytes := by
  induction link with
  | nil => rfl
  | cons x link ih =>
    have hrest := ih fun f bytes hmem => hcorrupted f bytes (List.mem_cons_of_mem x hmem)
    obtain ⟨f, fate⟩ := x
    cases fate with
    | intact =>
      simp [List.countP_cons, hrest]
      omega
    | corrupted bytes =>
      obtain ⟨e, he⟩ := hcorrupted f bytes List.mem_cons_self
      have hrejected : rejected env bytes = true := by simp [rejected, he]
      simp [hrest, hrejected]
      omega
    | dropped => simp [hrest]

/-- The statistics in terms of the inferred loss and of the intact frames that do not pass. -/
lemma conserved_iff_counts {c : Counters} (htally : Tally env (link.filterMap arrived) c)
    (hcorrupted : ∀ f bytes, (f, Fate.corrupted bytes) ∈ link →
      ∃ e, parsePacket env.wire bytes env.args.pid = .error e) :
    Conserved link c ↔
      ccLoss none (ccsRead env link) = link.countP isDropped ∧
        link.countP (fun x => isIntact x && rejected env x.1.bytes) = 0 := by
  unfold ccsRead
  have hlost := htally.lostPackets
  have hpkts := htally.pktsLost
  have hunparseable := htally.unparseable
  have hreceived := htally.received
  have hlength := length_arrived link
  rw [countP_rejected hcorrupted] at hunparseable
  unfold Counters.received at hreceived
  constructor
  · intro h
    have h₁ := h.lostPackets
    have h₂ := h.unparseable
    constructor
    · omega
    · omega
  · intro h
    exact ⟨by omega, by omega, by omega⟩

/-- Of the packets sent so far, the last intact one has the number `n`; the packets `after` it
are those that the loss does not yet count. -/
structure Pending (env : Env D) (sent : List (WireFrame × Fate)) (n : ℕ)
    (after : List (WireFrame × Fate)) : Prop where
  after_suffix : after <:+ sent
  length_eq : sent.length = n + 1 + after.length
  not_intact : ∀ y ∈ after, isIntact y = false
  lastCc : (ccsRead env sent).getLast? = some (ccOf n)
  loss : ccLoss none (ccsRead env sent) + after.length = sent.countP fun y => !isIntact y

section Pending

variable {sent after : List (WireFrame × Fate)} {n : ℕ} {f : WireFrame} {y : WireFrame × Fate}

lemma ccsRead_concat_intact (sent : List (WireFrame × Fate)) {cc : UInt8}
    (hcc : frameCc env f.bytes = some cc) :
    ccsRead env (sent ++ [(f, .intact)]) = ccsRead env sent ++ [cc] := by
  simp [ccsRead, hcc]

/-- A packet that is not intact carries no counter. -/
lemma ccsRead_concat_of_not_intact (sent : List (WireFrame × Fate)) (hy : isIntact y = false)
    (hcorrupted : ∀ bytes, y.2 = .corrupted bytes →
      ∃ e, parsePacket env.wire bytes env.args.pid = .error e) :
    ccsRead env (sent ++ [y]) = ccsRead env sent := by
  obtain ⟨f, fate⟩ := y
  cases fate with
  | intact => simp at hy
  | corrupted bytes =>
    obtain ⟨e, he⟩ := hcorrupted bytes rfl
    have hcc : frameCc env bytes = none := by simp [frameCc, he]
    simp [ccsRead, hcc]
  | dropped => simp [ccsRead]

lemma Pending.first (hcc : frameCc env f.bytes = some (ccOf 0)) :
    Pending env [(f, .intact)] 0 [] := by
  have hccs : ccsRead env [(f, .intact)] = [ccOf 0] := by simp [ccsRead, hcc]
  refine ⟨List.nil_suffix, rfl, by simp, ?_, ?_⟩
  · rw [hccs]
    rfl
  · rw [hccs]
    rfl

/-- One more packet has gone by. -/
lemma Pending.miss (h : Pending env sent n after) (hy : isIntact y = false)
    (hcorrupted : ∀ bytes, y.2 = .corrupted bytes →
      ∃ e, parsePacket env.wire bytes env.args.pid = .error e) :
    Pending env (sent ++ [y]) n (after ++ [y]) := by
  have hccs := ccsRead_concat_of_not_intact sent hy hcorrupted
  refine ⟨?_, ?_, ?_, ?_, ?_⟩
  · obtain ⟨before, hbefore⟩ := h.after_suffix
    exact ⟨before, by rw [← hbefore, List.append_assoc]⟩
  · rw [List.length_append, List.length_append, h.length_eq]
    simp only [List.length_singleton]
    omega
  · intro z hz
    rcases List.mem_append.mp hz with hz | hz
    · exact h.not_intact z hz
    · rw [List.mem_singleton.mp hz, hy]
  · rw [hccs, h.lastCc]
  · have hloss := h.loss
    rw [hccs, List.countP_append, List.length_append, ← hloss]
    simp only [List.length_singleton, List.countP_singleton, hy, Bool.not_false, if_true]
    omega

/-- The packets since the last intact one are found to be missing. -/
lemma Pending.resume (h : Pending env sent n after) (hshort : after.length < 16)
    (hcc : frameCc env f.bytes = some (ccOf sent.length)) :
    Pending env (sent ++ [(f, .intact)]) sent.length [] := by
  have hccs := ccsRead_concat_intact sent hcc
  have hlength := h.length_eq
  refine ⟨List.nil_suffix, by simp, by simp, ?_, ?_⟩
  · rw [hccs, List.getLast?_concat]
  · have hgap : (sent.length - n - 1) % 16 = after.length := by
      rw [show sent.length - n - 1 = after.length by omega, Nat.mod_eq_of_lt hshort]
    rw [hccs, ccLoss_concat, h.lastCc, Option.some_or, ccGap_ccOf (by omega), hgap, h.loss,
      List.countP_append]
    simp

end Pending

/-- The state of the counters at each packet of the link. -/
lemma Transmission.pending (hnumbered : ∀ i x, link[i]? = some x →
      frameCc env x.1.bytes = some (ccOf i)) {wire : List WireFrame}
    (h : Transmission env wire link) {sent : List (WireFrame × Fate)} (hsent : sent <+: link)
    (hne : sent ≠ []) : ∃ n after, Pending env sent n after := by
  induction sent using List.reverseRecOn with
  | nil => exact absurd rfl hne
  | append_singleton sent y ih =>
    obtain ⟨rest, hrest⟩ := hsent
    have hy : link[sent.length]? = some y := by
      rw [← hrest, List.append_assoc, List.getElem?_append_right le_rfl, Nat.sub_self]
      rfl
    have hcc := hnumbered sent.length y hy
    obtain ⟨f, fate⟩ := y
    by_cases hnil : sent = []
    · subst hnil
      have hintact : isIntact (f, fate) = true := by
        apply h.first
        rw [← hrest]
        rfl
      cases fate with
      | intact => exact ⟨0, [], Pending.first hcc⟩
      | corrupted bytes | dropped => simp at hintact
    · have hbefore : sent <+: link := ⟨(f, fate) :: rest, by rw [← hrest]; simp⟩
      obtain ⟨n, after, hpending⟩ := ih hbefore hnil
      cases hintact : isIntact (f, fate) with
      | false =>
        refine ⟨n, after ++ [(f, fate)], hpending.miss hintact ?_⟩
        intro bytes hbytes
        apply (h.corrupted f bytes ?_).2
        rw [← hbytes]
        exact List.mem_of_getElem? hy
      | true =>
        have hshort : after.length < 16 := by
          apply h.short after _ hpending.not_intact
          exact hpending.after_suffix.isInfix.trans hbefore.isInfix
        cases fate with
        | intact => exact ⟨sent.length, [], hpending.resume hshort hcc⟩
        | corrupted bytes | dropped => simp at hintact

/-- **The loss inferred** on the link is the number of packets that do not arrive intact. -/
lemma Transmission.ccLoss_eq (hnumbered : ∀ i x, link[i]? = some x →
      frameCc env x.1.bytes = some (ccOf i)) {wire : List WireFrame}
    (h : Transmission env wire link) :
    ccLoss none (ccsRead env link) = link.countP isDropped + link.countP isCorrupted := by
  rw [← countP_not_intact]
  by_cases hnil : link = []
  · subst hnil
    rfl
  · obtain ⟨n, after, hpending⟩ := h.pending hnumbered List.prefix_rfl hnil
    -- the last packet is intact
    have hafter : after = [] := by
      rcases List.eq_nil_or_concat' after with hafter | ⟨after', y, rfl⟩
      · exact hafter
      · obtain ⟨before, hbefore⟩ := hpending.after_suffix
        have hlast : isIntact y = true := by
          apply h.last
          rw [← hbefore, ← List.append_assoc, List.getLast?_concat]
          rfl
        rw [hpending.not_intact y (by simp)] at hlast
        simp at hlast
    have hloss := hpending.loss
    rw [hafter, List.length_nil, Nat.add_zero] at hloss
    exact hloss

/-- The packets on the link are numbered as on the wire. -/
lemma Transmission.wire_eq {wire : List WireFrame} (h : Transmission env wire link) {i : ℕ}
    {x : WireFrame × Fate} (hx : link[i]? = some x) : wire[i]? = some x.1 := by
  rw [← h.frames_eq, List.getElem?_map, hx]
  rfl

/-- **What arrives is read.** The reader of the decoder cuts what arrives into the packets again,
the corrupted ones among them. -/
theorem Transmission.read (hw : Enc.Writer.Reachable env.wire env.args.pid oti w)
    (hfit : w.Fitting) (h : Transmission env w.wire link) {r : Dec.Reader}
    (hr : r.Finished (link.filterMap arrived).flatten) :
    r.sent.map Prod.snd = link.filterMap arrived := by
  rw [Dec.Reader.sent_of_finished hr, Framing.Format.scan_frames, Framing.Format.map_snd_placed]
  intro bytes hbytes
  obtain ⟨⟨f, fate⟩, hmem, harrived⟩ := List.mem_filterMap.mp hbytes
  cases fate with
  | intact =>
    obtain ⟨i, hi⟩ := List.mem_iff_getElem?.mp hmem
    obtain ⟨item, hcarries, hitem⟩ := hw.carries hfit (h.wire_eq hi)
    obtain ⟨out, hout, hframe⟩ := hcarries.bytes
    obtain rfl := Option.some.inj harrived
    rw [hframe]
    apply @Dec.IsWirePacket.frame env.wire env.args.pid
    cases item with
    | none => exact .noop _ out hout
    | some x => exact .data _ oti x.packet out hout (hitem x rfl)
  | corrupted bytes' =>
    obtain rfl := Option.some.inj harrived
    exact (h.corrupted f bytes' hmem).1
  | dropped => cases harrived

lemma countP_eq_zero_iff {q : WireFrame × Fate → Bool} :
    link.countP q = 0 ↔ ∀ x ∈ link, q x = false := by
  rw [List.countP_eq_zero]
  simp only [Bool.not_eq_true]

/-- **Conservation.** The statistics count each packet once, as what it is, exactly when there
are no corrupted packets, provided that the packets that arrive intact can be used at all. -/
theorem conserved_iff (hw : Enc.Writer.Reachable env.wire env.args.pid oti w) (hfit : w.Fitting)
    (hlink : Transmission env w.wire link) {now : Instant} {acts : List Action} {c : Conf D}
    (hrun : runFrom env now acts = some c)
    (harrived : acts.filterMap frameBytes = link.filterMap arrived) :
    Conserved link c.state.toCounters ↔ link = [] ∨ (env.args.pid < 0x2000 ∧
      (∀ x ∈ link, isCorrupted x = false) ∧
        ∀ x ∈ link, isIntact x = true → x.1.origin.isSome = true → ReadsSane env oti) := by
  have htally := run_tally hrun
  rw [harrived] at htally
  rw [conserved_iff_counts htally fun f bytes hmem => (hlink.corrupted f bytes hmem).2]
  have hrejected : link.countP (fun x => isIntact x && rejected env x.1.bytes) = 0 ↔
      ∀ x ∈ link, isIntact x = true → env.args.pid < 0x2000 ∧
        (x.1.origin.isSome = true → ReadsSane env oti) := by
    rw [countP_eq_zero_iff]
    apply forall₂_congr
    intro x hx
    obtain ⟨i, hi⟩ := List.mem_iff_getElem?.mp hx
    rw [Bool.and_eq_false_imp, rejected_wire hw hfit (hlink.wire_eq hi)]
    rfl
  rw [hrejected]
  by_cases hnil : link = []
  · subst hnil
    simp [ccsRead, ccLoss]
  by_cases hpid : env.args.pid < 0x2000
  · have hnumbered : ∀ i x, link[i]? = some x → frameCc env x.1.bytes = some (ccOf i) := by
      intro i x hx
      rw [frameCc_wire hw hfit (hlink.wire_eq hx), if_pos hpid]
    rw [hlink.ccLoss_eq hnumbered]
    have hzero : link.countP isDropped + link.countP isCorrupted = link.countP isDropped ↔
        ∀ x ∈ link, isCorrupted x = false := by
      rw [← countP_eq_zero_iff]
      omega
    rw [hzero]
    simp only [hnil, hpid, true_and, false_or]
  · -- the first packet is intact, and it does not parse
    simp only [hnil, hpid, false_and, or_self, iff_false, not_and]
    intro _ hall
    obtain ⟨x, rest, rfl⟩ := List.exists_cons_of_ne_nil hnil
    exact hall x List.mem_cons_self (hlink.first x rfl)

end Link

namespace Reference

/-- A bit of the header is flipped, and the packet says that there was an error. -/
def withTei (bytes : Bytes) : Bytes := bytes.modify 1 (· ||| 0x80)

/-- Three noops, of which the middle one is corrupted in this way. -/
def noopLink : List (WireFrame × Fate) :=
  [(noopFrame 0x100 0, .intact),
    (noopFrame 0x100 1, .corrupted (withTei (noopFrame 0x100 1).bytes)),
    (noopFrame 0x100 2, .intact)]

lemma transmission_noopLink :
    Transmission (envAt 0x100) ((List.range 3).map (noopFrame 0x100)) noopLink where
  frames_eq := rfl
  corrupted f bytes hmem := by
    obtain rfl : bytes = withTei (noopFrame 0x100 1).bytes := by
      simp only [noopLink, List.mem_cons, Prod.mk.injEq, reduceCtorEq, and_false, List.not_mem_nil,
        or_false, false_or, Fate.corrupted.injEq] at hmem
      exact hmem.2
    exact ⟨frame_of_head ⟨by decide +kernel, by decide +kernel⟩, .transportError,
      by decide +kernel⟩
  first x hx := by
    obtain rfl := Option.some.inj hx
    rfl
  last x hx := by
    obtain rfl := Option.some.inj hx
    rfl
  short burst hburst _ := by
    have hle := hburst.length_le
    have hlength : noopLink.length = 3 := rfl
    omega

/-- Of a noop and fourteen packets two are dropped. -/
def pairLink : List (WireFrame × Fate) :=
  pairWire.zipIdx.map fun (f, i) => (f, if i ∈ [5, 10] then .dropped else .intact)

/-- The decoder's run on what arrives of them. -/
def pairLinkRun : List Action :=
  pairDeliveries Enc.Encoder.oneExtra.oti [0, 1, 2, 3, 4, 6, 7, 8, 9, 11, 12, 13, 14]
    [1, 1, 1, 2, 0, 1, 2, 0, 0, 1, 1, 2, 0]

lemma transmission_pairLink : Transmission (Reference.env 8) pairWire pairLink where
  frames_eq := by decide +kernel
  corrupted f bytes hmem := by
    have hnone : ∀ x ∈ pairLink, isCorrupted x = false := by decide +kernel
    cases hnone _ hmem
  first := by decide +kernel
  last := by decide +kernel
  short burst hburst _ := by
    have hle := hburst.length_le
    have hlength : pairLink.length = 15 := by decide +kernel
    omega

end Reference

/-- Packets that are accepted, that are redundant and that are dropped, and a noop: all fifteen are
counted. -/
theorem conserved_dropped : ∃ w c,
    Enc.Writer.Reachable Reference.codec 0x100 Enc.Encoder.oneExtra.oti w ∧
      Transmission (Reference.env 8) w.wire Reference.pairLink ∧
      runFrom (Reference.env 8) 0 Reference.pairLinkRun = some c ∧
      Reference.pairLinkRun.filterMap frameBytes = Reference.pairLink.filterMap arrived ∧
      c.state.lostPackets = 2 ∧ c.state.toCounters.total IntervalStats.pktsRedundant = 4 ∧
      Conserved Reference.pairLink c.state.toCounters := by
  obtain ⟨w, hw, hfit, hwire⟩ := Reference.exists_pairFrames (List.mem_cons_self ..)
  have hlink : Transmission (Reference.env 8) w.wire Reference.pairLink := by
    rw [hwire]
    exact Reference.transmission_pairLink
  obtain ⟨c, hrun, hobs⟩ : ∃ c, runFrom (Reference.env 8) 0 Reference.pairLinkRun = some c ∧
      (c.state.lostPackets, c.state.toCounters.total IntervalStats.pktsRedundant) = (2, 4) :=
    exists_of_run_map (by decide +kernel)
  obtain ⟨hlost, hredundant⟩ := Prod.mk.inj hobs
  have harrived : Reference.pairLinkRun.filterMap frameBytes =
      Reference.pairLink.filterMap arrived := by
    decide +kernel
  refine ⟨w, c, hw, hlink, hrun, harrived, hlost, hredundant, ?_⟩
  have hw' : Enc.Writer.Reachable (Reference.env 8).wire (Reference.env 8).args.pid
      Enc.Encoder.oneExtra.oti w := hw
  have hintact : ∀ x ∈ Reference.pairLink, isCorrupted x = false := by decide +kernel
  have hsane : ReadsSane (Reference.env 8) Enc.Encoder.oneExtra.oti := by
    unfold ReadsSane
    decide +kernel
  apply (conserved_iff hw' hfit hlink hrun harrived).mpr
  exact Or.inr ⟨by decide, hintact, fun _ _ _ _ => hsane⟩

/-- The middle one of three noops is corrupted: nothing is dropped, and the corrupted packet is
counted as unparseable and as lost. -/
theorem conserved_corrupted : ∃ w acts c,
    Enc.Writer.Reachable Reference.codec 0x100 Reference.params.oti w ∧
      Transmission (Reference.envAt 0x100) w.wire Reference.noopLink ∧
      runFrom (Reference.envAt 0x100) 0 acts = some c ∧
      acts.filterMap frameBytes = Reference.noopLink.filterMap arrived ∧
      c.state.lostPackets = 1 ∧ c.state.toCounters.total IntervalStats.noops = 2 ∧
      c.state.toCounters.total IntervalStats.pktsUnparseable = 1 ∧
      ¬ Conserved Reference.noopLink c.state.toCounters := by
  obtain ⟨w, hw, -, hwire⟩ := Reference.exists_noops 0x100 3
  obtain ⟨c, hrun, hobs⟩ : ∃ c, runFrom (Reference.envAt 0x100) 0 (Reference.deliveries
      (Reference.noopLink.filterMap arrived)) = some c ∧
        (c.state.lostPackets, c.state.toCounters.total IntervalStats.noops,
          c.state.toCounters.total IntervalStats.pktsUnparseable) = (1, 2, 1) :=
    exists_of_run_map (by decide +kernel)
  simp only [Prod.mk.injEq] at hobs
  obtain ⟨hlost, hnoops, hunparseable⟩ := hobs
  refine ⟨w, _, c, hw, ?_, hrun, rfl, hlost, hnoops, hunparseable, fun h => ?_⟩
  · rw [hwire]
    exact Reference.transmission_noopLink
  · have hcounted := h.lostPackets
    rw [hlost] at hcounted
    simp [Reference.noopLink] at hcounted

end RaptorqTs
