import RaptorqTs.Dec.Classify
import RaptorqTs.Dec.Recovery

/-!
# The packet statistics of a run

The packet counts are kept for one interval at a time, and logged and reset with it. Their sums
over all intervals depend on the frames alone, except that a sane data frame is counted as ok
or as redundant: the loss is the sum of the gaps between the continuity counters of the frames
that parse, and each frame is counted once.
-/

namespace RaptorqTs

variable {D : Type}

/-- The sum of a statistic over all intervals, the current one included. -/
def Counters.total (f : IntervalStats → ℕ) (c : Counters) : ℕ := (c.statsLog.map f).sum + f c.istats

/-- The statistics that count packets. -/
def packetCounts : List (IntervalStats → ℕ) :=
  [IntervalStats.pktsOk, IntervalStats.pktsRedundant, IntervalStats.noops,
    IntervalStats.pktsUnparseable, IntervalStats.pktsLost]

/-- The loss that `cc_gap` infers from a sequence of continuity counters. -/
def ccLoss (lastCc : Option UInt8) : List UInt8 → ℕ
  | [] => 0
  | cc :: ccs => (ccGap lastCc cc).1 + ccLoss (some cc) ccs

/-- The frame is counted as unparseable, as it does not parse or its OTI is not sane. -/
def rejected (env : Env D) (bytes : Bytes) : Bool :=
  match parsePacket env.wire bytes env.args.pid with
  | .ok (.data _ oti _ _) => !otiIsSane oti
  | .ok (.noop _) => false
  | .error _ => true

lemma ccLoss_concat (lastCc : Option UInt8) (ccs : List UInt8) (cc : UInt8) :
    ccLoss lastCc (ccs ++ [cc]) = ccLoss lastCc ccs + (ccGap (ccs.getLast?.or lastCc) cc).1 := by
  induction ccs generalizing lastCc with
  | nil => simp [ccLoss]
  | cons cc' ccs ih =>
    have hlast : (cc' :: ccs).getLast?.or lastCc = ccs.getLast?.or (some cc') := by
      rw [List.getLast?_cons]
      cases ccs.getLast? <;> rfl
    rw [List.cons_append, ccLoss, ccLoss, ih, hlast, Nat.add_assoc]

/-! ## Steps that deliver no frame -/

/-- The packet statistics are the same, whichever interval they are in. -/
structure Quiet (c c' : Counters) : Prop where
  lastCc : c'.lastCc = c.lastCc
  lostPackets : c'.lostPackets = c.lostPackets
  total : ∀ f ∈ packetCounts, c'.total f = c.total f

lemma Quiet.refl (c : Counters) : Quiet c c := ⟨rfl, rfl, fun _ _ => rfl⟩

lemma Quiet.logStats (env : Env D) (c : Counters) (clk : Clock) :
    Quiet c (c.logStats env clk) := by
  unfold Counters.logStats
  cases env.statsInterval with
  | none => exact Quiet.refl c
  | some interval =>
    simp only
    split_ifs with hdue
    · refine ⟨rfl, rfl, fun f hf => ?_⟩
      -- the interval moves to the log, and the next one starts from zero
      have hzero : ∀ f ∈ packetCounts, f {} = 0 := by decide
      simp only [Counters.total, List.map_append, List.map_singleton, List.sum_append,
        List.sum_singleton, hzero f hf, Nat.add_zero]
    · exact Quiet.refl c

/-- A pass of the drain loop counts blocks, and no packets. -/
lemma Quiet.drainStep {env : Env D} {clk : Clock} {s s' : State D}
    (h : drainStep env clk s = some s') : Quiet s.toCounters s'.toCounters := by
  unfold RaptorqTs.drainStep at h
  have hcount : ∀ c' : Counters, c'.statsLog = s.statsLog → c'.lastCc = s.lastCc →
      c'.lostPackets = s.lostPackets → (∀ f ∈ packetCounts, f c'.istats = f s.istats) →
        Quiet s.toCounters c' := by
    intro c' hlog hcc hlost hcounts
    refine ⟨hcc, hlost, fun f hf => ?_⟩
    rw [Counters.total, Counters.total, hlog, hcounts f hf]
  cases hhead : s.pool[s.cursor]? with
  | none =>
    simp only [hhead, Option.ite_none_right_eq_some, Option.some.injEq] at h
    rw [← h.2]
    exact hcount _ rfl rfl rfl (by simp [packetCounts, Counters.countZero])
  | some b =>
    cases hc : b.completed with
    | some data =>
      simp only [hhead, hc, Option.some.injEq] at h
      rw [← h]
      exact hcount _ rfl rfl rfl (by simp [packetCounts, Counters.countDecoded])
    | none =>
      simp only [hhead, hc, Option.ite_none_right_eq_some, Option.some.injEq] at h
      rw [← h.2]
      exact hcount _ rfl rfl rfl (by simp [packetCounts, Counters.countBestEffort])

/-- An action that delivers no frame leaves the packet statistics as they are. -/
theorem step_quiet {env : Env D} {c c' : Conf D} {a : Action} (h : step env c a = some c')
    (ha : frameBytes a = none) : Quiet c.state.toCounters c'.state.toCounters := by
  cases a with
  | event now ev =>
    cases ev with
    | frame bytes => simp [frameBytes] at ha
    | tick =>
      simp only [step, onEvent, Option.ite_none_right_eq_some, Option.some.injEq] at h
      rw [← h.2]
      exact Quiet.refl _
  | pass clk =>
    simp only [step, Option.ite_none_right_eq_some] at h
    obtain ⟨-, h⟩ := h
    cases hdrain : drainStep env clk c.state with
    | some s =>
      simp only [hdrain, Option.some.injEq] at h
      rw [← h]
      exact Quiet.drainStep hdrain
    | none =>
      simp only [hdrain, Option.some.injEq] at h
      rw [← h]
      exact Quiet.logStats env _ clk
  | disconnect =>
    simp only [step, Option.ite_none_right_eq_some, Option.some.injEq] at h
    rw [← h.2]
    exact Quiet.refl _

/-! ## What a frame adds -/

/-- The packets received, over all intervals. -/
def Counters.received (c : Counters) : ℕ :=
  c.total IntervalStats.pktsOk + c.total IntervalStats.pktsRedundant +
    c.total IntervalStats.noops + c.total IntervalStats.pktsUnparseable

/-- The frame is classified as unparseable, for one reason or the other. -/
lemma rejected_eq {env : Env D} (w : Window D) (bytes : Bytes) : rejected env bytes =
    decide (classify env w bytes = .unparseable ∨ classify env w bytes = .insaneOti) := by
  unfold rejected classify
  cases parsePacket env.wire bytes env.args.pid with
  | error e => simp
  | ok f =>
    cases f with
    | noop cc => simp
    | data cc oti id symbol =>
      simp only
      split_ifs with hsane hred
      · simp [hsane]
      · simp [hsane]
      · simp [hsane]

section Counters

variable (c : Counters)

lemma Counters.received_count (cls : FrameClass) :
    (c.count cls).received = c.received + 1 := by
  cases cls with
  | ok => simp only [received, total, count, countOk]; omega
  | redundant => simp only [received, total, count, countRedundant]; omega
  | noop => simp only [received, total, count, countNoop]; omega
  | insaneOti => simp only [received, total, count, countUnparseable]; omega
  | unparseable => simp only [received, total, count, countUnparseable]; omega

lemma Counters.unparseable_count (cls : FrameClass) :
    (c.count cls).total IntervalStats.pktsUnparseable = c.total IntervalStats.pktsUnparseable +
      if cls = .unparseable ∨ cls = .insaneOti then 1 else 0 := by
  cases cls <;> rfl

lemma Counters.lost_count (cls : FrameClass) : (c.count cls).lastCc = c.lastCc ∧
    (c.count cls).lostPackets = c.lostPackets ∧
      (c.count cls).total IntervalStats.pktsLost = c.total IntervalStats.pktsLost := by
  cases cls <;> exact ⟨rfl, rfl, rfl⟩

lemma Counters.lost_countGap (cc : UInt8) : (c.countGap cc).lastCc = some cc ∧
    (c.countGap cc).lostPackets = c.lostPackets + (ccGap c.lastCc cc).1 ∧
      (c.countGap cc).total IntervalStats.pktsLost =
        c.total IntervalStats.pktsLost + (ccGap c.lastCc cc).1 := by
  refine ⟨rfl, rfl, ?_⟩
  simp only [total, countGap]
  omega

end Counters

/-! ## Runs -/

/-- The statistics of a run that has been delivered the frames. -/
structure Tally (env : Env D) (frames : List Bytes) (c : Counters) : Prop where
  lastCc : c.lastCc = (frames.filterMap (frameCc env)).getLast?
  lostPackets : c.lostPackets = ccLoss none (frames.filterMap (frameCc env))
  pktsLost : c.total IntervalStats.pktsLost = ccLoss none (frames.filterMap (frameCc env))
  unparseable : c.total IntervalStats.pktsUnparseable = frames.countP (rejected env)
  received : c.received = frames.length

section Tally

variable {env : Env D} {frames : List Bytes} {c c' : Counters}

lemma Tally.init (now : Instant) : Tally env [] (Counters.init now) := ⟨rfl, rfl, rfl, rfl, rfl⟩

lemma Tally.quiet (h : Tally env frames c) (hq : Quiet c c') : Tally env frames c' := by
  have htotal := hq.total
  simp only [packetCounts, List.forall_mem_cons] at htotal
  obtain ⟨hok, hred, hnoop, hunp, hlost, -⟩ := htotal
  refine ⟨?_, ?_, ?_, ?_, ?_⟩
  · rw [hq.lastCc, h.lastCc]
  · rw [hq.lostPackets, h.lostPackets]
  · rw [hlost, h.pktsLost]
  · rw [hunp, h.unparseable]
  · rw [Counters.received, hok, hred, hnoop, hunp]
    exact h.received

/-- A frame is counted once, and its continuity counter, if it can be read, with the one before
it. -/
lemma Tally.frame (h : Tally env frames c) (w : Window D) (bytes : Bytes) :
    Tally env (frames ++ [bytes])
      ((c.countCc (frameCc env bytes)).count (classify env w bytes)) := by
  have hunp : ((c.countCc (frameCc env bytes)).count (classify env w bytes)).total
      IntervalStats.pktsUnparseable = (frames ++ [bytes]).countP (rejected env) := by
    rw [Counters.unparseable_count, List.countP_append, List.countP_singleton, ← h.unparseable,
      rejected_eq w]
    simp only [decide_eq_true_eq]
    cases frameCc env bytes <;> rfl
  have hreceived : ((c.countCc (frameCc env bytes)).count (classify env w bytes)).received =
      (frames ++ [bytes]).length := by
    rw [Counters.received_count, List.length_append, List.length_singleton, ← h.received]
    cases frameCc env bytes <;> rfl
  have hccs : (frames ++ [bytes]).filterMap (frameCc env) =
      frames.filterMap (frameCc env) ++ (frameCc env bytes).toList := by
    rw [List.filterMap_append]
    cases hcc : frameCc env bytes <;> simp [hcc]
  obtain ⟨hlast, hlost, hpkts⟩ :=
    (c.countCc (frameCc env bytes)).lost_count (classify env w bytes)
  cases hcc : frameCc env bytes with
  | none =>
    rw [hcc] at hlast hlost hpkts hccs hunp hreceived
    rw [Option.toList_none, List.append_nil] at hccs
    refine ⟨?_, ?_, ?_, hunp, hreceived⟩
    · rw [hccs]
      exact hlast.trans h.lastCc
    · rw [hccs]
      exact hlost.trans h.lostPackets
    · rw [hccs]
      exact hpkts.trans h.pktsLost
  | some cc =>
    rw [hcc] at hlast hlost hpkts hccs hunp hreceived
    -- the gap to the counter before
    obtain ⟨hlast', hlost', hpkts'⟩ := c.lost_countGap cc
    have hloss : ccLoss none ((frames ++ [bytes]).filterMap (frameCc env)) =
        ccLoss none (frames.filterMap (frameCc env)) + (ccGap c.lastCc cc).1 := by
      rw [hccs, Option.toList_some, ccLoss_concat, ← h.lastCc, Option.or_none]
    refine ⟨?_, ?_, ?_, hunp, hreceived⟩
    · rw [hccs, Option.toList_some, List.getLast?_concat]
      exact hlast.trans hlast'
    · rw [hloss, ← h.lostPackets]
      exact hlost.trans hlost'
    · rw [hloss, ← h.pktsLost]
      exact hpkts.trans hpkts'

/-- **The packet statistics of a run** are those of the frames it has been delivered, wherever
the statistics are logged and reset. -/
theorem run_tally {now : Instant} {acts : List Action} {c : Conf D}
    (h : runFrom env now acts = some c) :
    Tally env (acts.filterMap frameBytes) c.state.toCounters := by
  refine Machine.run_induction
    (P := fun acts (c : Conf D) => Tally env (acts.filterMap frameBytes) c.state.toCounters)
    (Tally.init now) ?_ h
  intro acts c a c' _ ih hstep
  rw [List.filterMap_append]
  cases ha : frameBytes a with
  | none =>
    rw [show [a].filterMap frameBytes = [] by simp [ha], List.append_nil]
    exact ih.quiet (step_quiet hstep ha)
  | some bytes =>
    rw [show [a].filterMap frameBytes = [bytes] by simp [ha]]
    obtain ⟨now', rfl⟩ := frameBytes_eq_some.mp ha
    rw [step_counters hstep]
    exact ih.frame c.window bytes

end Tally

end RaptorqTs
