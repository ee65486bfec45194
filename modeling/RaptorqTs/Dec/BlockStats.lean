import RaptorqTs.Dec.Order
import RaptorqTs.Dec.Tally

/-!
# The block statistics of a run

Each block that the drain loop writes is counted twice, for the whole run and for the interval. The
counts agree with each other and with what has been written, wherever the statistics are logged and
reset. The blocks that `flush_remaining` writes at the end are not counted.
-/

namespace RaptorqTs

variable {D : Type} {env : Env D}

/-- The emissions of one arm. -/
def countKind (kind : EmitKind) (written : List Emission) : ℕ :=
  written.countP fun e => decide (e.kind = kind)

/-- The bytes that one arm has written. -/
def bytesOf (kind : EmitKind) (written : List Emission) : ℕ :=
  (written.map fun e => if e.kind = kind then e.data.length else 0).sum

/-- Each best-effort block has one reason. -/
def IntervalStats.Balanced (s : IntervalStats) : Prop :=
  s.beTimedOut + s.beForced = s.besteffort

/-- The statistics of a run whose drain loop has written the emissions. -/
structure BlockTally (written : List Emission) (c : Counters) : Prop where
  decoded : c.decodedBlocks = countKind .decoded written
  bestEffort : c.besteffortBlocks = countKind .bestEffort written
  zero : c.zeroBlocks = countKind .zero written
  total_decoded : c.total IntervalStats.decoded = c.decodedBlocks
  total_bestEffort : c.total IntervalStats.besteffort = c.besteffortBlocks
  total_zero : c.total IntervalStats.zero = c.zeroBlocks
  total_redundant : c.total IntervalStats.pktsRedundant = c.redundantPackets
  reasons : ∀ s ∈ c.statsLog ++ [c.istats], s.Balanced
  needed : c.total IntervalStats.beSymsNeeded * symbolSize = bytesOf .bestEffort written

/-! ## Emissions -/

section Emissions

variable (written : List Emission) (e : Emission)

lemma countKind_concat (kind : EmitKind) :
    countKind kind (written ++ [e]) = countKind kind written + if e.kind = kind then 1 else 0 := by
  unfold countKind
  rw [List.countP_append, List.countP_singleton]
  simp

lemma bytesOf_concat (kind : EmitKind) : bytesOf kind (written ++ [e]) =
    bytesOf kind written + if e.kind = kind then e.data.length else 0 := by
  unfold bytesOf
  rw [List.map_append, List.sum_append, List.map_singleton, List.sum_singleton]

/-- Each emission is one of the three kinds. -/
lemma length_eq_countKind : written.length =
    countKind .decoded written + countKind .bestEffort written + countKind .zero written := by
  induction written using List.reverseRecOn with
  | nil => rfl
  | append_singleton written e ih =>
    rw [List.length_append, List.length_singleton, countKind_concat, countKind_concat,
      countKind_concat, ih]
    cases e.kind <;> simp <;> omega

end Emissions

/-! ## Steps -/

/-- The sums over the intervals do not depend on where an interval ends. -/
lemma Counters.total_logStats {f : IntervalStats → ℕ} (hf : f {} = 0) (env : Env D) (c : Counters)
    (clk : Clock) : (c.logStats env clk).total f = c.total f := by
  unfold Counters.logStats
  cases env.statsInterval with
  | none => rfl
  | some interval =>
    simp only
    split_ifs with hdue
    · rw [total, total, List.map_append, List.map_singleton, List.sum_append, List.sum_singleton,
        hf, Nat.add_zero]
    · rfl

namespace BlockTally

variable {written : List Emission} {c c' : Counters}

lemma init (now : Instant) : BlockTally [] (Counters.init now) where
  decoded := rfl
  bestEffort := rfl
  zero := rfl
  total_decoded := rfl
  total_bestEffort := rfl
  total_zero := rfl
  total_redundant := rfl
  reasons s hs := by
    obtain rfl := List.mem_singleton.mp hs
    rfl
  needed := rfl

lemma logStats (h : BlockTally written c) (env : Env D) (clk : Clock) :
    BlockTally written (c.logStats env clk) := by
  have hlife : (c.logStats env clk).decodedBlocks = c.decodedBlocks ∧
      (c.logStats env clk).besteffortBlocks = c.besteffortBlocks ∧
      (c.logStats env clk).zeroBlocks = c.zeroBlocks ∧
      (c.logStats env clk).redundantPackets = c.redundantPackets := by
    unfold Counters.logStats
    cases env.statsInterval with
    | none => exact ⟨rfl, rfl, rfl, rfl⟩
    | some interval =>
      simp only
      split_ifs <;> exact ⟨rfl, rfl, rfl, rfl⟩
  obtain ⟨hdecoded, hbestEffort, hzero, hredundant⟩ := hlife
  refine ⟨?_, ?_, ?_, ?_, ?_, ?_, ?_, ?_, ?_⟩
  · rw [hdecoded, h.decoded]
  · rw [hbestEffort, h.bestEffort]
  · rw [hzero, h.zero]
  · rw [Counters.total_logStats rfl, hdecoded, h.total_decoded]
  · rw [Counters.total_logStats rfl, hbestEffort, h.total_bestEffort]
  · rw [Counters.total_logStats rfl, hzero, h.total_zero]
  · rw [Counters.total_logStats rfl, hredundant, h.total_redundant]
  · unfold Counters.logStats
    cases env.statsInterval with
    | none => exact h.reasons
    | some interval =>
      simp only
      split_ifs with hdue
      · intro s hs
        rcases List.mem_append.mp hs with hold | hnew
        · exact h.reasons s hold
        · obtain rfl := List.mem_singleton.mp hnew
          rfl
      · exact h.reasons
  · rw [Counters.total_logStats rfl, h.needed]

lemma current (h : BlockTally written c) : c.istats.Balanced :=
  h.reasons _ (List.mem_append_right _ (List.mem_singleton_self _))

/-- Another state of the current interval. -/
lemma reasons_concat (h : BlockTally written c) {s : IntervalStats} (hs : s.Balanced) :
    ∀ t ∈ c.statsLog ++ [s], t.Balanced := by
  intro t ht
  rcases List.mem_append.mp ht with hold | hnew
  · exact h.reasons t (List.mem_append_left _ hold)
  · obtain rfl := List.mem_singleton.mp hnew
    exact hs

/-- A frame is no block. -/
lemma count (h : BlockTally written c) (cls : FrameClass) : BlockTally written (c.count cls) := by
  have hredundant := h.total_redundant
  cases cls with
  | redundant =>
    refine { h with total_redundant := ?_, reasons := h.reasons_concat h.current }
    show (c.statsLog.map IntervalStats.pktsRedundant).sum + (c.istats.pktsRedundant + 1) =
      c.redundantPackets + 1
    rw [← hredundant, Counters.total]
    omega
  | ok => exact { h with reasons := h.reasons_concat h.current }
  | noop => exact { h with reasons := h.reasons_concat h.current }
  | insaneOti => exact { h with reasons := h.reasons_concat h.current }
  | unparseable => exact { h with reasons := h.reasons_concat h.current }

lemma countCc (h : BlockTally written c) (cc : Option UInt8) :
    BlockTally written (c.countCc cc) := by
  cases cc with
  | none => exact h
  | some cc => exact { h with reasons := h.reasons_concat h.current }

/-! ## The arms of the drain loop -/

lemma countDecoded (h : BlockTally written c) (sbn : ℕ) (data : Bytes) :
    BlockTally (written ++ [⟨sbn, .decoded, data⟩]) c.countDecoded := by
  have htotal := h.total_decoded
  refine { h with decoded := ?_, bestEffort := ?_, zero := ?_, total_decoded := ?_,
                  reasons := h.reasons_concat h.current, needed := ?_ }
  · rw [countKind_concat, ← h.decoded]
    rfl
  · rw [countKind_concat, ← h.bestEffort]
    rfl
  · rw [countKind_concat, ← h.zero]
    rfl
  · show (c.statsLog.map IntervalStats.decoded).sum + (c.istats.decoded + 1) = c.decodedBlocks + 1
    rw [← htotal, Counters.total]
    omega
  · rw [bytesOf_concat, ← h.needed]
    rfl

lemma countZero (h : BlockTally written c) (sbn : ℕ) (data : Bytes) :
    BlockTally (written ++ [⟨sbn, .zero, data⟩]) c.countZero := by
  have htotal := h.total_zero
  refine { h with decoded := ?_, bestEffort := ?_, zero := ?_, total_zero := ?_,
                  reasons := h.reasons_concat h.current, needed := ?_ }
  · rw [countKind_concat, ← h.decoded]
    rfl
  · rw [countKind_concat, ← h.bestEffort]
    rfl
  · rw [countKind_concat, ← h.zero]
    rfl
  · show (c.statsLog.map IntervalStats.zero).sum + (c.istats.zero + 1) = c.zeroBlocks + 1
    rw [← htotal, Counters.total]
    omega
  · rw [bytesOf_concat, ← h.needed]
    rfl

/-- A block of `k` symbols is written with as many symbols as are counted as needed. -/
lemma countBestEffort (h : BlockTally written c) (sbn : ℕ) {b : BlockState D} (hb : b.Shape)
    (timedOut : Bool) : BlockTally (written ++ [⟨sbn, .bestEffort, b.bestEffort⟩])
      (c.countBestEffort b timedOut) := by
  have htotal := h.total_bestEffort
  refine { h with decoded := ?_, bestEffort := ?_, zero := ?_, total_bestEffort := ?_,
                  reasons := h.reasons_concat ?_, needed := ?_ }
  · rw [countKind_concat, ← h.decoded]
    rfl
  · rw [countKind_concat, ← h.bestEffort]
    rfl
  · rw [countKind_concat, ← h.zero]
    rfl
  · show (c.statsLog.map IntervalStats.besteffort).sum + (c.istats.besteffort + 1) =
      c.besteffortBlocks + 1
    rw [← htotal, Counters.total]
    omega
  · have hcurrent : c.istats.beTimedOut + c.istats.beForced = c.istats.besteffort := h.current
    show c.istats.beTimedOut + (if timedOut then 1 else 0) +
      (c.istats.beForced + (if timedOut then 0 else 1)) = c.istats.besteffort + 1
    cases timedOut
    · show c.istats.beTimedOut + 0 + (c.istats.beForced + 1) = _
      omega
    · show c.istats.beTimedOut + 1 + (c.istats.beForced + 0) = _
      omega
  · have hneeded := h.needed
    rw [bytesOf_concat, ← hneeded, if_pos rfl]
    show ((c.statsLog.map IntervalStats.beSymsNeeded).sum + (c.istats.beSymsNeeded + b.k)) *
      symbolSize = _
    rw [hb.length_bestEffort, ← hb.blockSize_eq, Counters.total, ← Nat.add_assoc, Nat.add_mul]

/-- A pass of the drain loop counts the block that it writes. -/
lemma drainStep {clk : Clock} {s s' : State D} (h : BlockTally s.stdout s.toCounters)
    (hpool : ∀ b, s.pool[s.cursor]? = some b → b.Shape)
    (hstep : drainStep env clk s = some s') : BlockTally s'.stdout s'.toCounters := by
  unfold RaptorqTs.drainStep at hstep
  cases hhead : s.pool[s.cursor]? with
  | none =>
    simp only [hhead, Option.ite_none_right_eq_some, Option.some.injEq] at hstep
    obtain ⟨-, rfl⟩ := hstep
    exact h.countZero _ _
  | some b =>
    cases hc : b.completed with
    | some data =>
      simp only [hhead, hc, Option.some.injEq] at hstep
      obtain rfl := hstep
      exact h.countDecoded _ _
    | none =>
      simp only [hhead, hc, Option.ite_none_right_eq_some, Option.some.injEq] at hstep
      obtain ⟨-, rfl⟩ := hstep
      exact h.countBestEffort _ (hpool b hhead) _

end BlockTally

/-! ## Runs -/

/-- The lengths of a block in the pool agree, whatever the FEC crate does. -/
lemma Reachable.shape {c : Conf D} (h : Reachable env c) (hopen : c.point ≠ .closed) {k : ℕ}
    {b : BlockState D} (hk : c.window.pool[k]? = some b) : b.Shape :=
  h.pool (Q := BlockState.Shape)
    (fun now hev => BlockState.shape_new (saneFrame_eq_some.mp hev).2 _ now)
    (fun hev hb hi => hb.ingest (saneFrame_data_length hev) hi) hopen hk

/-- What has been written, as the part that is counted and what the flush has added. -/
structure Accounted (c : Conf D) (live flushed : List Emission) : Prop where
  stdout_eq : c.window.stdout = live ++ flushed
  tally : BlockTally live c.state.toCounters
  flushed_eq : c.point ≠ .closed → flushed = []
  kind_ne : ∀ e ∈ flushed, e.kind ≠ .zero

lemma Accounted.open {c : Conf D} {live flushed : List Emission} (h : Accounted c live flushed)
    (hopen : c.point ≠ .closed) : BlockTally c.window.stdout c.state.toCounters := by
  rw [h.stdout_eq, h.flushed_eq hopen, List.append_nil]
  exact h.tally

lemma Accounted.of_tally {c : Conf D} (h : BlockTally c.window.stdout c.state.toCounters) :
    Accounted c c.window.stdout [] :=
  ⟨(List.append_nil _).symm, h, fun _ => rfl, fun e he => by cases he⟩

lemma Moves.stdout_event {p p' : Point} {w w' : Window D} {now : Instant} {ev : Event}
    (hm : Moves env p w (.event now ev) p' w') : w'.stdout = w.stdout := by
  cases hm with
  | drop _ => rfl
  | ignore _ => rfl
  | accept _ _ _ => rw [Window.hold_stdout, Window.joined_stdout]

lemma BlockTally.event {c c' : Conf D} {now : Instant} {ev : Event}
    (h : BlockTally c.window.stdout c.state.toCounters)
    (hstep : RaptorqTs.step env c (.event now ev) = some c') :
    BlockTally c'.window.stdout c'.state.toCounters := by
  rw [(step_moves hstep).stdout_event]
  cases ev with
  | frame bytes =>
    rw [step_counters hstep]
    exact (h.countCc (frameCc env bytes)).count (classify env c.window bytes)
  | tick =>
    simp only [RaptorqTs.step, onEvent, Option.ite_none_right_eq_some, Option.some.injEq] at hstep
    rw [← hstep.2]
    exact h

/-- A step of the decoder. -/
lemma BlockTally.step {c c' : Conf D} {a : Action} (hreach : Reachable env c)
    (h : BlockTally c.window.stdout c.state.toCounters) (hstep : step env c a = some c') :
    ∃ live flushed, Accounted c' live flushed := by
  have hopen := step_open hstep
  cases a with
  | event now ev => exact ⟨_, _, .of_tally (h.event hstep)⟩
  | pass clk =>
    simp only [RaptorqTs.step, Option.ite_none_right_eq_some] at hstep
    obtain ⟨-, hstep⟩ := hstep
    cases hdrain : RaptorqTs.drainStep env clk c.state with
    | some s =>
      simp only [hdrain, Option.some.injEq] at hstep
      obtain rfl := hstep
      exact ⟨_, _, .of_tally (h.drainStep (fun b hb => hreach.shape hopen hb) hdrain)⟩
    | none =>
      simp only [hdrain, Option.some.injEq] at hstep
      obtain rfl := hstep
      exact ⟨_, _, .of_tally (h.logStats env clk)⟩
  | disconnect =>
    simp only [RaptorqTs.step, Option.ite_none_right_eq_some, Option.some.injEq] at hstep
    obtain ⟨-, rfl⟩ := hstep
    refine ⟨_, _, flushRemaining_stdout c.window, h, fun hne => absurd rfl hne, ?_⟩
    intro e he
    obtain ⟨k, hk, rfl⟩ := List.mem_map.mp he
    obtain ⟨b, hb⟩ := BTreeMap.mem_keys.mp hk
    rw [hb]
    exact emissionOf_some_kind k b

lemma Reachable.accounted {c : Conf D} (h : Reachable env c) :
    ∃ live flushed, Accounted c live flushed := by
  obtain ⟨now, acts, hrun⟩ := h
  refine Machine.run_induction (P := fun _ (c : Conf D) => ∃ live flushed, Accounted c live flushed)
    ⟨_, _, .of_tally (BlockTally.init now)⟩ ?_ hrun
  rintro acts c a c' hr ⟨live, flushed, hacc⟩ hstep
  exact (hacc.open (step_open hstep)).step ⟨now, acts, hr⟩ hstep

/-- **The block statistics** of every run: what has been written is what the drain loop has counted
and, once the input is closed, what the flush has added, which is never zeros. The counts of the
run are those of the emissions of each arm and the sums over the intervals, in each interval every
best-effort block has one reason, and the symbols needed for the best-effort blocks are the bytes
that were written for them. Before the end the cursor has moved by one block for each count. -/
theorem block_statistics {c : Conf D} (h : Reachable env c) :
    ∃ live flushed, c.window.stdout = live ++ flushed ∧ BlockTally live c.state.toCounters ∧
      (∀ e ∈ flushed, e.kind ≠ .zero) ∧
      (c.point ≠ .closed → flushed = [] ∧
        c.window.cursor = c.window.first + c.state.decodedBlocks + c.state.besteffortBlocks +
          c.state.zeroBlocks) := by
  obtain ⟨live, flushed, hacc⟩ := h.accounted
  refine ⟨live, flushed, hacc.stdout_eq, hacc.tally, hacc.kind_ne, fun hopen => ?_⟩
  refine ⟨hacc.flushed_eq hopen, ?_⟩
  have htally := hacc.open hopen
  have hlength := length_eq_countKind c.window.stdout
  have hfirst := (h.wf hopen).first_le
  obtain ⟨now, acts, hrun⟩ := h
  rw [(run_liveSpec hrun hopen).stdout_eq, List.length_map, List.length_range',
    ← (run_liveSpec hrun hopen).stdout_eq, ← htally.decoded, ← htally.bestEffort,
    ← htally.zero] at hlength
  omega

/-- Two blocks are decoded, two between them are lost, and one is flushed in the second interval. -/
theorem block_statistics_two_intervals :
    let env : Env Reference.Decoder := { Reference.env 1 with args := ⟨0x100, 1, 700, 1⟩ }
    ∃ c live flushed, Reachable env c ∧ c.state.statsLog.length = 1 ∧
      c.window.stdout = live ++ flushed ∧ live.length = 4 ∧ flushed.length = 1 ∧
      c.state.total IntervalStats.decoded = 2 := by
  intro env
  have hrun : (runFrom env 0
      [.event 0 (Reference.frame 1 0 0 (Reference.flat 1)), .pass (Clock.at 0),
        .pass (Clock.at 2000000000), .event 0 (Reference.frame 1 3 0 (Reference.flat 2)),
        .pass (Clock.at 0), .pass (Clock.at 0), .pass (Clock.at 0), .pass (Clock.at 0),
        .event 0 (Reference.frame 2 4 0 (Reference.flat 3)), .pass (Clock.at 0), .disconnect]).map
          (fun c => ((c.state.statsLog.length, c.window.stdout.length),
            (c.state.decodedBlocks, c.state.besteffortBlocks, c.state.zeroBlocks))) =
      some ((1, 5), (2, 0, 2)) := by
    decide +kernel
  obtain ⟨c, hc, hobs⟩ := exists_of_run_map hrun
  simp only [Prod.mk.injEq] at hobs
  obtain ⟨⟨hlog, hstdout⟩, hdecoded, hbestEffort, hzero⟩ := hobs
  have hreach : Reachable env c := ⟨0, _, hc⟩
  obtain ⟨live, flushed, heq, htally, -, -⟩ := block_statistics hreach
  have hlive : live.length = 4 := by
    rw [length_eq_countKind, ← htally.decoded, ← htally.bestEffort, ← htally.zero, hdecoded,
      hbestEffort, hzero]
  rw [heq, List.length_append, hlive] at hstdout
  refine ⟨c, live, flushed, hreach, hlog, heq, hlive, by omega, ?_⟩
  rw [htally.total_decoded, hdecoded]

end RaptorqTs
