import RaptorqTs.Dec.Steps

/-!
# How a frame is classified

A frame ends in one of five branches of the event match, and each branch updates the statistics
in its own way: first the continuity counter of a frame that parses, then the count of the
class.
-/

namespace RaptorqTs

variable {D : Type}

/-- The branches of the event match. -/
inductive FrameClass where
  /-- The packet is ingested. -/
  | ok
  /-- A packet of a block that has been emitted. -/
  | redundant
  | noop
  /-- A data frame whose OTI is not sane. -/
  | insaneOti
  /-- Any parse error. -/
  | unparseable
deriving DecidableEq, Repr

/-- The branch that a frame takes. -/
def classify (env : Env D) (w : Window D) (bytes : Bytes) : FrameClass :=
  match parsePacket env.wire bytes env.args.pid with
  | .ok (.data _ oti payloadId _) =>
    if otiIsSane oti = false then .insaneOti
    else if w.redundant payloadId.sourceBlockNumber then .redundant
    else .ok
  | .ok (.noop _) => .noop
  | .error _ => .unparseable

/-- The continuity counter of a frame that parses. -/
def frameCc (env : Env D) (bytes : Bytes) : Option UInt8 :=
  match parsePacket env.wire bytes env.args.pid with
  | .ok (.data cc _ _ _) => some cc
  | .ok (.noop cc) => some cc
  | .error _ => none

/-- The continuity-counter part of the event match. -/
def Counters.countCc (c : Counters) : Option UInt8 → Counters
  | some cc => c.countGap cc
  | none => c

/-- The count of the branch. -/
def Counters.count (c : Counters) : FrameClass → Counters
  | .ok => c.countOk
  | .redundant => c.countRedundant
  | .noop => c.countNoop
  | .insaneOti => c.countUnparseable
  | .unparseable => c.countUnparseable

variable {env : Env D}

/-- The frames that are classified as ok are those that are accepted into a block. -/
lemma classify_eq_ok {w : Window D} {bytes : Bytes} :
    classify env w bytes = .ok ↔ (acceptedBlock env w (.frame bytes)).isSome = true := by
  unfold classify acceptedBlock saneFrame dataFrame
  cases hp : parsePacket env.wire bytes env.args.pid with
  | error e => simp only [hp, reduceCtorEq, Option.isSome_none, Bool.false_eq_true]
  | ok f =>
    cases f with
    | noop cc => simp only [hp, reduceCtorEq, Option.isSome_none, Bool.false_eq_true]
    | data cc oti id symbol =>
      simp only [hp]
      cases otiIsSane oti with
      | false => simp
      | true => cases hred : w.redundant id.sourceBlockNumber <;> simp [hred]

/-- **The statistics of a frame.** -/
theorem step_counters {c c' : Conf D} {now : Instant} {bytes : Bytes}
    (h : step env c (.event now (.frame bytes)) = some c') :
    c'.state.toCounters =
      (c.state.toCounters.countCc (frameCc env bytes)).count (classify env c.window bytes) := by
  simp only [step, Option.ite_none_right_eq_some] at h
  obtain ⟨-, h⟩ := h
  simp only [onEvent] at h
  unfold frameCc classify
  cases hp : parsePacket env.wire bytes env.args.pid with
  | error e =>
    simp only [hp, Option.some.injEq] at h
    rw [← h]
    rfl
  | ok f =>
    cases f with
    | noop cc =>
      simp only [hp, Option.some.injEq] at h
      rw [← h]
      rfl
    | data cc oti id symbol =>
      simp only [hp, onData_eq] at h
      simp only
      split_ifs at h ⊢ with hsane hred
      · simp only [Option.some.injEq] at h
        rw [← h]
        rfl
      · simp only [Option.some.injEq] at h
        rw [← h]
        rfl
      · cases haccept : (c.state.toWindow.joined id.sourceBlockNumber).accept env now
          (c.state.toWindow.route id.sourceBlockNumber) id.sourceBlockNumber oti ⟨id, symbol⟩ with
        | none => simp [haccept] at h
        | some w =>
          simp only [haccept, Option.map_some, Option.some.injEq] at h
          rw [← h]
          rfl

/-- A frame is accepted exactly when it is counted in `pkts_ok`. -/
theorem step_pktsOk {c c' : Conf D} {now : Instant} {ev : Event}
    (h : step env c (.event now ev) = some c') :
    c'.state.istats.pktsOk =
      c.state.istats.pktsOk + if (acceptedBlock env c.window ev).isSome then 1 else 0 := by
  cases ev with
  | tick =>
    simp only [step, onEvent, Option.ite_none_right_eq_some, Option.some.injEq] at h
    rw [← h.2]
    rfl
  | frame bytes =>
    have hcc : (c.state.toCounters.countCc (frameCc env bytes)).istats.pktsOk =
        c.state.istats.pktsOk := by
      cases frameCc env bytes <;> rfl
    rw [step_counters h, ← hcc]
    by_cases hok : classify env c.window bytes = .ok
    · rw [hok, if_pos (classify_eq_ok.mp hok)]
      rfl
    · rw [if_neg (fun haccepted => hok (classify_eq_ok.mpr haccepted))]
      cases hcls : classify env c.window bytes with
      | ok => exact absurd hcls hok
      | redundant | noop | insaneOti | unparseable => rfl

end RaptorqTs
