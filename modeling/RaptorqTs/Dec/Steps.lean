import RaptorqTs.Dec.RunDecoder

/-!
# What a step of `run_decoder` can do

Everything the later files use of `step` is said here once. An event either leaves the
window alone or ingests one packet into one block; a pass of the drain loop either moves the
head of the window to the output, the same way in all three arms, or ends the loop.
`Moves` lists the cases; `step_moves` reads them off the code.
-/

namespace RaptorqTs

variable {D : Type} (env : Env D)

/-! ## Routing -/

/-- The data frame an event carries, if its bytes parse as one. -/
def dataFrame (ev : Event) : Option (ObjectTransmissionInformation × EncodingPacket) :=
  match ev with
  | .tick => none
  | .frame bytes =>
    match parsePacket env.wire bytes env.args.pid with
    | .ok (.data _ oti payloadId symbol) => some (oti, ⟨payloadId, symbol⟩)
    | _ => none

/-- The data frame an event carries, if its OTI is sane as well. -/
def saneFrame (ev : Event) : Option (ObjectTransmissionInformation × EncodingPacket) :=
  match dataFrame env ev with
  | some (oti, pkt) => if otiIsSane oti = true then some (oti, pkt) else none
  | none => none

namespace Window

variable (w : Window D)

/-- The block number a frame with the given SBN is routed to. -/
def route (sbnU8 : UInt8) : ℕ := (w.locate sbnU8).1

/-- The window after a frame with the given SBN has been located. -/
def joined (sbnU8 : UInt8) : Window D := (w.locate sbnU8).2

/-- The window after the block `logical` has been set to `b`. -/
def hold (logical : ℕ) (b : BlockState D) : Window D :=
  { w with
    highestSeen := if w.highestSeen < logical then logical else w.highestSeen
    pool := w.pool.insert logical b }

/-- The frame of an event is routed to a block that has already been emitted. -/
def redundant (sbnU8 : UInt8) : Bool := decide (w.route sbnU8 < (w.joined sbnU8).cursor)

end Window

/-- The block that the frame of an event is accepted into. -/
def acceptedBlock (w : Window D) (ev : Event) : Option ℕ :=
  match saneFrame env ev with
  | some (_, pkt) =>
    let sbnU8 := pkt.payloadId.sourceBlockNumber
    if w.redundant sbnU8 then none else some (w.route sbnU8)
  | none => none

/-- The event is a data frame that the event match drops. -/
def dropped (w : Window D) (ev : Event) : Bool :=
  (dataFrame env ev).isSome && (acceptedBlock env w ev).isNone

namespace Window

variable {w : Window D} {sbnU8 : UInt8}

lemma route_of_started (h : w.started = true) : w.route sbnU8 = unwrapSbn w.cursor sbnU8 := by
  simp [route, locate, h]

lemma joined_of_started (h : w.started = true) : w.joined sbnU8 = w := by
  simp [joined, locate, h]

lemma route_of_idle (h : w.started = false) : w.route sbnU8 = sbnU8.toNat := by
  simp [route, locate, h]

lemma joined_of_idle (h : w.started = false) : w.joined sbnU8 =
    { w with
      cursor := sbnU8.toNat
      highestSeen := sbnU8.toNat
      started := true
      first := sbnU8.toNat } := by
  simp [joined, locate, h]

@[simp] lemma joined_started : (w.joined sbnU8).started = true := by
  cases h : w.started
  · rw [joined_of_idle h]
  · rw [joined_of_started h, h]

@[simp] lemma joined_pool : (w.joined sbnU8).pool = w.pool := by
  cases h : w.started
  · rw [joined_of_idle h]
  · rw [joined_of_started h]

@[simp] lemma joined_stdout : (w.joined sbnU8).stdout = w.stdout := by
  cases h : w.started
  · rw [joined_of_idle h]
  · rw [joined_of_started h]

/-- The block of a packet that has one. -/
lemma entry_of_get {env : Env D} {now : Instant} {logical : ℕ}
    {oti : ObjectTransmissionInformation} {b : BlockState D} (h : w.pool[logical]? = some b) :
    w.entry env now logical sbnU8 oti = b := by
  unfold entry
  rw [h]

/-- The block of the first packet of a block. -/
lemma entry_of_absent {env : Env D} {now : Instant} {logical : ℕ}
    {oti : ObjectTransmissionInformation} (h : w.pool[logical]? = none) :
    w.entry env now logical sbnU8 oti = BlockState.new env.dec sbnU8 oti now := by
  unfold entry
  rw [h]

/-- Only a frame after the first one can be redundant. -/
lemma not_redundant_of_idle (h : w.started = false) : w.redundant sbnU8 = false := by
  simp [redundant, route_of_idle h, joined_of_idle h]

lemma started_of_redundant (h : w.redundant sbnU8 = true) : w.started = true := by
  by_contra hidle
  rw [not_redundant_of_idle (by simpa using hidle)] at h
  cases h

lemma redundant_of_started (h : w.started = true) :
    w.redundant sbnU8 = decide (unwrapSbn w.cursor sbnU8 < w.cursor) := by
  simp [redundant, route_of_started h, joined_of_started h]

lemma cursor_le_route (h : w.redundant sbnU8 = false) :
    (w.joined sbnU8).cursor ≤ w.route sbnU8 := by
  simpa [redundant] using h

end Window

/-! ## Emission -/

/-- What the block number `logical` becomes on the output, given its pool entry. -/
def emissionOf (logical : ℕ) : Option (BlockState D) → Emission
  | none => ⟨logical, .zero, List.replicate defaultBlockSize 0⟩
  | some b =>
    match b.completed with
    | some data => ⟨logical, .decoded, data⟩
    | none => ⟨logical, .bestEffort, b.bestEffort⟩

@[simp] lemma emissionOf_sbn (logical : ℕ) (e : Option (BlockState D)) :
    (emissionOf logical e).sbn = logical := by
  unfold emissionOf
  split
  · rfl
  · split <;> rfl

lemma emissionOf_some_data (logical : ℕ) (b : BlockState D) :
    (emissionOf logical (some b)).data = b.output := by
  cases hc : b.completed <;> simp only [emissionOf, BlockState.output, hc]

/-- The head of the window goes to the output. -/
def Window.advance (w : Window D) : Window D :=
  { w with
    pool := w.pool.erase w.cursor
    cursor := w.cursor + 1
    stdout := w.stdout ++ [emissionOf w.cursor w.pool[w.cursor]?] }

/-- The guards of the drain loop: the head is emitted at the clock reading `t`. -/
def mayAdvance (t : Instant) (w : Window D) : Bool :=
  match w.pool[w.cursor]? with
  | some b =>
    b.completed.isSome || decide (env.timeout ≤ elapsed t b.firstSeen) || shouldForce env w
  | none => zeroGuard env w

variable {env}

/-- A pass that does not end the loop advances the window. -/
lemma drainStep_window {clk : Clock} {s s' : State D} (h : drainStep env clk s = some s') :
    mayAdvance env clk.guard s.toWindow = true ∧ s'.toWindow = s.toWindow.advance := by
  unfold drainStep at h
  cases hhead : s.pool[s.cursor]? with
  | none =>
    rw [hhead] at h
    simp only [Option.ite_none_right_eq_some, Option.some.injEq] at h
    obtain ⟨hguard, rfl⟩ := h
    refine ⟨by simp only [mayAdvance, hhead, hguard], ?_⟩
    simp only [Window.advance, Window.emit, hhead, emissionOf,
      BTreeMap.erase_of_get_eq_none hhead]
  | some b =>
    rw [hhead] at h
    cases hc : b.completed with
    | some data =>
      simp only [hc, Option.some.injEq] at h
      subst h
      refine ⟨by simp [mayAdvance, hhead, hc], ?_⟩
      simp only [Window.advance, Window.emit, Window.remove, hhead, emissionOf, hc]
    | none =>
      simp only [hc, Option.ite_none_right_eq_some, Option.some.injEq] at h
      obtain ⟨hguard, rfl⟩ := h
      refine ⟨by simpa [mayAdvance, hhead, hc] using hguard, ?_⟩
      simp only [Window.advance, Window.emit, Window.remove, hhead, emissionOf, hc]

/-- A pass ends the loop exactly when no guard holds. -/
lemma drainStep_eq_none {clk : Clock} {s : State D} :
    drainStep env clk s = none ↔ mayAdvance env clk.guard s.toWindow = false := by
  unfold drainStep mayAdvance
  cases s.pool[s.cursor]? with
  | none => simp
  | some b => cases hc : b.completed <;> simp [hc]

/-! ## Events -/

lemma saneFrame_eq_some {ev : Event} {oti : ObjectTransmissionInformation}
    {pkt : EncodingPacket} : saneFrame env ev = some (oti, pkt) ↔
      dataFrame env ev = some (oti, pkt) ∧ otiIsSane oti = true := by
  unfold saneFrame
  cases dataFrame env ev with
  | none => simp
  | some f =>
    obtain ⟨o, p⟩ := f
    simp only [Option.ite_none_right_eq_some, Option.some.injEq]
    constructor
    · rintro ⟨hsane, hf⟩
      obtain ⟨rfl, rfl⟩ := Prod.mk.inj hf
      exact ⟨rfl, hsane⟩
    · rintro ⟨hf, hsane⟩
      obtain ⟨rfl, rfl⟩ := Prod.mk.inj hf
      exact ⟨hsane, rfl⟩

lemma acceptedBlock_eq_some {w : Window D} {ev : Event} {logical : ℕ} :
    acceptedBlock env w ev = some logical ↔ ∃ oti pkt, saneFrame env ev = some (oti, pkt) ∧
      w.redundant pkt.payloadId.sourceBlockNumber = false ∧
      w.route pkt.payloadId.sourceBlockNumber = logical := by
  unfold acceptedBlock
  cases saneFrame env ev with
  | none => simp
  | some f =>
    obtain ⟨oti, pkt⟩ := f
    simp

lemma acceptedBlock_of_dropped {w : Window D} {ev : Event} (h : dropped env w ev = true) :
    acceptedBlock env w ev = none := by
  unfold dropped at h
  rw [Bool.and_eq_true] at h
  exact Option.isNone_iff_eq_none.mp h.2

lemma acceptedBlock_of_dataFrame {w : Window D} {ev : Event} (h : dataFrame env ev = none) :
    acceptedBlock env w ev = none := by
  simp [acceptedBlock, saneFrame, h]

/-- The data-frame arm, with the window tests named. -/
lemma onData_eq (now : Instant) (cc : UInt8) (oti : ObjectTransmissionInformation)
    (id : PayloadId) (symbol : Bytes) (s : State D) :
    onData env now cc oti id symbol s =
      if otiIsSane oti = false then
        some (.recv, ⟨s.toWindow, (s.toCounters.countGap cc).countUnparseable⟩)
      else if s.toWindow.redundant id.sourceBlockNumber = true then
        some (.recv, ⟨s.toWindow.joined id.sourceBlockNumber,
          (s.toCounters.countGap cc).countRedundant⟩)
      else
        ((s.toWindow.joined id.sourceBlockNumber).accept env now
          (s.toWindow.route id.sourceBlockNumber) id.sourceBlockNumber oti ⟨id, symbol⟩).map
          fun w => (.drain, ⟨w, (s.toCounters.countGap cc).countOk⟩) := by
  have hlocate : s.toWindow.locate id.sourceBlockNumber
      = (s.toWindow.route id.sourceBlockNumber, s.toWindow.joined id.sourceBlockNumber) := rfl
  unfold onData
  simp only [hlocate, Window.redundant, decide_eq_true_eq]
  split_ifs with hsane hred
  · rfl
  · rfl
  · cases (s.toWindow.joined id.sourceBlockNumber).accept env now
      (s.toWindow.route id.sourceBlockNumber) id.sourceBlockNumber oti ⟨id, symbol⟩ <;> rfl

/-- The window that accepting a packet leaves. -/
lemma accept_joined (w : Window D) (now : Instant) (oti : ObjectTransmissionInformation)
    (id : PayloadId) (symbol : Bytes) :
    (w.joined id.sourceBlockNumber).accept env now (w.route id.sourceBlockNumber)
        id.sourceBlockNumber oti ⟨id, symbol⟩ =
      ((w.entry env now (w.route id.sourceBlockNumber) id.sourceBlockNumber oti).ingest env.dec
        ⟨id, symbol⟩).map
          ((w.joined id.sourceBlockNumber).hold (w.route id.sourceBlockNumber)) := by
  have hentry : (w.joined id.sourceBlockNumber).entry env now (w.route id.sourceBlockNumber)
      id.sourceBlockNumber oti =
        w.entry env now (w.route id.sourceBlockNumber) id.sourceBlockNumber oti := by
    simp only [Window.entry, Window.joined_pool]
  unfold Window.accept
  rw [hentry]
  cases (w.entry env now (w.route id.sourceBlockNumber) id.sourceBlockNumber oti).ingest env.dec
    ⟨id, symbol⟩ <;> rfl

/-- What a data frame does: it is counted only, or its packet is ingested. -/
lemma onData_cases {now : Instant} {cc : UInt8} {oti : ObjectTransmissionInformation}
    {id : PayloadId} {symbol : Bytes} {s s' : State D} {point : Point}
    (h : onData env now cc oti id symbol s = some (point, s')) :
    (point = .recv ∧ s'.toWindow = s.toWindow ∧ s'.istats.pktsOk = s.istats.pktsOk ∧
      (otiIsSane oti = false ∨ s.toWindow.redundant id.sourceBlockNumber = true)) ∨
    (point = .drain ∧ otiIsSane oti = true ∧
      s.toWindow.redundant id.sourceBlockNumber = false ∧
      s'.istats.pktsOk = s.istats.pktsOk + 1 ∧
      ∃ b, (s.toWindow.entry env now (s.toWindow.route id.sourceBlockNumber)
          id.sourceBlockNumber oti).ingest env.dec ⟨id, symbol⟩ = some b ∧
        s'.toWindow = (s.toWindow.joined id.sourceBlockNumber).hold
          (s.toWindow.route id.sourceBlockNumber) b) := by
  rw [onData_eq] at h
  -- an OTI that is not sane, a block that has been emitted, and a packet to ingest
  split_ifs at h with hsane hred
  · simp only [Option.some.injEq, Prod.mk.injEq] at h
    obtain ⟨rfl, rfl⟩ := h
    exact Or.inl ⟨rfl, rfl, rfl, Or.inl hsane⟩
  · -- only a started window drops a frame as redundant, and locating leaves it alone
    rw [Window.joined_of_started (Window.started_of_redundant hred)] at h
    simp only [Option.some.injEq, Prod.mk.injEq] at h
    obtain ⟨rfl, rfl⟩ := h
    exact Or.inl ⟨rfl, rfl, rfl, Or.inr hred⟩
  · right
    rw [accept_joined, Option.map_map] at h
    obtain ⟨b, hb, heq⟩ := Option.map_eq_some_iff.mp h
    simp only [Function.comp_apply, Prod.mk.injEq] at heq
    obtain ⟨rfl, rfl⟩ := heq
    exact ⟨rfl, by simpa using hsane, by simpa using hred, rfl, b, hb, rfl⟩

/-! ## The machine -/

/-- The window of a configuration. -/
abbrev Conf.window (c : Conf D) : Window D := c.state.toWindow

variable (env)

/-- What an action can do to the program point and the window. -/
inductive Moves : Point → Window D → Action → Point → Window D → Prop
  /-- A data frame is dropped, and the drain loop is not entered. -/
  | drop {w now ev} (h : dropped env w ev = true) : Moves .recv w (.event now ev) .recv w
  /-- Anything else that carries no usable frame only leads to the drain loop. -/
  | ignore {w now ev} (hev : dataFrame env ev = none) :
      Moves .recv w (.event now ev) .drain w
  /-- A packet is ingested. -/
  | accept {w now ev oti pkt b} (hev : saneFrame env ev = some (oti, pkt))
      (hred : w.redundant pkt.payloadId.sourceBlockNumber = false)
      (hb : (w.entry env now (w.route pkt.payloadId.sourceBlockNumber)
        pkt.payloadId.sourceBlockNumber oti).ingest env.dec pkt = some b) :
      Moves .recv w (.event now ev) .drain
        ((w.joined pkt.payloadId.sourceBlockNumber).hold
          (w.route pkt.payloadId.sourceBlockNumber) b)
  /-- The drain loop emits the head. -/
  | advance {w clk} (h : mayAdvance env clk.guard w = true) :
      Moves .drain w (.pass clk) .drain w.advance
  /-- The drain loop ends. -/
  | settle {w clk} (h : mayAdvance env clk.guard w = false) :
      Moves .drain w (.pass clk) .recv w
  /-- The input has ended. -/
  | flush {w} : Moves .recv w .disconnect .closed (flushRemaining w)

variable {env}

lemma Moves.event {now : Instant} {ev : Event} {s s' : State D} {point : Point}
    (h : onEvent env now ev s = some (point, s')) :
    Moves env .recv s.toWindow (.event now ev) point s'.toWindow := by
  cases ev with
  | tick =>
    simp only [onEvent, Option.some.injEq, Prod.mk.injEq] at h
    obtain ⟨rfl, rfl⟩ := h
    exact .ignore rfl
  | frame bytes =>
    simp only [onEvent] at h
    cases hp : parsePacket env.wire bytes env.args.pid with
    | error e =>
      simp only [hp, Option.some.injEq, Prod.mk.injEq] at h
      obtain ⟨rfl, rfl⟩ := h
      exact .ignore (by simp only [dataFrame, hp])
    | ok f =>
      cases f with
      | noop cc =>
        simp only [hp, Option.some.injEq, Prod.mk.injEq] at h
        obtain ⟨rfl, rfl⟩ := h
        exact .ignore (by simp only [dataFrame, hp])
      | data cc oti id symbol =>
        simp only [hp] at h
        have hdata : dataFrame env (.frame bytes) = some (oti, ⟨id, symbol⟩) := by
          simp only [dataFrame, hp]
        -- only a data frame can change the window
        rcases onData_cases h with ⟨rfl, hw, -, hdrop⟩ | ⟨rfl, hsane, hred, -, b, hb, hw⟩
        · rw [hw]
          refine .drop ?_
          simp only [dropped, acceptedBlock, saneFrame, hdata]
          rcases hdrop with hinsane | hred
          · simp [hinsane]
          · cases otiIsSane oti <;> simp [hred]
        · rw [hw]
          have hframe : saneFrame env (.frame bytes) =
              some (oti, (⟨id, symbol⟩ : EncodingPacket)) :=
            saneFrame_eq_some.mpr ⟨hdata, hsane⟩
          apply Moves.accept hframe hred
          exact hb

/-- **Inversion of `step`.** -/
theorem step_moves {c c' : Conf D} {a : Action} (h : step env c a = some c') :
    Moves env c.point c.window a c'.point c'.window := by
  cases a with
  | event now ev =>
    simp only [step, Option.ite_none_right_eq_some] at h
    obtain ⟨hpoint, h⟩ := h
    cases hev : onEvent env now ev c.state with
    | none => simp [hev] at h
    | some r =>
      simp only [hev, Option.some.injEq] at h
      subst h
      rw [hpoint]
      exact Moves.event hev
  | pass clk =>
    simp only [step, Option.ite_none_right_eq_some] at h
    obtain ⟨hpoint, h⟩ := h
    rw [hpoint]
    cases hd : drainStep env clk c.state with
    | none =>
      simp only [hd, Option.some.injEq] at h
      subst h
      exact .settle (drainStep_eq_none.mp hd)
    | some s =>
      simp only [hd, Option.some.injEq] at h
      subst h
      -- the three arms emit the head in the same way
      obtain ⟨hmay, hw⟩ := drainStep_window hd
      simp only [Conf.window, hw]
      exact .advance hmay
  | disconnect =>
    simp only [step, Option.ite_none_right_eq_some, Option.some.injEq] at h
    obtain ⟨hpoint, rfl⟩ := h
    rw [hpoint]
    exact .flush

/-- Nothing happens after the input has ended. -/
lemma step_open {c c' : Conf D} {a : Action} (h : step env c a = some c') :
    c.point ≠ .closed := by
  have hm := step_moves h
  generalize c.point = p, c.window = w, c'.point = p', c'.window = w' at hm ⊢
  cases hm <;> decide

/-- What leads on has not ended. -/
lemma run_open {c c' : Conf D} {acts : List Action}
    (h : Machine.run (step env) c acts = some c') (hopen : c'.point ≠ .closed) :
    c.point ≠ .closed := by
  cases acts with
  | nil =>
    obtain rfl : c = c' := Option.some.inj h
    exact hopen
  | cons a acts =>
    obtain ⟨m, hstep, -⟩ := Machine.run_cons_eq_some.mp h
    exact step_open hstep

/-- The end of the input. -/
lemma step_disconnect {c c' : Conf D} (h : step env c .disconnect = some c') :
    c.point = .recv ∧ c'.window = flushRemaining c.window := by
  simp only [step, Option.ite_none_right_eq_some, Option.some.injEq] at h
  obtain ⟨hrecv, rfl⟩ := h
  exact ⟨hrecv, rfl⟩

/-- Where an event leads: a dropped frame back to the head of the outer loop, everything
else to the drain loop. -/
lemma step_event {c c' : Conf D} {now : Instant} {ev : Event}
    (h : step env c (.event now ev) = some c') :
    (dropped env c.window ev = true ∧ c'.point = .recv ∧ c'.window = c.window) ∨
      (dropped env c.window ev = false ∧ c'.point = .drain) := by
  have hm := step_moves h
  generalize c.point = p, c.window = w, c'.point = p', c'.window = w' at hm
  cases hm with
  | drop hdrop => exact Or.inl ⟨hdrop, rfl, rfl⟩
  | ignore hev => exact Or.inr ⟨by simp [dropped, hev], rfl⟩
  | accept hev hred _ =>
    refine Or.inr ⟨?_, rfl⟩
    simp [dropped, acceptedBlock, hev, hred]

/-- What a pass of the drain loop does. -/
lemma step_pass {c c' : Conf D} {clk : Clock} (h : step env c (.pass clk) = some c') :
    c.point = .drain ∧
      ((mayAdvance env clk.guard c.window = true ∧ c'.point = .drain ∧
          c'.window = c.window.advance) ∨
        (mayAdvance env clk.guard c.window = false ∧ c'.point = .recv ∧
          c'.window = c.window)) := by
  have hm := step_moves h
  generalize c.point = p, c.window = w, c'.point = p', c'.window = w' at hm
  cases hm with
  | advance hmay => exact ⟨rfl, Or.inl ⟨hmay, rfl, rfl⟩⟩
  | settle hmay => exact ⟨rfl, Or.inr ⟨hmay, rfl, rfl⟩⟩

/-- An event is handled, unless it carries a packet that makes the FEC decoder panic. -/
lemma exists_step_event {c : Conf D} {now : Instant} {ev : Event} (hrecv : c.point = .recv)
    (h : ∀ oti pkt, saneFrame env ev = some (oti, pkt) →
      c.window.redundant pkt.payloadId.sourceBlockNumber = false →
        ∃ b, (c.window.entry env now (c.window.route pkt.payloadId.sourceBlockNumber)
          pkt.payloadId.sourceBlockNumber oti).ingest env.dec pkt = some b) :
    ∃ c', step env c (.event now ev) = some c' := by
  obtain ⟨⟨point, s⟩, hs⟩ : ∃ r, onEvent env now ev c.state = some r := by
    cases ev with
    | tick => exact ⟨_, rfl⟩
    | frame bytes =>
      simp only [onEvent]
      cases hp : parsePacket env.wire bytes env.args.pid with
      | error e => exact ⟨_, rfl⟩
      | ok f =>
        cases f with
        | noop cc => exact ⟨_, rfl⟩
        | data cc oti id symbol =>
          simp only [onData_eq, accept_joined]
          by_cases hsane : otiIsSane oti = false
          · exact ⟨_, if_pos hsane⟩
          rw [if_neg hsane]
          by_cases hred : c.window.redundant id.sourceBlockNumber = true
          · exact ⟨_, if_pos hred⟩
          rw [if_neg hred]
          have hframe : saneFrame env (.frame bytes) =
              some (oti, (⟨id, symbol⟩ : EncodingPacket)) :=
            saneFrame_eq_some.mpr ⟨by simp only [dataFrame, hp], by simpa using hsane⟩
          obtain ⟨b, hb⟩ := h oti ⟨id, symbol⟩ hframe (by simpa using hred)
          rw [hb]
          exact ⟨_, rfl⟩
  exact ⟨⟨point, s⟩, by simp only [step, hrecv, if_true, hs]⟩

/-- A dropped frame is no more than counted. -/
lemma exists_step_of_dropped {c : Conf D} {ev : Event} (now : Instant) (hrecv : c.point = .recv)
    (h : dropped env c.window ev = true) :
    ∃ c', step env c (.event now ev) = some c' ∧ c'.point = .recv ∧ c'.window = c.window := by
  obtain ⟨c', hstep⟩ : ∃ c', step env c (.event now ev) = some c' := by
    apply exists_step_event hrecv
    intro oti pkt hsane hred
    -- an accepted frame is not dropped
    simp [dropped, acceptedBlock, hsane, hred] at h
  rcases step_event hstep with ⟨-, hpoint, hw⟩ | ⟨hnot, -⟩
  · exact ⟨c', hstep, hpoint, hw⟩
  · rw [h] at hnot
    cases hnot

/-- An event without a data frame goes on to the drain loop. -/
lemma exists_step_of_ignored {c : Conf D} {ev : Event} (now : Instant) (hrecv : c.point = .recv)
    (h : dataFrame env ev = none) :
    ∃ c', step env c (.event now ev) = some c' ∧ c'.point = .drain ∧ c'.window = c.window := by
  obtain ⟨c', hstep⟩ : ∃ c', step env c (.event now ev) = some c' := by
    apply exists_step_event hrecv
    intro oti pkt hsane
    rw [(saneFrame_eq_some.mp hsane).1] at h
    cases h
  have hm := step_moves hstep
  rw [hrecv] at hm
  generalize hp : c'.point = p', hw : c'.window = w' at hm
  cases hm with
  | drop hdrop => simp [dropped, h] at hdrop
  | ignore _ => exact ⟨c', hstep, hp, hw⟩
  | accept hsane _ _ =>
    rw [(saneFrame_eq_some.mp hsane).1] at h
    cases h

/-- A packet of a block that has not been emitted is ingested. -/
lemma exists_step_of_accepted {c : Conf D} {ev : Event} {now : Instant} (hrecv : c.point = .recv)
    {oti : ObjectTransmissionInformation} {pkt : EncodingPacket} {b : BlockState D}
    (hsane : saneFrame env ev = some (oti, pkt))
    (hred : c.window.redundant pkt.payloadId.sourceBlockNumber = false)
    (hb : (c.window.entry env now (c.window.route pkt.payloadId.sourceBlockNumber)
      pkt.payloadId.sourceBlockNumber oti).ingest env.dec pkt = some b) :
    ∃ c', step env c (.event now ev) = some c' ∧ c'.point = .drain ∧
      c'.window = (c.window.joined pkt.payloadId.sourceBlockNumber).hold
        (c.window.route pkt.payloadId.sourceBlockNumber) b := by
  obtain ⟨c', hstep⟩ : ∃ c', step env c (.event now ev) = some c' := by
    apply exists_step_event hrecv
    intro oti' pkt' hsane' _
    rw [hsane, Option.some.injEq, Prod.mk.injEq] at hsane'
    rw [← hsane'.1, ← hsane'.2]
    exact ⟨b, hb⟩
  have hm := step_moves hstep
  rw [hrecv] at hm
  generalize hv : c.window = v at hm hred hb ⊢
  generalize hp : c'.point = p', hw : c'.window = w' at hm
  cases hm with
  | drop hdrop => simp [dropped, acceptedBlock, hsane, hred] at hdrop
  | ignore hnone => simp [saneFrame, hnone] at hsane
  | accept hsane' _ hb' =>
    rw [hsane, Option.some.injEq, Prod.mk.injEq] at hsane'
    obtain ⟨rfl, rfl⟩ := hsane'
    rw [hb, Option.some.injEq] at hb'
    rw [hb']
    exact ⟨c', hstep, hp, hw⟩

/-- A pass is always enabled in the drain loop. -/
lemma exists_step_pass {c : Conf D} (h : c.point = .drain) (clk : Clock) :
    ∃ c', step env c (.pass clk) = some c' := by
  simp only [step, h, if_true]
  cases drainStep env clk c.state <;> simp

/-- **Induction over a run**, on the point and the window, with the actions so far and a
condition `Q` that all the steps satisfy. -/
theorem run_window_induction {Q : Window D → Action → Prop}
    {P : List Action → Point → Window D → Prop} (hinit : P [] .recv Window.init)
    (hmoves : ∀ acts p w a p' w', P acts p w → Q w a → Moves env p w a p' w' →
      P (acts ++ [a]) p' w')
    {now : Instant} {acts : List Action} {c : Conf D}
    (hQ : Machine.EachStep (step env) (init now) (fun c a => Q c.window a) acts)
    (h : runFrom env now acts = some c) : P acts c.point c.window :=
  Machine.run_induction_of (P := fun acts (c : Conf D) => P acts c.point c.window) hinit
    (fun acts _ a _ _ _ hP hQa hstep => hmoves acts _ _ a _ _ hP hQa (step_moves hstep)) hQ h

/-- **Invariant rule** for the point and the window. -/
theorem Reachable.window_induction {P : Point → Window D → Prop} (hinit : P .recv Window.init)
    (hmoves : ∀ p w a p' w', P p w → Moves env p w a p' w' → P p' w') {c : Conf D}
    (h : Reachable env c) : P c.point c.window := by
  obtain ⟨now, acts, hrun⟩ := h
  exact run_window_induction (Q := fun _ _ => True) (P := fun _ p w => P p w) hinit
    (fun _ p w a p' w' hP _ hm => hmoves p w a p' w' hP hm) (fun _ _ _ _ _ _ => trivial) hrun

/-- A step of a run is a step between reachable configurations. -/
lemma Reachable.next {c c' : Conf D} {a : Action} (h : Reachable env c)
    (hstep : step env c a = some c') : Reachable env c' := by
  obtain ⟨now, acts, hrun⟩ := h
  exact ⟨now, acts ++ [a], Machine.run_concat_eq_some.mpr ⟨c, hrun, hstep⟩⟩

lemma Reachable.run {c c' : Conf D} {acts : List Action} (h : Reachable env c)
    (hrun : Machine.run (step env) c acts = some c') : Reachable env c' := by
  obtain ⟨now, pre, hpre⟩ := h
  exact ⟨now, pre ++ acts, Machine.run_append_eq_some.mpr ⟨c, hpre, hrun⟩⟩

end RaptorqTs
