import RaptorqTs.Lib.BTreeMap
import RaptorqTs.Lib.Machine
import RaptorqTs.Common.Reference
import RaptorqTs.Dec.Block
import RaptorqTs.Dec.Sbn

/-!
# `run_decoder`

The main loop of the decoder as a machine. A configuration is a program point with the
loop's variables; an action is what the environment decides: the next event with the clock
reading at which it is handled, the clock readings of one pass of the drain loop, or the
closing of the input.

`cursor` and `highest_seen` are naturals, as they only count blocks. The sum
`cursor + max_in_flight` is taken modulo `2^64`, because the window size comes unchecked
from the command line.
-/

namespace RaptorqTs

/-- The decoder's command line. -/
structure Args where
  pid : UInt16
  maxBlocksInFlight : UInt64
  blockTimeoutMs : ℕ
  statsIntervalSecs : ℕ
deriving DecidableEq, Repr

/-- What `run_decoder` works with: its arguments and the FEC crate. -/
structure Env (D : Type) where
  args : Args
  wire : WireCodec
  dec : SourceBlockDecoder D

def Env.timeout {D : Type} (env : Env D) : ℕ := env.args.blockTimeoutMs * 1000000

def Env.maxInFlight {D : Type} (env : Env D) : ℕ := env.args.maxBlocksInFlight.toNat

def Env.statsInterval {D : Type} (env : Env D) : Option ℕ :=
  if 0 < env.args.statsIntervalSecs then some (env.args.statsIntervalSecs * 1000000000) else none

/-- Release-build `u64` addition. -/
def wrappingAdd (a b : ℕ) : ℕ := (a + b) % 2 ^ 64

lemma wrappingAdd_of_lt {a b : ℕ} (h : a + b < 2 ^ 64) : wrappingAdd a b = a + b :=
  Nat.mod_eq_of_lt h

lemma wrappingAdd_le (a b : ℕ) : wrappingAdd a b ≤ a + b := Nat.mod_le _ _

/-! ## The loop's variables -/

/-- The arm of the emission code that wrote a block. -/
inductive EmitKind where
  | decoded
  | bestEffort
  | zero
deriving DecidableEq, Repr

/-- One `stdout.write_all`, with the block number and the arm that the log line next to
it records. -/
structure Emission where
  sbn : ℕ
  kind : EmitKind
  data : Bytes
deriving DecidableEq, Repr

/-- The reorder window, and what has been written. -/
structure Window (D : Type) where
  pool : BTreeMap ℕ (BlockState D)
  cursor : ℕ
  highestSeen : ℕ
  started : Bool
  /-- History variable: the cursor set by the first accepted frame. No branch reads it. -/
  first : ℕ
  stdout : List Emission

/-- `IntervalStats`. -/
structure IntervalStats where
  decoded : ℕ := 0
  besteffort : ℕ := 0
  beTimedOut : ℕ := 0
  beForced : ℕ := 0
  beSymsRcvd : ℕ := 0
  beSymsNeeded : ℕ := 0
  zero : ℕ := 0
  pktsOk : ℕ := 0
  noops : ℕ := 0
  pktsRedundant : ℕ := 0
  pktsUnparseable : ℕ := 0
  pktsLost : ℕ := 0
deriving DecidableEq, Repr

/-- The statistics of a run; `statsLog` is what `log_interval_stats` has printed. -/
structure Counters where
  decodedBlocks : ℕ
  besteffortBlocks : ℕ
  zeroBlocks : ℕ
  redundantPackets : ℕ
  lostPackets : ℕ
  lastCc : Option UInt8
  istats : IntervalStats
  lastStats : Instant
  statsLog : List IntervalStats

structure State (D : Type) extends Window D, Counters

def Window.init {D : Type} : Window D where
  pool := ∅
  cursor := 0
  highestSeen := 0
  started := false
  first := 0
  stdout := []

def Counters.init (now : Instant) : Counters where
  decodedBlocks := 0
  besteffortBlocks := 0
  zeroBlocks := 0
  redundantPackets := 0
  lostPackets := 0
  lastCc := none
  istats := {}
  lastStats := now
  statsLog := []

/-- The bytes written so far. -/
def Window.bytes {D : Type} (w : Window D) : Bytes := w.stdout.flatMap Emission.data

/-! ## The event match -/

/-- Where control goes: the head of the outer loop, the drain loop, or out. -/
inductive Point where
  | recv
  | drain
  | closed
deriving DecidableEq, Repr

/-- `rx.recv_timeout`: a packet, or the poll tick. -/
inductive Event where
  | frame (bytes : Bytes)
  | tick
deriving DecidableEq, Repr

section Model

variable {D : Type} (env : Env D)

/-- The continuity-counter part of the two frame arms. -/
def Counters.countGap (c : Counters) (cc : UInt8) : Counters :=
  let (gap, lastCc) := ccGap c.lastCc cc
  { c with
    lastCc := lastCc
    lostPackets := c.lostPackets + gap
    istats := { c.istats with pktsLost := c.istats.pktsLost + gap } }

def Counters.countUnparseable (c : Counters) : Counters :=
  { c with istats := { c.istats with pktsUnparseable := c.istats.pktsUnparseable + 1 } }

def Counters.countRedundant (c : Counters) : Counters :=
  { c with
    redundantPackets := c.redundantPackets + 1
    istats := { c.istats with pktsRedundant := c.istats.pktsRedundant + 1 } }

def Counters.countOk (c : Counters) : Counters :=
  { c with istats := { c.istats with pktsOk := c.istats.pktsOk + 1 } }

def Counters.countNoop (c : Counters) : Counters :=
  { c with istats := { c.istats with noops := c.istats.noops + 1 } }

/-- The block number a frame's SBN stands for. The first frame sets the cursor. -/
def Window.locate (w : Window D) (sbnU8 : UInt8) : ℕ × Window D :=
  if w.started then (unwrapSbn w.cursor sbnU8, w)
  else (sbnU8.toNat, { w with
    cursor := sbnU8.toNat
    highestSeen := sbnU8.toNat
    started := true
    first := sbnU8.toNat })

/-- The pool entry of `logical`, created if there is none. -/
def Window.entry (w : Window D) (now : Instant) (logical : ℕ) (sbnU8 : UInt8)
    (oti : ObjectTransmissionInformation) : BlockState D :=
  match w.pool[logical]? with
  | some b => b
  | none => BlockState.new env.dec sbnU8 oti now

/-- Ingest a frame into the block `logical`; `none` when the FEC decoder panics. -/
def Window.accept (w : Window D) (now : Instant) (logical : ℕ) (sbnU8 : UInt8)
    (oti : ObjectTransmissionInformation) (pkt : EncodingPacket) : Option (Window D) :=
  match (w.entry env now logical sbnU8 oti).ingest env.dec pkt with
  | some b => some { w with
      highestSeen := if w.highestSeen < logical then logical else w.highestSeen
      pool := w.pool.insert logical b }
  | none => none

/-- The data-frame arm. Its two `continue`s go back to the head of the outer loop. -/
def onData (now : Instant) (cc : UInt8) (oti : ObjectTransmissionInformation)
    (payloadId : PayloadId) (symbol : Bytes) (s : State D) : Option (Point × State D) :=
  let c := s.toCounters.countGap cc
  -- corruption that the header checks did not notice
  if otiIsSane oti = false then some (.recv, ⟨s.toWindow, c.countUnparseable⟩)
  else
    let sbnU8 := payloadId.sourceBlockNumber
    let (logical, w) := s.toWindow.locate sbnU8
    -- a late packet of a block that has been emitted
    if logical < w.cursor then some (.recv, ⟨w, c.countRedundant⟩)
    else
      match w.accept env now logical sbnU8 oti ⟨payloadId, symbol⟩ with
      | some w => some (.drain, ⟨w, c.countOk⟩)
      | none => none

/-- The match on what `recv_timeout` returned. -/
def onEvent (now : Instant) (ev : Event) (s : State D) : Option (Point × State D) :=
  match ev with
  | .tick => some (.drain, s)
  | .frame bytes =>
    match parsePacket env.wire bytes env.args.pid with
    | .ok (.data cc oti payloadId symbol) => onData env now cc oti payloadId symbol s
    | .ok (.noop cc) => some (.drain, ⟨s.toWindow, (s.toCounters.countGap cc).countNoop⟩)
    | .error _ => some (.drain, ⟨s.toWindow, s.toCounters.countUnparseable⟩)

/-! ## The drain loop -/

/-- The clock readings of one pass: by the guard of the best-effort arm, inside that arm,
and by the statistics after the loop has ended. -/
structure Clock where
  guard : Instant
  timedOut : Instant
  statsElapsed : Instant
  statsReset : Instant

/-- All readings of a pass at one time. -/
def Clock.at (t : Instant) : Clock := ⟨t, t, t, t⟩

def shouldForce (w : Window D) : Bool :=
  match w.pool.keys.getLast? with
  | some hi => decide (wrappingAdd w.cursor env.maxInFlight ≤ hi)
  | none => false

def Window.emit (w : Window D) (kind : EmitKind) (data : Bytes) : Window D :=
  { w with stdout := w.stdout ++ [⟨w.cursor, kind, data⟩], cursor := w.cursor + 1 }

def Window.remove (w : Window D) (k : ℕ) : Window D := { w with pool := w.pool.erase k }

def Counters.countDecoded (c : Counters) : Counters :=
  { c with
    decodedBlocks := c.decodedBlocks + 1
    istats := { c.istats with decoded := c.istats.decoded + 1 } }

def Counters.countBestEffort (c : Counters) (b : BlockState D) (timedOut : Bool) : Counters :=
  { c with
    besteffortBlocks := c.besteffortBlocks + 1
    istats := { c.istats with
      besteffort := c.istats.besteffort + 1
      beSymsRcvd := c.istats.beSymsRcvd + (b.sourceSymbols.entries.length + b.repairCount)
      beSymsNeeded := c.istats.beSymsNeeded + b.k
      beTimedOut := c.istats.beTimedOut + (if timedOut then 1 else 0)
      beForced := c.istats.beForced + (if timedOut then 0 else 1) } }

def Counters.countZero (c : Counters) : Counters :=
  { c with
    zeroBlocks := c.zeroBlocks + 1
    istats := { c.istats with zero := c.istats.zero + 1 } }

/-- The guard of the zero-block arm. -/
def zeroGuard (w : Window D) : Bool :=
  w.started &&
    (shouldForce env w || decide (wrappingAdd w.cursor env.maxInFlight ≤ w.highestSeen))

/-- One pass of the drain loop; `none` is its `break`. -/
def drainStep (clk : Clock) (s : State D) : Option (State D) :=
  match s.pool[s.cursor]? with
  | some b =>
    match b.completed with
    | some data =>
      some ⟨(s.toWindow.remove s.cursor).emit .decoded data, s.toCounters.countDecoded⟩
    | none =>
      -- the clock is read again for the log line
      if env.timeout ≤ elapsed clk.guard b.firstSeen ∨ shouldForce env s.toWindow then
        let timedOut := decide (env.timeout ≤ elapsed clk.timedOut b.firstSeen)
        some ⟨(s.toWindow.remove s.cursor).emit .bestEffort b.bestEffort,
          s.toCounters.countBestEffort b timedOut⟩
      else none
  | none =>
    if zeroGuard env s.toWindow then
      some ⟨s.toWindow.emit .zero (List.replicate defaultBlockSize 0), s.toCounters.countZero⟩
    else none

/-- The periodic statistics after the drain loop. -/
def Counters.logStats (c : Counters) (clk : Clock) : Counters :=
  match env.statsInterval with
  | some interval =>
    if interval ≤ elapsed clk.statsElapsed c.lastStats then
      { c with statsLog := c.statsLog ++ [c.istats], istats := {}, lastStats := clk.statsReset }
    else c
  | none => c

/-! ## The end of the input -/

/-- `while *cursor < k { *cursor += 1; }` -/
def catchUp (cursor k : ℕ) : ℕ :=
  if cursor < k then catchUp (cursor + 1) k else cursor
termination_by k - cursor

/-- One turn of the loop of `flush_remaining`. -/
def flushKey (w : Window D) (k : ℕ) : Window D :=
  let w := { w with cursor := catchUp w.cursor k }
  match w.pool[k]? with
  | some b =>
    let emission : Emission :=
      match b.completed with
      | some data => ⟨k, .decoded, data⟩
      | none => ⟨k, .bestEffort, b.bestEffort⟩
    { w.remove k with stdout := w.stdout ++ [emission], cursor := k + 1 }
  | none => w

/-- `flush_remaining`. -/
def flushRemaining (w : Window D) : Window D := w.pool.keys.foldl flushKey w

/-! ## The machine -/

/-- A program point with the loop's variables. -/
structure Conf (D : Type) where
  point : Point
  state : State D

/-- What the environment decides. -/
inductive Action where
  | event (now : Instant) (ev : Event)
  | pass (clk : Clock)
  | disconnect

/-- `run_decoder`, one action at a time. -/
def step (c : Conf D) : Action → Option (Conf D)
  | .event now ev =>
    if c.point = .recv then
      match onEvent env now ev c.state with
      | some (point, s) => some ⟨point, s⟩
      | none => none
    else none
  | .pass clk =>
    if c.point = .drain then
      match drainStep env clk c.state with
      | some s => some ⟨.drain, s⟩
      | none => some ⟨.recv, ⟨c.state.toWindow, c.state.toCounters.logStats env clk⟩⟩
    else none
  | .disconnect =>
    if c.point = .recv then
      some ⟨.closed, ⟨flushRemaining c.state.toWindow, c.state.toCounters⟩⟩
    else none

/-- The start of `run_decoder`, at the clock reading `now`. -/
def init (now : Instant) : Conf D := ⟨.recv, ⟨Window.init, Counters.init now⟩⟩

/-- Runs of `run_decoder` started at the clock reading `now`. -/
abbrev runFrom (now : Instant) (acts : List Action) : Option (Conf D) :=
  Machine.run (step env) (init now) acts

/-- The configurations `run_decoder` can reach. -/
def Reachable (c : Conf D) : Prop := ∃ now acts, runFrom env now acts = some c

end Model

/-! ## The decoder over the reference instance -/

namespace Reference

/-- The decoder with its default timeout and without statistics. -/
def env (maxBlocksInFlight : UInt64) : Env Decoder where
  args := ⟨0x100, maxBlocksInFlight, 700, 0⟩
  wire := codec
  dec := decoder

/-- A data frame with the given OTI. -/
def otiFrame (oti : ObjectTransmissionInformation) (sbnU8 : UInt8) (esi : ℕ) (symbol : Bytes) :
    Event :=
  .frame (buildDataPacket codec 0x100 0 oti ⟨⟨sbnU8, esi⟩, symbol⟩
    (List.replicate tsPacketSize 0))

/-- A data frame of the encoder, for blocks of `k` symbols. -/
def frame (k : ℕ) : UInt8 → ℕ → Bytes → Event := otiFrame (blockOti (k * symbolSize) symbolSize)

/-- A symbol with all bytes equal. -/
def flat (b : UInt8) : Bytes := List.replicate symbolSize b

end Reference

/-- Read a run off an evaluation of some observation of its end. -/
lemma exists_of_run_map {D : Type} {env : Env D} {now : Instant} {acts : List Action} {β : Type}
    {f : Conf D → β} {v : β} (h : (runFrom env now acts).map f = some v) :
    ∃ c, runFrom env now acts = some c ∧ f c = v := Option.map_eq_some_iff.mp h

end RaptorqTs
