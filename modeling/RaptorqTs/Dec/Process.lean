import RaptorqTs.Dec.Drain
import RaptorqTs.Dec.Reader
import RaptorqTs.Dec.Recovery
import RaptorqTs.Lib.Fifo
import RaptorqTs.Lib.WriteBehind

/-!
# The decoder process

`main` of the decoder: the reader thread, the bounded channel behind it, `run_decoder` on the
main thread with its buffered standard output, and the join at the end. The threads take their
steps in any order; a read, a write or a flush may fail, and the output buffer pushes bytes
downstream as it likes.
-/

namespace RaptorqTs.Dec

/-! ## What the reader offers -/

/-- The packet the reader wants to send. -/
def Reader.offered (r : Reader) : Option Bytes :=
  match r.point with
  | .sending pkt => some pkt
  | _ => none

def Reader.hasExited (r : Reader) : Bool :=
  match r.point with
  | .exited _ => true
  | _ => false

namespace Reader

variable {r r' : Reader}

lemma step_alive {a : ReaderAction} (h : step r a = some r') : r.hasExited = false := by
  unfold hasExited
  obtain ⟨n, -, hr, -⟩ | ⟨-, hr, -⟩ | ⟨-, hr, -⟩ | ⟨pkt, -, hr, -⟩ | ⟨pkt, -, hr, -⟩ :=
    step_cases h
  all_goals rw [hr]

@[simp] lemma sent_drain : r.drain.sent = r.sent := by
  by_cases hfull : r.filled = tsPacketSize
  · by_cases hsync : r.scratch.getD 0 0 = tsSyncByte
    · rw [drain_of_sync hfull hsync]
    · rw [drain_of_not_sync hfull hsync]
  · rw [drain_of_ne hfull]

/-- The send is taken. -/
lemma step_sent {pkt : Bytes} (hoffered : r.offered = some pkt) (h : step r .sent = some r') :
    r'.sent.map Prod.snd = r.sent.map Prod.snd ++ [pkt] := by
  unfold offered at hoffered
  obtain ⟨n, ha, -⟩ | ⟨ha, -⟩ | ⟨ha, -⟩ | ⟨pkt', -, hr, rfl⟩ | ⟨pkt', ha, -⟩ := step_cases h
  · cases ha
  · cases ha
  · cases ha
  · rw [hr] at hoffered
    obtain rfl := Option.some.inj hoffered
    rw [onSent, sent_drain, List.map_append, List.map_singleton]
  · cases ha

/-- Nothing else is sent. -/
lemma step_sent_eq {a : ReaderAction} (ha : a ≠ .sent) (h : step r a = some r') :
    r'.sent = r.sent := by
  obtain ⟨n, -, -, -, rfl⟩ | ⟨-, -, rfl⟩ | ⟨-, -, rfl⟩ | ⟨pkt, rfl, -⟩ | ⟨pkt, -, -, rfl⟩ :=
    step_cases h
  · unfold onRead
    split
    · rfl
    · rw [sent_drain]
  · rfl
  · rfl
  · exact absurd rfl ha
  · rfl

end Reader

/-- The capacity of the channel that `main` makes. -/
def channelCapacity : ℕ := 1024

/-! ## The process -/

structure Process (D : Type) where
  reader : Reader
  /-- The packets in the channel. -/
  queue : List Bytes
  conf : Conf D
  stdout : WriteBehind UInt8
  /-- What `run_decoder` has returned. -/
  result : Option Exit

/-- One step of one thread, or of both ends of the channel. The numbers are those of the bytes
that go downstream. -/
inductive ProcessAction where
  | reader (a : ReaderAction)
  | send
  | recv (now : Instant)
  | timeout (now : Instant)
  | pass (clk : Clock) (down : ℕ)
  | passError (clk : Clock) (down : ℕ)
  | disconnect
  | disconnectError (down : ℕ)

namespace Process

variable {D : Type}

/-- The process on the input `stdin`, with the clock at `now`. -/
def init (now : Instant) (stdin : Bytes) : Process D where
  reader := Reader.init stdin
  queue := []
  conf := RaptorqTs.init now
  stdout := .empty
  result := none

/-- A step of the reader by itself: a send fails only when `run_decoder` has returned, which
drops the receiver. -/
def readerMay (p : Process D) : ReaderAction → Bool
  | .sent => false
  | .dropped => p.result.isSome
  | _ => true

/-- What is handed to `write_all` between two configurations. -/
def newBytes (c c' : Conf D) : Bytes := c'.window.bytes.drop c.window.bytes.length

/-- `run_decoder` comes to `c`: a block is written, or everything is flushed. -/
def goOn (p : Process D) (down : ℕ) (c : Conf D) : Process D :=
  let written := p.stdout.write (newBytes p.conf c) down
  { p with conf := c, stdout := if c.point = .drain then written else written.flush }

/-- The write or the flush on the way to `c` fails, and `run_decoder` returns. In `conf` the
write counts as done; no step reads it any more. -/
def breakOff (p : Process D) (down : ℕ) (c : Conf D) : Process D :=
  { p with
    conf := c
    stdout := p.stdout.fail (newBytes p.conf c) down
    result := some .error }

variable (env : Env D)

/-- `run_decoder` performs an action, unless it has returned. -/
def decode (p : Process D) (a : Action) : Option (Conf D) :=
  if p.result = none then RaptorqTs.step env p.conf a else none

/-- The decoder process, one action at a time. -/
def step (p : Process D) : ProcessAction → Option (Process D)
  | .reader a =>
    if p.readerMay a then (Reader.step p.reader a).map fun r => { p with reader := r } else none
  | .send => do
    let pkt ← p.reader.offered
    let reader ← Reader.step p.reader .sent
    if p.queue.length < channelCapacity ∧ p.result = none then
      some { p with reader := reader, queue := p.queue ++ [pkt] }
    else none
  | .recv now => do
    let pkt ← p.queue.head?
    let conf ← p.decode env (.event now (.frame pkt))
    some { p with conf := conf, queue := p.queue.tail }
  | .timeout now => do
    let conf ← p.decode env (.event now .tick)
    if p.queue = [] ∧ p.reader.hasExited = false then some { p with conf := conf } else none
  | .pass clk down => (p.decode env (.pass clk)).map (p.goOn down)
  | .passError clk down => (p.decode env (.pass clk)).map (p.breakOff down)
  | .disconnect => do
    let conf ← p.decode env .disconnect
    if p.queue = [] ∧ p.reader.hasExited = true then
      some { p.goOn 0 conf with result := some .ok }
    else none
  | .disconnectError down => do
    let conf ← p.decode env .disconnect
    if p.queue = [] ∧ p.reader.hasExited = true then some (p.breakOff down conf) else none

/-- What `main` returns, once it has joined the reader: an error of the reader is logged, and
no more. -/
def exit (p : Process D) : Option Exit := if p.reader.hasExited then p.result else none

/-- Runs of the process. -/
abbrev runFrom (now : Instant) (stdin : Bytes) (acts : List ProcessAction) :
    Option (Process D) :=
  Machine.run (step env) (init now stdin) acts

/-- What `run_decoder` does in a step of the process. -/
def decoderAction (p : Process D) : ProcessAction → List Action
  | .recv now => (p.queue.head?.map fun pkt => .event now (.frame pkt)).toList
  | .timeout now => [.event now .tick]
  | .pass clk _ | .passError clk _ => [.pass clk]
  | .disconnect | .disconnectError _ => [.disconnect]
  | .reader _ | .send => []

/-! ## Inversion -/

/-- What a step of the process can do. -/
inductive Moves (p : Process D) : ProcessAction → Process D → Prop
  | reader {a r} (hmay : p.readerMay a = true) (hr : Reader.step p.reader a = some r) :
      Moves p (.reader a) { p with reader := r }
  | send {pkt r} (hoffered : p.reader.offered = some pkt)
      (hr : Reader.step p.reader .sent = some r) (hcap : p.queue.length < channelCapacity)
      (hopen : p.result = none) : Moves p .send { p with reader := r, queue := p.queue ++ [pkt] }
  | recv {now pkt rest c} (hqueue : p.queue = pkt :: rest) (hopen : p.result = none)
      (hc : RaptorqTs.step env p.conf (.event now (.frame pkt)) = some c) :
      Moves p (.recv now) { p with conf := c, queue := rest }
  | timeout {now c} (hopen : p.result = none)
      (hc : RaptorqTs.step env p.conf (.event now .tick) = some c) :
      Moves p (.timeout now) { p with conf := c }
  | pass {clk down c} (hopen : p.result = none)
      (hc : RaptorqTs.step env p.conf (.pass clk) = some c) :
      Moves p (.pass clk down) (p.goOn down c)
  | passError {clk down c} (hopen : p.result = none)
      (hc : RaptorqTs.step env p.conf (.pass clk) = some c) :
      Moves p (.passError clk down) (p.breakOff down c)
  | disconnect {c} (hqueue : p.queue = []) (hexited : p.reader.hasExited = true)
      (hopen : p.result = none) (hc : RaptorqTs.step env p.conf .disconnect = some c) :
      Moves p .disconnect { p.goOn 0 c with result := some .ok }
  | disconnectError {down c} (hopen : p.result = none)
      (hc : RaptorqTs.step env p.conf .disconnect = some c) :
      Moves p (.disconnectError down) (p.breakOff down c)

variable {env} {p p' : Process D}

lemma decode_eq_some {a : Action} {c : Conf D} :
    p.decode env a = some c ↔ p.result = none ∧ RaptorqTs.step env p.conf a = some c := by
  rw [decode, Option.ite_none_right_eq_some]

/-- **Inversion of `step`.** -/
theorem step_moves {a : ProcessAction} (h : step env p a = some p') : Moves env p a p' := by
  cases a with
  | reader a =>
    simp only [step, Option.ite_none_right_eq_some, Option.map_eq_some_iff] at h
    obtain ⟨hmay, r, hr, rfl⟩ := h
    exact .reader hmay hr
  | send =>
    simp only [step, Option.bind_eq_bind, Option.bind_eq_some_iff, Option.ite_none_right_eq_some,
      Option.some.injEq] at h
    obtain ⟨pkt, hpkt, r, hr, ⟨hcap, hopen⟩, rfl⟩ := h
    exact .send hpkt hr hcap hopen
  | recv now =>
    simp only [step, Option.bind_eq_bind, Option.bind_eq_some_iff, decode_eq_some,
      Option.some.injEq] at h
    obtain ⟨pkt, hpkt, c, ⟨hopen, hc⟩, rfl⟩ := h
    exact .recv (List.cons_head?_tail hpkt).symm hopen hc
  | timeout now =>
    simp only [step, Option.bind_eq_bind, Option.bind_eq_some_iff, decode_eq_some,
      Option.ite_none_right_eq_some, Option.some.injEq] at h
    obtain ⟨c, ⟨hopen, hc⟩, -, rfl⟩ := h
    exact .timeout hopen hc
  | pass clk down =>
    simp only [step, Option.map_eq_some_iff, decode_eq_some] at h
    obtain ⟨c, ⟨hopen, hc⟩, rfl⟩ := h
    exact .pass hopen hc
  | passError clk down =>
    simp only [step, Option.map_eq_some_iff, decode_eq_some] at h
    obtain ⟨c, ⟨hopen, hc⟩, rfl⟩ := h
    exact .passError hopen hc
  | disconnect =>
    simp only [step, Option.bind_eq_bind, Option.bind_eq_some_iff, decode_eq_some,
      Option.ite_none_right_eq_some, Option.some.injEq] at h
    obtain ⟨c, ⟨hopen, hc⟩, ⟨hqueue, hexited⟩, rfl⟩ := h
    exact .disconnect hqueue hexited hopen hc
  | disconnectError down =>
    simp only [step, Option.bind_eq_bind, Option.bind_eq_some_iff, decode_eq_some,
      Option.ite_none_right_eq_some, Option.some.injEq] at h
    obtain ⟨c, ⟨hopen, hc⟩, -, rfl⟩ := h
    exact .disconnectError hopen hc

/-! ## What a step writes -/

/-- Output is only appended to. -/
lemma bytes_step {c c' : Conf D} {a : Action} (h : RaptorqTs.step env c a = some c') :
    c.window.bytes ++ newBytes c c' = c'.window.bytes := by
  have hstdout : c.window.stdout <+: c'.window.stdout := by
    have hm := RaptorqTs.step_moves h
    generalize c.point = q, c.window = w, c'.point = q', c'.window = w' at hm
    cases hm with
    | drop _ | ignore _ | settle _ => exact List.prefix_rfl
    | accept _ _ _ => rw [Window.hold_stdout, Window.joined_stdout]
    | advance _ => exact List.prefix_append _ _
    | flush =>
      rw [flushRemaining_stdout]
      exact List.prefix_append _ _
  obtain ⟨more, hmore⟩ := hstdout
  rw [newBytes, Window.bytes, Window.bytes, ← hmore, List.flatMap_append, List.drop_left]

/-- An event is handled without a write. -/
lemma bytes_event {c c' : Conf D} {now : Instant} {ev : Event}
    (h : RaptorqTs.step env c (.event now ev) = some c') :
    c'.window.bytes = c.window.bytes ∧ c'.point ≠ .closed := by
  obtain ⟨hstdout, hpoint⟩ := step_event_stdout h
  refine ⟨by rw [Window.bytes, hstdout, Window.bytes], ?_⟩
  rcases hpoint with hpoint | hpoint
  · rw [hpoint]
    decide
  · rw [hpoint]
    decide

/-! ## The invariant -/

/-- Where the output of `run_decoder` is while it runs: some of it may be held back in the drain
loop, and none when it waits for the next packet. -/
structure Flushed (p : Process D) : Prop where
  open_point : p.conf.point ≠ .closed
  written : p.stdout.written = p.conf.window.bytes
  flushed : p.conf.point = .recv → p.stdout.buffered = []

/-- How `run_decoder` has returned. -/
structure Returned (p : Process D) : Prop where
  closed : p.conf.point = .closed
  delivered : p.stdout.delivered = p.conf.window.bytes
  queue : p.queue = []
  exited : p.reader.hasExited = true

/-- `run_decoder` has performed `acts` on the packets that have come out of the channel, and the
reader is where it would be by itself, unless `run_decoder` has failed. -/
structure Inv (env : Env D) (now : Instant) (stdin : Bytes) (acts : List Action)
    (p : Process D) : Prop where
  conf_run : RaptorqTs.runFrom env now acts = some p.conf
  packets : Fifo.Conserved (p.reader.sent.map Prod.snd) p.queue (acts.filterMap frameBytes)
  queue_le : p.queue.length ≤ channelCapacity
  reader_run : ∃ racts, Machine.run Reader.step (Reader.init stdin) racts = some p.reader ∧
    (.dropped ∈ racts → p.result = some .error)
  running : p.result = none → p.Flushed
  returned : p.result = some .ok → p.Returned
  delivered : p.stdout.delivered <+: p.conf.window.bytes

section Inv

variable {now : Instant} {stdin : Bytes} {acts : List Action}

lemma Inv.init : Inv env now stdin [] (init now stdin) where
  conf_run := rfl
  packets := Fifo.Conserved.nil
  queue_le := Nat.zero_le _
  reader_run := ⟨[], rfl, fun h => by cases h⟩
  running _ := ⟨by rintro ⟨⟩, rfl, fun _ => rfl⟩
  returned h := by cases h
  delivered := List.prefix_rfl

/-- The reader is there to take a step, so `run_decoder` has not come to its end. -/
lemma Inv.not_returned (h : Inv env now stdin acts p) (halive : p.reader.hasExited = false) :
    p.result ≠ some .ok := by
  intro hok
  have hexited := (h.returned hok).exited
  rw [halive] at hexited
  cases hexited

lemma Inv.reader (h : Inv env now stdin acts p) {a : ReaderAction} {r : Reader}
    (hmay : p.readerMay a = true) (hr : Reader.step p.reader a = some r) :
    Inv env now stdin acts { p with reader := r } := by
  have hnot := h.not_returned (Reader.step_alive hr)
  have hpackets := h.packets
  rw [← Reader.step_sent_eq (by rintro rfl; cases hmay) hr] at hpackets
  obtain ⟨racts, hrun, hdrop⟩ := h.reader_run
  refine ⟨h.conf_run, hpackets, h.queue_le,
    ⟨racts ++ [a], Machine.run_concat_eq_some.mpr ⟨_, hrun, hr⟩, fun hmem => ?_⟩,
    fun hopen => ⟨(h.running hopen).open_point, (h.running hopen).written,
      (h.running hopen).flushed⟩, fun hok => absurd hok hnot, h.delivered⟩
  rcases List.mem_append.mp hmem with hold | hnew
  · exact hdrop hold
  · -- the receiver is gone, and not because the input has ended
    obtain rfl := List.mem_singleton.mp hnew
    have hgone : p.result.isSome = true := hmay
    obtain ⟨result, hresult⟩ := Option.isSome_iff_exists.mp hgone
    cases result with
    | ok => exact absurd hresult hnot
    | error => exact hresult

lemma Inv.send (h : Inv env now stdin acts p) {pkt : Bytes} {r : Reader}
    (hoffered : p.reader.offered = some pkt) (hr : Reader.step p.reader .sent = some r)
    (hcap : p.queue.length < channelCapacity) (hopen : p.result = none) :
    Inv env now stdin acts { p with reader := r, queue := p.queue ++ [pkt] } := by
  have hpackets := h.packets.send pkt
  rw [← Reader.step_sent hoffered hr] at hpackets
  obtain ⟨racts, hrun, hdrop⟩ := h.reader_run
  have hrunning := h.running hopen
  refine ⟨h.conf_run, hpackets, ?_,
    ⟨racts ++ [.sent], Machine.run_concat_eq_some.mpr ⟨_, hrun, hr⟩, fun hmem => ?_⟩,
    fun _ => ⟨hrunning.open_point, hrunning.written, hrunning.flushed⟩,
    fun hok => (by cases hopen.symm.trans hok), h.delivered⟩
  · show (p.queue ++ [pkt]).length ≤ channelCapacity
    rw [List.length_append, List.length_singleton]
    omega
  · rcases List.mem_append.mp hmem with hold | hnew
    · exact hdrop hold
    · cases List.mem_singleton.mp hnew

/-- `run_decoder` handles an event, after which it goes on. -/
lemma Inv.event (h : Inv env now stdin acts p) {t : Instant} {ev : Event} {c : Conf D}
    (hopen : p.result = none) (hc : RaptorqTs.step env p.conf (.event t ev) = some c)
    {queue : List Bytes} (hpackets : Fifo.Conserved (p.reader.sent.map Prod.snd) queue
      ((acts ++ [Action.event t ev]).filterMap frameBytes)) (hle : queue.length ≤ channelCapacity) :
    Inv env now stdin (acts ++ [.event t ev]) { p with conf := c, queue := queue } := by
  have hrunning := h.running hopen
  obtain ⟨hbytes, hpoint⟩ := bytes_event hc
  have hrecv : p.conf.point = .recv := by
    simp only [RaptorqTs.step, Option.ite_none_right_eq_some] at hc
    exact hc.1
  have hwritten : p.stdout.written = c.window.bytes := hrunning.written.trans hbytes.symm
  refine ⟨Machine.run_concat_eq_some.mpr ⟨_, h.conf_run, hc⟩, hpackets, hle, h.reader_run,
    fun _ => ⟨hpoint, hwritten, fun _ => hrunning.flushed hrecv⟩,
    fun hok => (by cases hopen.symm.trans hok), ?_⟩
  show p.stdout.delivered <+: c.window.bytes
  rw [← hwritten]
  exact WriteBehind.delivered_initial _

lemma Inv.recv (h : Inv env now stdin acts p) {t : Instant} {pkt : Bytes} {rest : List Bytes}
    {c : Conf D} (hqueue : p.queue = pkt :: rest) (hopen : p.result = none)
    (hc : RaptorqTs.step env p.conf (.event t (.frame pkt)) = some c) :
    Inv env now stdin (acts ++ [.event t (.frame pkt)]) { p with conf := c, queue := rest } := by
  have hpackets := h.packets
  have hle := h.queue_le
  rw [hqueue] at hpackets hle
  refine h.event hopen hc ?_ ((Nat.le_succ _).trans hle)
  rw [List.filterMap_append]
  exact hpackets.recv

lemma Inv.timeout (h : Inv env now stdin acts p) {t : Instant} {c : Conf D}
    (hopen : p.result = none) (hc : RaptorqTs.step env p.conf (.event t .tick) = some c) :
    Inv env now stdin (acts ++ [.event t .tick]) { p with conf := c } := by
  refine h.event hopen hc ?_ h.queue_le
  rw [List.filterMap_append]
  exact (List.append_nil _).symm ▸ h.packets

/-- An action that delivers no packet. -/
lemma Inv.quiet (h : Inv env now stdin acts p) {a : Action} {c : Conf D}
    (hc : RaptorqTs.step env p.conf a = some c) (ha : frameBytes a = none) :
    RaptorqTs.runFrom env now (acts ++ [a]) = some c ∧
      Fifo.Conserved (p.reader.sent.map Prod.snd) p.queue
        ((acts ++ [a]).filterMap frameBytes) := by
  refine ⟨Machine.run_concat_eq_some.mpr ⟨_, h.conf_run, hc⟩, ?_⟩
  rw [List.filterMap_append, List.filterMap_cons_none ha, List.filterMap_nil, List.append_nil]
  exact h.packets

lemma Inv.written_step (h : Inv env now stdin acts p) {a : Action} {c : Conf D}
    (hopen : p.result = none) (hc : RaptorqTs.step env p.conf a = some c) :
    p.stdout.written ++ newBytes p.conf c = c.window.bytes := by
  rw [(h.running hopen).written, bytes_step hc]

/-- What is written after `goOn`. -/
lemma Inv.written_goOn (h : Inv env now stdin acts p) {a : Action} {c : Conf D} (down : ℕ)
    (hopen : p.result = none) (hc : RaptorqTs.step env p.conf a = some c) :
    (p.goOn down c).stdout.written = c.window.bytes ∧
      (c.point ≠ .drain → (p.goOn down c).stdout.buffered = []) := by
  have hwritten := h.written_step hopen hc
  by_cases hdrain : c.point = .drain
  · simp only [goOn, if_pos hdrain, WriteBehind.written_write, hwritten, true_and]
    exact fun hne => absurd hdrain hne
  · simp only [goOn, if_neg hdrain, WriteBehind.written_flush, WriteBehind.written_write, hwritten,
      WriteBehind.buffered_flush, true_and, implies_true]

lemma Inv.pass (h : Inv env now stdin acts p) {clk : Clock} {down : ℕ} {c : Conf D}
    (hopen : p.result = none) (hc : RaptorqTs.step env p.conf (.pass clk) = some c) :
    Inv env now stdin (acts ++ [.pass clk]) (p.goOn down c) := by
  obtain ⟨hrun, hpackets⟩ := h.quiet hc rfl
  obtain ⟨hwritten, hbuffered⟩ := h.written_goOn down hopen hc
  refine ⟨hrun, hpackets, h.queue_le, h.reader_run, fun _ => ⟨?_, hwritten, fun hrecv => ?_⟩,
    fun hok => (by cases hopen.symm.trans hok), ?_⟩
  · show c.point ≠ .closed
    rcases (step_pass hc).2 with ⟨-, hpoint, -⟩ | ⟨-, hpoint, -⟩
    · rw [hpoint]
      decide
    · rw [hpoint]
      decide
  · have hrecv : c.point = .recv := hrecv
    exact hbuffered (by rw [hrecv]; decide)
  · show (p.goOn down c).stdout.delivered <+: c.window.bytes
    rw [← hwritten]
    exact WriteBehind.delivered_initial _

/-- A write or a flush fails, at whatever point. -/
lemma Inv.breakOff (h : Inv env now stdin acts p) {a : Action} {down : ℕ} {c : Conf D}
    (hopen : p.result = none) (hc : RaptorqTs.step env p.conf a = some c)
    (ha : frameBytes a = none) : Inv env now stdin (acts ++ [a]) (p.breakOff down c) := by
  obtain ⟨hrun, hpackets⟩ := h.quiet hc ha
  obtain ⟨racts, hreader, hdrop⟩ := h.reader_run
  exact ⟨hrun, hpackets, h.queue_le, ⟨racts, hreader, fun _ => rfl⟩, by rintro ⟨⟩, by rintro ⟨⟩,
    WriteBehind.delivered_fail (h.written_step hopen hc)⟩

lemma Inv.disconnect (h : Inv env now stdin acts p) {c : Conf D} (hqueue : p.queue = [])
    (hexited : p.reader.hasExited = true) (hopen : p.result = none)
    (hc : RaptorqTs.step env p.conf .disconnect = some c) :
    Inv env now stdin (acts ++ [.disconnect]) { p.goOn 0 c with result := some .ok } := by
  obtain ⟨hrun, hpackets⟩ := h.quiet hc rfl
  obtain ⟨hwritten, hbuffered⟩ := h.written_goOn 0 hopen hc
  obtain ⟨racts, hreader, hdrop⟩ := h.reader_run
  have hclosed : c.point = .closed := by
    simp only [RaptorqTs.step, Option.ite_none_right_eq_some, Option.some.injEq] at hc
    rw [← hc.2]
  have hdelivered : (p.goOn 0 c).stdout.delivered = c.window.bytes := by
    rw [WriteBehind.delivered_of_buffered (hbuffered (by rw [hclosed]; decide)), hwritten]
  refine ⟨hrun, hpackets, h.queue_le, ⟨racts, hreader, fun hd => ?_⟩, by rintro ⟨⟩,
    fun _ => ⟨hclosed, hdelivered, hqueue, hexited⟩, ?_⟩
  · cases hopen.symm.trans (hdrop hd)
  · show (p.goOn 0 c).stdout.delivered <+: c.window.bytes
    rw [hdelivered]

lemma Inv.step (h : Inv env now stdin acts p) {a : ProcessAction}
    (hstep : step env p a = some p') :
    Inv env now stdin (acts ++ p.decoderAction a) p' := by
  cases step_moves hstep with
  | reader hmay hr => exact (List.append_nil acts).symm ▸ h.reader hmay hr
  | send hoffered hr hcap hopen => exact (List.append_nil acts).symm ▸ h.send hoffered hr hcap hopen
  | recv hqueue hopen hc =>
    rw [decoderAction, hqueue]
    exact h.recv hqueue hopen hc
  | timeout hopen hc => exact h.timeout hopen hc
  | pass hopen hc => exact h.pass hopen hc
  | passError hopen hc => exact h.breakOff hopen hc rfl
  | disconnect hqueue hexited hopen hc => exact h.disconnect hqueue hexited hopen hc
  | disconnectError hopen hc => exact h.breakOff hopen hc rfl

end Inv

/-- What `run_decoder` has done in a run of the process. -/
def decoded (env : Env D) (now : Instant) (stdin : Bytes) (acts : List ProcessAction) :
    List Action :=
  Machine.trace (step env) decoderAction (init now stdin) acts

/-- **The process is `run_decoder` behind a channel**, in every interleaving. -/
theorem inv_of_run {now : Instant} {stdin : Bytes} {acts : List ProcessAction}
    (h : runFrom env now stdin acts = some p) :
    Inv env now stdin (decoded env now stdin acts) p := by
  refine Machine.run_induction
    (P := fun acts p => Inv env now stdin (decoded env now stdin acts) p) Inv.init ?_ h
  intro acts p a p' hrun ih hstep
  rw [decoded, Machine.trace_concat a hrun]
  exact ih.step hstep

/-! ## Nothing is lost on the way through the process -/

section Outcome

variable {now : Instant} {stdin : Bytes} {dacts : List Action}

/-- The packets `run_decoder` has taken are the first ones of the scan. -/
lemma Inv.frames_initial (h : Inv env now stdin dacts p) :
    dacts.filterMap frameBytes <+: (tsFormat.scan 0 stdin).map Prod.snd := by
  obtain ⟨racts, hrun, -⟩ := h.reader_run
  have hsent : p.reader.sent <+: tsFormat.scan 0 stdin :=
    ⟨_, (Reader.inv_of_run hrun).scan_eq.symm⟩
  exact h.packets.received_initial.trans (hsent.map Prod.snd)

/-- They are all of them when both threads have come to the end of the input. -/
lemma Inv.frames_eq (h : Inv env now stdin dacts p) (hok : p.result = some .ok)
    (hreader : p.reader.point = .exited .ok) :
    dacts.filterMap frameBytes = (tsFormat.scan 0 stdin).map Prod.snd := by
  obtain ⟨racts, hrun, hdrop⟩ := h.reader_run
  have hsends : ∀ a ∈ racts, a ≠ .dropped := by
    rintro a ha rfl
    cases hok.symm.trans (hdrop ha)
  have hpackets := h.packets
  rw [(h.returned hok).queue] at hpackets
  rw [hpackets.received_eq, Reader.sent_of_finished ⟨racts, hrun, hsends, hreader⟩]

lemma exit_eq_some {result : Exit} :
    p.exit = some result ↔ p.reader.hasExited = true ∧ p.result = some result := by
  rw [exit, Option.ite_none_right_eq_some]

/-- **The process refines `run_decoder`.** In every interleaving of the threads, whatever the
sizes of the reads and wherever a write fails, `run_decoder` is run on the first packets of the
scan of stdin, none of them lost, repeated or out of order, and what has gone downstream is the
start of what that run writes; all of it whenever `run_decoder` waits for a packet. When `main`
returns `Ok(())` all that was written has gone downstream, and the run was on the whole scan,
unless stdin could not be read. -/
theorem decoder_process_refines {acts : List ProcessAction}
    (h : runFrom env now stdin acts = some p) :
    RaptorqTs.runFrom env now (decoded env now stdin acts) = some p.conf ∧
    (decoded env now stdin acts).filterMap frameBytes <+: (tsFormat.scan 0 stdin).map Prod.snd ∧
    p.queue.length ≤ channelCapacity ∧
    p.stdout.delivered <+: p.conf.window.bytes ∧
    (p.result = none → p.conf.point = .recv → p.stdout.delivered = p.conf.window.bytes) ∧
    (p.exit = some .ok → p.conf.point = .closed ∧ p.stdout.delivered = p.conf.window.bytes ∧
      (p.reader.point = .exited .ok → (decoded env now stdin acts).filterMap frameBytes =
        (tsFormat.scan 0 stdin).map Prod.snd)) := by
  have hinv := inv_of_run h
  refine ⟨hinv.conf_run, hinv.frames_initial, hinv.queue_le, hinv.delivered,
    fun hopen hrecv => ?_, fun hexit => ?_⟩
  · have hrunning := hinv.running hopen
    rw [WriteBehind.delivered_of_buffered (hrunning.flushed hrecv), hrunning.written]
  · have hok := (exit_eq_some.mp hexit).2
    have hreturned := hinv.returned hok
    exact ⟨hreturned.closed, hreturned.delivered, hinv.frames_eq hok⟩

end Outcome

/-- A packet of one block, read in two pieces; the block is in the buffer until the flush. -/
def shortStdin : Bytes :=
  buildDataPacket Reference.codec 0x100 0 (blockOti symbolSize symbolSize)
    ⟨⟨0, 0⟩, Reference.flat 1⟩ (List.replicate tsPacketSize 0)

def shortRun : List ProcessAction :=
  [.timeout 0, .pass (Clock.at 0) 0, .reader (.read 100), .reader (.read 88), .send,
    .recv 0, .reader (.read 0), .pass (Clock.at 0) 3, .pass (Clock.at 0) 0, .disconnect]

theorem decoder_process_refines_short : ∃ p : Process Reference.Decoder,
    runFrom (Reference.env 8) 0 shortStdin shortRun = some p ∧ p.exit = some .ok ∧
      p.stdout.delivered = Reference.flat 1 ∧
      (decoded (Reference.env 8) 0 shortStdin shortRun).filterMap frameBytes =
        (tsFormat.scan 0 shortStdin).map Prod.snd := by
  have hobs : (runFrom (Reference.env 8) 0 shortStdin shortRun).map (fun p =>
      (p.exit, p.reader.point, p.conf.window.bytes)) =
        some (some .ok, .exited .ok, Reference.flat 1) := by
    decide +kernel
  obtain ⟨p, hrun, hp⟩ := Option.map_eq_some_iff.mp hobs
  simp only [Prod.mk.injEq] at hp
  obtain ⟨hexit, hreader, hbytes⟩ := hp
  have hdone := (decoder_process_refines hrun).2.2.2.2.2 hexit
  exact ⟨p, hrun, hexit, hdone.2.1.trans hbytes, hdone.2.2 hreader⟩

end Process

end RaptorqTs.Dec
