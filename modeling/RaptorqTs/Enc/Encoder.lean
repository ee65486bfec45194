import RaptorqTs.Common.Wire
import RaptorqTs.Enc.Reader
import RaptorqTs.Enc.Ring

/-!
# `encoder_thread`

The encoder as a machine. It stands at the receive of its loop, in the sending loop of
`emit_block`, or at the send of an extra repair symbol. The environment decides what
`try_recv` returns, whether a send is taken, and all clock readings.
-/

namespace RaptorqTs.Enc

/-! ## Interleaving -/

/-- The iterator `interleave` returns. -/
structure Interleave where
  source : List EncodingPacket
  repair : List EncodingPacket
  repInterval : ℕ
  srcCount : ℕ
  nextRepAfter : ℕ
deriving DecidableEq, Repr

def interleave (source repair : List EncodingPacket) (repInterval : ℕ) : Interleave where
  source := source
  repair := repair
  repInterval := repInterval
  srcCount := 0
  nextRepAfter := repInterval

namespace Interleave

/-- The match on `src_it.next()`. -/
def nextSource (it : Interleave) : Option (EncodingPacket × Interleave) :=
  match it.source with
  | s :: source => some (s, { it with source := source, srcCount := it.srcCount + 1 })
  | [] =>
    match it.repair with
    | r :: repair => some (r, { it with repair := repair })
    | [] => none

/-- One call of the closure. -/
def next (it : Interleave) : Option (EncodingPacket × Interleave) :=
  if it.nextRepAfter ≤ it.srcCount then
    match it.repair with
    | r :: repair =>
      some (r, { it with repair := repair, nextRepAfter := it.nextRepAfter + it.repInterval })
    | [] => it.nextSource
  else it.nextSource

/-- The packets still to come. -/
def rest (it : Interleave) : List EncodingPacket := it.source ++ it.repair

variable {it it' : Interleave} {p : EncodingPacket}

lemma nextSource_cases (h : it.nextSource = some (p, it')) :
    (it.source = p :: it'.source ∧ it'.repair = it.repair) ∨
      (it.repair = p :: it'.repair ∧ it'.source = it.source) := by
  unfold nextSource at h
  cases hs : it.source with
  | cons s source =>
    rw [hs] at h
    simp only [Option.some.injEq, Prod.mk.injEq] at h
    obtain ⟨rfl, rfl⟩ := h
    exact Or.inl ⟨rfl, rfl⟩
  | nil =>
    rw [hs] at h
    cases hr : it.repair with
    | cons r repair =>
      rw [hr] at h
      simp only [Option.some.injEq, Prod.mk.injEq] at h
      obtain ⟨rfl, rfl⟩ := h
      exact Or.inr ⟨rfl, rfl⟩
    | nil =>
      rw [hr] at h
      cases h

/-- One call yields the first packet left of one of the two sequences. -/
lemma next_cases (h : it.next = some (p, it')) :
    (it.source = p :: it'.source ∧ it'.repair = it.repair) ∨
      (it.repair = p :: it'.repair ∧ it'.source = it.source) := by
  unfold next at h
  split at h
  · cases hr : it.repair with
    | cons r repair =>
      rw [hr] at h
      simp only [Option.some.injEq, Prod.mk.injEq] at h
      obtain ⟨rfl, rfl⟩ := h
      exact Or.inr ⟨rfl, rfl⟩
    | nil =>
      rw [hr] at h
      rw [← hr]
      exact nextSource_cases h
  · exact nextSource_cases h

/-- The iterator yields nothing but the packets it was given. -/
lemma next_rest (h : it.next = some (p, it')) : p ∈ it.rest ∧ ∀ q ∈ it'.rest, q ∈ it.rest := by
  unfold rest
  rcases next_cases h with ⟨hs, hr⟩ | ⟨hr, hs⟩
  · rw [hs, hr]
    exact ⟨List.mem_cons_self .., fun q hq => List.mem_cons_of_mem _ hq⟩
  · rw [hr, hs]
    refine ⟨List.mem_append_right _ (List.mem_cons_self ..), fun q hq => ?_⟩
    rcases List.mem_append.mp hq with hq | hq
    · exact List.mem_append_left _ hq
    · exact List.mem_append_right _ (List.mem_cons_of_mem _ hq)

end Interleave

/-! ## The thread -/

/-- The arguments of `encoder_thread`. -/
structure Params where
  oti : ObjectTransmissionInformation
  baselineRepair : ℕ
  maxRepair : ℕ
  adaptive : Bool
  horizon : ℕ
deriving DecidableEq, Repr

namespace Params

variable (args : Params)

def kBlock : ℕ := (args.oti.transferLength / symbolSize) % 2 ^ 32

def repInterval : ℕ :=
  if 0 < args.baselineRepair then max (args.kBlock / args.baselineRepair) 1 else 2 ^ 32 - 1

/-- The thread does not take the early branch of baseline repair only. -/
def minting : Bool := args.adaptive && decide (args.baselineRepair < args.maxRepair)

end Params

/-- A packet put into the channel to the writer. -/
structure Sent where
  packet : EncodingPacket
  /-- History variable: the index of the packet's block. No branch reads it. -/
  block : ℕ
deriving DecidableEq, Repr

inductive EncoderPoint (E : Type) where
  /-- At `blocks.recv()` or `blocks.try_recv()`. -/
  | receiving
  /-- In the loop of `emit_block`. -/
  | emitting (encoder : E) (packets : Interleave)
  /-- At the send of an extra repair symbol, of the block with the given index. -/
  | sendingExtra (packet : EncodingPacket) (block : ℕ)
  | exited

structure Encoder (E R : Type) where
  point : EncoderPoint E
  sbn : UInt8
  ring : List (BlockGen E)
  rng : R
  /-- History variable: the blocks received. -/
  received : List Bytes
  /-- History variable: the packets sent. -/
  sent : List Sent

/-- What the environment decides. `finish` ends the loop of `emit_block`, with the reading
for `created` and those by `prune_ring`. -/
inductive EncoderAction where
  | recv (block : Bytes)
  | empty (clock : ℕ → Instant)
  | disconnected
  | send
  | dropped
  | finish (created : Instant) (clock : ℕ → Instant)

namespace Encoder

variable {E R : Type}

def init (rng : R) : Encoder E R where
  point := .receiving
  sbn := 0
  ring := []
  rng := rng
  received := []
  sent := []

variable (enc : SourceBlockEncoder E) (coin : R → Bool × R) (args : Params)

/-- A block was received: `emit_block` up to its loop. -/
def onRecv (block : Bytes) (s : Encoder E R) : Encoder E R :=
  let encoder := enc.new s.sbn args.oti block
  let packets := interleave (enc.sourcePackets encoder)
    (enc.repairPackets encoder 0 args.baselineRepair) args.repInterval
  { s with point := .emitting encoder packets, received := s.received ++ [block] }

/-- The rest of the turn after `emit_block`. -/
def onFinish (encoder : E) (created : Instant) (clock : ℕ → Instant) (s : Encoder E R) :
    Encoder E R :=
  let bg : BlockGen E := ⟨encoder, args.baselineRepair, args.maxRepair, created,
    s.received.length - 1⟩
  { s with
    point := .receiving
    sbn := s.sbn + 1
    -- the early branch keeps no ring
    ring := if args.minting then pruneRing clock args.horizon (s.ring ++ [bg]) else s.ring }

/-- The channel is empty: the idle slot goes to an extra repair symbol, or to a nap. It is
`none` when the index is out of bounds. -/
def onEmpty (clock : ℕ → Instant) (s : Encoder E R) : Option (Encoder E R) :=
  let ring := pruneRing clock args.horizon s.ring
  let picked := pickBlock coin ring s.rng
  match picked.1 with
  | none => some { s with ring := ring, rng := picked.2 }
  | some idx =>
    match ring[idx]? with
    | none => none
    | some bg =>
      let s := { s with
        ring := ring.set idx { bg with nextRepairId := bg.nextRepairId + 1 }
        rng := picked.2 }
      match (enc.repairPackets bg.encoder bg.nextRepairId 1).getLast? with
      | some packet => some { s with point := .sendingExtra packet bg.index }
      | none => some s

/-- `encoder_thread`, one action at a time. -/
def step (s : Encoder E R) (a : EncoderAction) : Option (Encoder E R) :=
  match s.point, a with
  | .receiving, .recv block => some (s.onRecv enc args block)
  -- the early branch blocks in `recv` and never sees an empty channel
  | .receiving, .empty clock => if args.minting then s.onEmpty enc coin args clock else none
  | .receiving, .disconnected => some { s with point := .exited }
  | .emitting encoder packets, .send =>
    match packets.next with
    | some (packet, packets) => some { s with
        point := .emitting encoder packets
        sent := s.sent ++ [⟨packet, s.received.length - 1⟩] }
    | none => none
  | .emitting _ packets, .dropped =>
    match packets.next with
    | some _ => some { s with point := .exited }
    | none => none
  | .emitting encoder packets, .finish created clock =>
    match packets.next with
    | some _ => none
    | none => some (s.onFinish args encoder created clock)
  | .sendingExtra packet block, .send =>
    some { s with point := .receiving, sent := s.sent ++ [⟨packet, block⟩] }
  | .sendingExtra _ _, .dropped => some { s with point := .exited }
  | _, _ => none

/-! ## Inversion -/

/-- What a step of `encoder_thread` can do. -/
inductive Moves (s : Encoder E R) : EncoderAction → Encoder E R → Prop
  | recv {block} (hpoint : s.point = .receiving) : Moves s (.recv block) (s.onRecv enc args block)
  /-- Nothing in the ring is worth protecting. -/
  | nap {clock rng} (hpoint : s.point = .receiving) (hminting : args.minting = true)
      (hpick : pickBlock coin (pruneRing clock args.horizon s.ring) s.rng = (none, rng)) :
      Moves s (.empty clock) { s with ring := pruneRing clock args.horizon s.ring, rng := rng }
  /-- A repair symbol of the block picked is minted; `extra` is what is there to be sent. -/
  | mint {clock rng idx bg} (hpoint : s.point = .receiving) (hminting : args.minting = true)
      (hpick : pickBlock coin (pruneRing clock args.horizon s.ring) s.rng = (some idx, rng))
      (hbg : (pruneRing clock args.horizon s.ring)[idx]? = some bg) :
      Moves s (.empty clock) { s with
        point := match (enc.repairPackets bg.encoder bg.nextRepairId 1).getLast? with
          | some packet => .sendingExtra packet bg.index
          | none => .receiving
        ring := (pruneRing clock args.horizon s.ring).set idx
          { bg with nextRepairId := bg.nextRepairId + 1 }
        rng := rng }
  | send {encoder packets packet packets'} (hpoint : s.point = .emitting encoder packets)
      (hnext : packets.next = some (packet, packets')) :
      Moves s .send { s with
        point := .emitting encoder packets'
        sent := s.sent ++ [⟨packet, s.received.length - 1⟩] }
  | finish {encoder packets created clock} (hpoint : s.point = .emitting encoder packets)
      (hnext : packets.next = none) :
      Moves s (.finish created clock) (s.onFinish args encoder created clock)
  | sendExtra {packet block} (hpoint : s.point = .sendingExtra packet block) :
      Moves s .send { s with point := .receiving, sent := s.sent ++ [⟨packet, block⟩] }
  /-- A channel is closed. -/
  | exit {a} (ha : a = .disconnected ∨ a = .dropped) : Moves s a { s with point := .exited }

variable {enc coin args} {s s' : Encoder E R}

lemma Moves.of_onEmpty {clock : ℕ → Instant} (hpoint : s.point = .receiving)
    (hminting : args.minting = true) (h : s.onEmpty enc coin args clock = some s') :
    Moves enc coin args s (.empty clock) s' := by
  unfold onEmpty at h
  cases hpick : pickBlock coin (pruneRing clock args.horizon s.ring) s.rng with
  | mk picked rng =>
    cases picked with
    | none =>
      simp only [hpick, Option.some.injEq] at h
      rw [← h]
      exact .nap hpoint hminting hpick
    | some idx =>
      cases hbg : (pruneRing clock args.horizon s.ring)[idx]? with
      | none =>
        simp only [hpick, hbg] at h
        cases h
      | some bg =>
        -- `repair_packets` may be empty for all that is known of the crate here
        have hmint : Moves enc coin args s (.empty clock) _ :=
          .mint hpoint hminting hpick hbg
        cases hextra : (enc.repairPackets bg.encoder bg.nextRepairId 1).getLast? with
        | none =>
          simp only [hpick, hbg, hextra, Option.some.injEq] at h
          simp only [hextra] at hmint
          rw [← h, hpoint]
          exact hmint
        | some packet =>
          simp only [hpick, hbg, hextra, Option.some.injEq] at h
          simp only [hextra] at hmint
          rw [← h]
          exact hmint

/-- **Inversion of `step`.** -/
theorem step_moves {a : EncoderAction} (h : step enc coin args s a = some s') :
    Moves enc coin args s a s' := by
  unfold step at h
  split at h
  · rename_i block hpoint
    rw [Option.some.injEq] at h
    rw [← h]
    exact .recv hpoint
  · rename_i clock hpoint
    rw [Option.ite_none_right_eq_some] at h
    exact .of_onEmpty hpoint h.1 h.2
  · rw [Option.some.injEq] at h
    rw [← h]
    exact .exit (Or.inl rfl)
  · rename_i encoder packets hpoint
    split at h
    · rename_i packet packets' hnext
      rw [Option.some.injEq] at h
      rw [← h]
      exact .send hpoint hnext
    · cases h
  · split at h
    · rw [Option.some.injEq] at h
      rw [← h]
      exact .exit (Or.inr rfl)
    · cases h
  · rename_i encoder packets created clock hpoint
    split at h
    · cases h
    · rename_i hnext
      rw [Option.some.injEq] at h
      rw [← h]
      exact .finish hpoint hnext
  · rename_i packet block hpoint
    rw [Option.some.injEq] at h
    rw [← h]
    exact .sendExtra hpoint
  · rw [Option.some.injEq] at h
    rw [← h]
    exact .exit (Or.inr rfl)
  · cases h

variable (enc coin args)

/-- The states `encoder_thread` can reach. -/
def Reachable (rng : R) (s : Encoder E R) : Prop :=
  Machine.Reachable (step enc coin args) (init rng) s

end Encoder

end RaptorqTs.Enc
