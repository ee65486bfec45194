import RaptorqTs.Enc.Pacing
import RaptorqTs.Lib.Paced

/-!
# The writer in real time

Time passes in each step of `writer_thread`, and behind each frame it sleeps until the deadline of
the frames written. What a step takes is up to the environment, and what a sleep takes beyond the
time asked for counts for the step behind it.
-/

namespace RaptorqTs.Enc

/-! ## The clock -/

/-- The sleep behind a frame, if there is one. The difference is cast to `u64`. -/
def Writer.sleepNs (rateBps : ℕ) (w : Writer) (elapsedNs : ℕ) : Option ℕ :=
  if elapsedNs < w.nextDeadlineNs rateBps then
    some ((w.nextDeadlineNs rateBps - elapsedNs) % 2 ^ 64)
  else none

structure TimedWriter where
  writer : Writer
  /-- The nanoseconds since `start`. -/
  now : ℕ
  /-- History variable: what the round has taken so far, since the last deadline or sleep. -/
  current : ℕ
  /-- History variable: what the rounds of the frames written have taken. -/
  rounds : List ℕ
  /-- History variable: when the write of each frame has begun. -/
  began : List ℕ
  /-- History variable: the sleeps asked for. -/
  sleeps : List ℕ
deriving DecidableEq, Repr

/-- A step of the thread and the time that it takes, to the reading of the clock in case of a
write. -/
structure TimedAction where
  act : WriterAction
  took : ℕ
deriving DecidableEq, Repr

namespace TimedWriter

def init : TimedWriter where
  writer := Writer.init
  now := 0
  current := 0
  rounds := []
  began := []
  sleeps := []

/-- `writer_thread` with its pacing. -/
def step (codec : WireCodec) (pid : UInt16) (oti : ObjectTransmissionInformation) (rateBps : ℕ)
    (s : TimedWriter) (a : TimedAction) : Option TimedWriter :=
  match Writer.step codec pid oti s.writer a.act with
  | none => none
  | some w =>
    match a.act with
    | .written =>
      let elapsedNs := s.now + a.took
      let sleep := w.sleepNs rateBps elapsedNs
      some { s with
        writer := w
        now := elapsedNs + sleep.getD 0
        current := 0
        rounds := s.rounds ++ [s.current + a.took]
        began := s.began ++ [s.now]
        sleeps := s.sleeps ++ sleep.toList }
    | _ => some { s with
        writer := w
        now := s.now + a.took
        current := s.current + a.took }

/-- The states the writer can reach, with any times. -/
def Reachable (codec : WireCodec) (pid : UInt16) (oti : ObjectTransmissionInformation)
    (rateBps : ℕ) (s : TimedWriter) : Prop :=
  Machine.Reachable (step codec pid oti rateBps) init s

variable {codec : WireCodec} {pid : UInt16} {oti : ObjectTransmissionInformation} {rateBps : ℕ}
  {s s' : TimedWriter}

/-- The ways a step can go. -/
inductive Moves (codec : WireCodec) (pid : UInt16) (oti : ObjectTransmissionInformation)
    (rateBps : ℕ) (s : TimedWriter) : TimedAction → TimedWriter → Prop
  | written {took : ℕ} {w : Writer} (h : Writer.step codec pid oti s.writer .written = some w) :
    Moves codec pid oti rateBps s ⟨.written, took⟩ { s with
      writer := w
      now := s.now + took + (w.sleepNs rateBps (s.now + took)).getD 0
      current := 0
      rounds := s.rounds ++ [s.current + took]
      began := s.began ++ [s.now]
      sleeps := s.sleeps ++ (w.sleepNs rateBps (s.now + took)).toList }
  | other {act : WriterAction} {took : ℕ} {w : Writer} (hact : act ≠ .written)
    (h : Writer.step codec pid oti s.writer act = some w) :
    Moves codec pid oti rateBps s ⟨act, took⟩ { s with
      writer := w
      now := s.now + took
      current := s.current + took }

lemma step_moves {a : TimedAction} (hstep : step codec pid oti rateBps s a = some s') :
    Moves codec pid oti rateBps s a s' := by
  obtain ⟨act, took⟩ := a
  unfold step at hstep
  cases h : Writer.step codec pid oti s.writer act with
  | none =>
    rw [h] at hstep
    cases hstep
  | some w =>
    rw [h] at hstep
    cases act with
    | written =>
      obtain rfl := Option.some.inj hstep
      exact .written h
    | _ =>
      obtain rfl := Option.some.inj hstep
      exact .other (by simp) h

/-- **Refinement.** The pacing leaves the frames alone. -/
lemma step_writer {a : TimedAction} (hstep : step codec pid oti rateBps s a = some s') :
    Writer.step codec pid oti s.writer a.act = some s'.writer := by
  cases step_moves hstep with
  | written h => exact h
  | other _ h => exact h

theorem Reachable.writer (h : Reachable codec pid oti rateBps s) :
    Writer.Reachable codec pid oti s.writer := by
  refine Machine.Reachable.invariant (P := fun s : TimedWriter =>
    Writer.Reachable codec pid oti s.writer) ⟨[], rfl⟩ ?_ h
  rintro s a s' - ⟨acts, hrun⟩ hstep
  exact ⟨acts ++ [a.act], Machine.run_concat_eq_some.mpr ⟨s.writer, hrun, step_writer hstep⟩⟩

/-! ## The deadlines -/

lemma nanosPerPacket_lt (rateBps : ℕ) : nanosPerPacket rateBps < 2 ^ 64 :=
  calc nanosPerPacket rateBps ≤ 1000000000 * bitsPerPacket := Nat.div_le_self _ _
    _ < 2 ^ 64 := by decide

/-- What the clock shows, by the frames written and what their rounds have taken. -/
structure Inv (rateBps : ℕ) (s : TimedWriter) : Prop where
  length_rounds : s.rounds.length = s.writer.wire.length
  length_began : s.began.length = s.writer.wire.length
  now_eq : s.now = nanosPerPacket rateBps * s.writer.wire.length +
    Paced.lag (nanosPerPacket rateBps) s.rounds + s.current
  began_ge : ∀ i t, s.began[i]? = some t → nanosPerPacket rateBps * i ≤ t
  sleeps_le : ∀ d ∈ s.sleeps, d ≤ nanosPerPacket rateBps
  current_eq : s.writer.point = .polling → s.current = 0

lemma Inv.init (rateBps : ℕ) : Inv rateBps init where
  length_rounds := rfl
  length_began := rfl
  now_eq := rfl
  began_ge i t h := by cases h
  sleeps_le d hd := by cases hd
  current_eq _ := rfl

/-- The frames on the wire, after each step of the thread. -/
lemma wire_step {w w' : Writer} {act : WriterAction}
    (hstep : Writer.step codec pid oti w act = some w') :
    (act = .written ∧ w'.point = .polling ∧ w'.wire.length = w.wire.length + 1) ∨
      (act ≠ .written ∧ w'.point ≠ .polling ∧ w'.wire = w.wire) := by
  unfold Writer.step at hstep
  split at hstep
  · obtain rfl := Option.some.inj hstep
    exact Or.inr ⟨by simp, by simp, rfl⟩
  · obtain rfl := Option.some.inj hstep
    exact Or.inr ⟨by simp, by simp, rfl⟩
  · obtain rfl := Option.some.inj hstep
    exact Or.inr ⟨by simp, by simp, rfl⟩
  · obtain rfl := Option.some.inj hstep
    exact Or.inl ⟨rfl, rfl, by rw [List.length_append, List.length_singleton]⟩
  · obtain rfl := Option.some.inj hstep
    exact Or.inr ⟨by simp, by simp, rfl⟩
  · cases hstep

/-- The sleep behind a frame: the time is at the deadline behind it, or later if there is none. -/
lemma Inv.sleep (h : Inv rateBps s) {w : Writer} (took : ℕ)
    (hcounted : w.packetsSent + w.noopsSent = s.writer.wire.length + 1) :
    (∀ d ∈ w.sleepNs rateBps (s.now + took), d ≤ nanosPerPacket rateBps) ∧
      s.now + took + (w.sleepNs rateBps (s.now + took)).getD 0 =
        nanosPerPacket rateBps * (s.writer.wire.length + 1) +
          Paced.lag (nanosPerPacket rateBps) (s.rounds ++ [s.current + took]) := by
  have hnow := h.now_eq
  have hdeadline : w.nextDeadlineNs rateBps =
      nanosPerPacket rateBps * s.writer.wire.length + nanosPerPacket rateBps := by
    rw [Writer.nextDeadlineNs, hcounted, Nat.mul_succ]
  have hbound := nanosPerPacket_lt rateBps
  rw [Paced.lag_concat, Nat.mul_succ]
  unfold Writer.sleepNs
  rw [hdeadline]
  by_cases hearly : s.now + took <
      nanosPerPacket rateBps * s.writer.wire.length + nanosPerPacket rateBps
  · -- the sleep is shorter than an interval, so the cast does not change it
    rw [if_pos hearly, Nat.mod_eq_of_lt (by omega)]
    refine ⟨?_, ?_⟩
    · intro d hd
      obtain rfl := Option.mem_some_iff.mp hd
      omega
    · rw [Option.getD_some]
      omega
  · rw [if_neg hearly]
    refine ⟨?_, ?_⟩
    · intro d hd
      cases hd
    · rw [Option.getD_none]
      omega

lemma Inv.step (h : Inv rateBps s) (hcounted : Writer.Counted s.writer) {a : TimedAction}
    (hstep : step codec pid oti rateBps s a = some s') : Inv rateBps s' := by
  have hnow := h.now_eq
  cases step_moves hstep with
  | @written took w hw =>
    obtain ⟨-, hpoint, hwire⟩ | ⟨hne, -⟩ := wire_step hw
    · have hcount : w.packetsSent + w.noopsSent = s.writer.wire.length + 1 := by
        rw [← hwire]
        exact (hcounted.step hw).1 hpoint
      obtain ⟨hle, htime⟩ := h.sleep took hcount
      refine ⟨?_, ?_, ?_, ?_, ?_, fun _ => rfl⟩
      · show (s.rounds ++ [s.current + took]).length = w.wire.length
        rw [List.length_append, List.length_singleton, h.length_rounds, hwire]
      · show (s.began ++ [s.now]).length = w.wire.length
        rw [List.length_append, List.length_singleton, h.length_began, hwire]
      · show s.now + took + (w.sleepNs rateBps (s.now + took)).getD 0 = _
        rw [htime, hwire]
        rfl
      · intro i t ht
        change (s.began ++ [s.now])[i]? = some t at ht
        by_cases hold : i < s.began.length
        · rw [List.getElem?_append_left hold] at ht
          exact h.began_ge i t ht
        · rw [List.getElem?_append_right (Nat.not_lt.mp hold)] at ht
          obtain ⟨hlast, hnow'⟩ := List.getElem?_eq_some_iff.mp ht
          rw [List.length_singleton] at hlast
          rw [List.getElem_singleton] at hnow'
          obtain rfl : i = s.writer.wire.length := by
            have hlen := h.length_began
            omega
          omega
      · intro d hd
        rcases List.mem_append.mp hd with hold | hnew
        · exact h.sleeps_le d hold
        · exact hle d (Option.mem_toList.mp hnew)
    · exact absurd rfl hne
  | @other act took w hact hw =>
    obtain ⟨heq, -⟩ | ⟨-, hpoint, hwire⟩ := wire_step hw
    · exact absurd heq hact
    · refine ⟨?_, ?_, ?_, h.began_ge, h.sleeps_le, fun hpoll => absurd hpoll hpoint⟩
      · show s.rounds.length = w.wire.length
        rw [hwire, h.length_rounds]
      · show s.began.length = w.wire.length
        rw [hwire, h.length_began]
      · show s.now + took = nanosPerPacket rateBps * w.wire.length +
          Paced.lag (nanosPerPacket rateBps) s.rounds + (s.current + took)
        rw [hwire]
        omega

theorem Reachable.inv (h : Reachable codec pid oti rateBps s) : Inv rateBps s :=
  Machine.Reachable.invariant (Inv.init rateBps)
    (fun _ _ _ hr ih hstep => ih.step (Reachable.writer hr).counted hstep) h

/-- Between two rounds, the clock is at the deadline and the lag. -/
lemma Reachable.now_eq (h : Reachable codec pid oti rateBps s)
    (hpoint : s.writer.point = .polling) : s.now =
      s.writer.nextDeadlineNs rateBps + Paced.lag (nanosPerPacket rateBps) s.rounds := by
  rw [h.inv.now_eq, h.inv.current_eq hpoint, Nat.add_zero, Writer.nextDeadlineNs,
    h.writer.counted.1 hpoint]

/-- The rounds of a run are added behind those before. -/
lemma rounds_of_run {acts : List TimedAction}
    (hrun : Machine.run (step codec pid oti rateBps) s acts = some s') :
    s.rounds <+: s'.rounds := by
  refine Machine.run_induction (P := fun _ (t : TimedWriter) => s.rounds <+: t.rounds)
    (List.prefix_refl _) ?_ hrun
  intro _ m _ m' _ ih hstep
  cases step_moves hstep with
  | written _ => exact ih.trans (List.prefix_append _ _)
  | other _ _ => exact ih

/-! ## On time -/

/-- **The writer in real time.** Whatever the steps take, the frames are those of the writer
without a clock, no frame is written before its place at the rate, and no sleep is longer than the
interval of one packet, so its cast to `u64` is exact and the deadlines of `2^64` frames are exact
in `u128`. Between two frames the writer is late by what the worst stretch of rounds up to then has
taken beyond its intervals, and not by more. -/
theorem writer_on_time (codec : WireCodec) (pid : UInt16) (oti : ObjectTransmissionInformation)
    (rateBps : ℕ) {s : TimedWriter} (h : Reachable codec pid oti rateBps s) :
    Writer.Reachable codec pid oti s.writer ∧
    (∀ i t, s.began[i]? = some t → nanosPerPacket rateBps * i ≤ t) ∧
    (∀ d ∈ s.sleeps, d ≤ nanosPerPacket rateBps ∧ d < 2 ^ 64) ∧
    (s.writer.packetsSent + s.writer.noopsSent < 2 ^ 64 →
      s.writer.nextDeadlineNs rateBps < 2 ^ 128) ∧
    (s.writer.point = .polling → s.writer.nextDeadlineNs rateBps ≤ s.now ∧
      ∀ late, s.now ≤ s.writer.nextDeadlineNs rateBps + late ↔
        ∀ stretch, stretch <:+ s.rounds →
          stretch.sum ≤ late + stretch.length * nanosPerPacket rateBps) := by
  have hbound := nanosPerPacket_lt rateBps
  refine ⟨h.writer, h.inv.began_ge, ?_, ?_, ?_⟩
  · intro d hd
    have hle := h.inv.sleeps_le d hd
    exact ⟨hle, by omega⟩
  · intro htotal
    calc s.writer.nextDeadlineNs rateBps
        < 2 ^ 64 * 2 ^ 64 := Nat.mul_lt_mul'' hbound htotal
      _ = 2 ^ 128 := by decide
  · intro hpoint
    rw [h.now_eq hpoint]
    refine ⟨Nat.le_add_right _ _, fun late => ?_⟩
    rw [Nat.add_le_add_iff_left]
    exact Paced.lag_le_iff

/-- A round that takes longer than three intervals, at 50 Mbit/s. -/
theorem writer_on_time_stall : ∃ s,
    Reachable Reference.codec 0x100 (blockOti defaultBlockSize symbolSize) 50000000 s ∧
      s.rounds = [30, 100000] ∧ s.now = 130080 ∧ s.writer.nextDeadlineNs 50000000 = 60160 ∧
      ¬ s.now ≤ s.writer.nextDeadlineNs 50000000 + 69919 := by
  have hreach : Reachable Reference.codec 0x100 (blockOti defaultBlockSize symbolSize) 50000000
      _ := ⟨[⟨.empty, 10⟩, ⟨.written, 20⟩, ⟨.empty, 0⟩, ⟨.written, 100000⟩], rfl⟩
  refine ⟨_, hreach, rfl, rfl, rfl, ?_⟩
  obtain ⟨-, -, -, -, hpolling⟩ := writer_on_time _ _ _ _ hreach
  rw [(hpolling rfl).2 69919]
  intro hall
  exact absurd (hall [100000] ⟨[30], rfl⟩) (by decide)

/-! ## Catching up -/

/-- No sleep comes behind a frame that is late. -/
lemma Inv.sleepNs_eq_none (h : Inv rateBps s) {w : Writer} {took : ℕ}
    (hcounted : w.packetsSent + w.noopsSent = s.writer.wire.length + 1)
    (hlate : Paced.lag (nanosPerPacket rateBps) (s.rounds ++ [s.current + took]) ≠ 0) :
    w.sleepNs rateBps (s.now + took) = none := by
  obtain ⟨-, htime⟩ := h.sleep took hcounted
  have hdeadline : w.nextDeadlineNs rateBps =
      nanosPerPacket rateBps * (s.writer.wire.length + 1) := by
    rw [Writer.nextDeadlineNs, hcounted]
  cases hsleep : w.sleepNs rateBps (s.now + took) with
  | none => rfl
  | some d =>
    -- a sleep would end at the deadline
    unfold Writer.sleepNs at hsleep
    split at hsleep
    · rename_i hearly
      have hmod := Nat.mod_le (w.nextDeadlineNs rateBps - (s.now + took)) (2 ^ 64)
      rw [Option.some.inj hsleep] at hmod
      have hsome : (w.sleepNs rateBps (s.now + took)).getD 0 = d := by
        rw [Writer.sleepNs, if_pos hearly, Option.getD_some, Option.some.inj hsleep]
      rw [hsome] at htime
      omega
    · cases hsleep

/-- Since the state `s` the writer has not slept, and it is still late. -/
def Behind (rateBps : ℕ) (s s' : TimedWriter) : Prop :=
  s'.sleeps = s.sleeps ∧ (s'.writer.point = .polling → s'.writer.nextDeadlineNs rateBps < s'.now)

/-- The run from `s` comes to a frame behind which the writer is on time, and it is behind up to
there. -/
def BackOnTime (codec : WireCodec) (pid : UInt16) (oti : ObjectTransmissionInformation)
    (rateBps : ℕ) (s : TimedWriter) (acts : List TimedAction) : Prop :=
  ∃ catching m, catching <+: acts ∧
    Machine.run (step codec pid oti rateBps) s catching = some m ∧
    m.writer.point = .polling ∧ m.now = m.writer.nextDeadlineNs rateBps ∧
    ∀ before m', before <+: catching → before ≠ catching →
      Machine.run (step codec pid oti rateBps) s before = some m' → Behind rateBps s m'

/-- The run from `s` has not made up for the lag yet. -/
structure Late (codec : WireCodec) (pid : UInt16) (oti : ObjectTransmissionInformation)
    (rateBps : ℕ) (s : TimedWriter) (acts : List TimedAction) (s' : TimedWriter) : Prop where
  sleeps_eq : s'.sleeps = s.sleeps
  lag_ne : ∀ rest, s'.rounds = s.rounds ++ rest → ∀ taken, taken <+: rest →
    Paced.lag (nanosPerPacket rateBps) (s.rounds ++ taken) ≠ 0
  behind : ∀ before m, before <+: acts →
    Machine.run (step codec pid oti rateBps) s before = some m → Behind rateBps s m

lemma Reachable.run (h : Reachable codec pid oti rateBps s) {acts : List TimedAction}
    (hrun : Machine.run (step codec pid oti rateBps) s acts = some s') :
    Reachable codec pid oti rateBps s' := by
  obtain ⟨before, hbefore⟩ := h
  exact ⟨before ++ acts, Machine.run_append_eq_some.mpr ⟨s, hbefore, hrun⟩⟩

/-- A step that leaves the writer late. -/
lemma Late.concat {acts : List TimedAction} {m : TimedWriter} {a : TimedAction}
    (hlate : Late codec pid oti rateBps s acts m) (hreach : Reachable codec pid oti rateBps s')
    (hrun : Machine.run (step codec pid oti rateBps) s (acts ++ [a]) = some s')
    (hsleeps : s'.sleeps = m.sleeps)
    (hne : Paced.lag (nanosPerPacket rateBps) s'.rounds ≠ 0)
    (hrounds : s'.rounds = m.rounds ∨ ∃ r, s'.rounds = m.rounds ++ [r])
    (hinitial : s.rounds <+: m.rounds) : Late codec pid oti rateBps s (acts ++ [a]) s' where
  sleeps_eq := hsleeps.trans hlate.sleeps_eq
  lag_ne rest hrest taken htaken := by
    obtain ⟨before, hbefore⟩ := hinitial
    rcases hrounds with hsame | ⟨r, hr⟩
    · exact hlate.lag_ne rest (hsame ▸ hrest) taken htaken
    · obtain rfl : rest = before ++ [r] := by
        rw [hr, ← hbefore, List.append_assoc] at hrest
        exact (List.append_cancel_left hrest).symm
      rcases List.prefix_concat_iff.mp htaken with rfl | hold
      · rwa [← hrest]
      · exact hlate.lag_ne before hbefore.symm taken hold
  behind before m' hcut hm' := by
    rcases List.prefix_concat_iff.mp hcut with rfl | hold
    · obtain rfl := Option.some.inj (hrun.symm.trans hm')
      refine ⟨hsleeps.trans hlate.sleeps_eq, fun hpoint => ?_⟩
      rw [hreach.now_eq hpoint]
      omega
    · exact hlate.behind before m' hold hm'

/-- Before any step the writer is on time or late. -/
lemma Reachable.late_init (h : Reachable codec pid oti rateBps s)
    (hpoint : s.writer.point = .polling) :
    BackOnTime codec pid oti rateBps s [] ∨ Late codec pid oti rateBps s [] s := by
  have hnow := h.now_eq hpoint
  by_cases hzero : Paced.lag (nanosPerPacket rateBps) s.rounds = 0
  · refine Or.inl ⟨[], s, List.prefix_rfl, rfl, hpoint, by omega, fun before _ hcut hne => ?_⟩
    exact absurd (List.prefix_nil.mp hcut) hne
  · refine Or.inr ⟨rfl, fun rest hrest taken htaken => ?_, fun before m hcut hm => ?_⟩
    · obtain rfl : rest = [] := List.self_eq_append_right.mp hrest
      rwa [List.prefix_nil.mp htaken, List.append_nil]
    · obtain rfl := List.prefix_nil.mp hcut
      obtain rfl := Option.some.inj hm
      exact ⟨rfl, fun _ => by omega⟩

/-- A late writer is on time behind the next frame, or still late. -/
lemma Late.step (h : Reachable codec pid oti rateBps s) {acts : List TimedAction}
    {m : TimedWriter} {a : TimedAction}
    (hacts : Machine.run (TimedWriter.step codec pid oti rateBps) s acts = some m)
    (hlate : Late codec pid oti rateBps s acts m)
    (hstep : TimedWriter.step codec pid oti rateBps m a = some s') :
    BackOnTime codec pid oti rateBps s (acts ++ [a]) ∨
      Late codec pid oti rateBps s (acts ++ [a]) s' := by
  have hm := h.run hacts
  have hrun := Machine.run_concat_eq_some.mpr ⟨m, hacts, hstep⟩
  have hreach := h.run hrun
  have hinitial := rounds_of_run hacts
  cases step_moves hstep with
  | @written took w hw =>
    obtain ⟨hpolling, hwire⟩ : w.point = .polling ∧
        w.wire.length = m.writer.wire.length + 1 := by
      obtain ⟨-, hpolling, hwire⟩ | ⟨hne, -⟩ := wire_step hw
      · exact ⟨hpolling, hwire⟩
      · exact absurd rfl hne
    by_cases hzero : Paced.lag (nanosPerPacket rateBps) (m.rounds ++ [m.current + took]) = 0
    · -- the frame that makes up for the lag is the first one on time
      refine Or.inl ⟨acts ++ [⟨.written, took⟩], _, List.prefix_rfl, hrun, hpolling, ?_, ?_⟩
      · rw [hreach.now_eq hpolling, hzero, Nat.add_zero]
      · intro before b hcut hne hb
        exact hlate.behind before b ((List.prefix_concat_iff.mp hcut).resolve_left hne) hb
    · have hcount : w.packetsSent + w.noopsSent = m.writer.wire.length + 1 := by
        rw [← hwire]
        exact (hm.writer.counted.step hw).1 hpolling
      refine Or.inr (hlate.concat hreach hrun ?_ hzero (Or.inr ⟨_, rfl⟩) hinitial)
      show m.sleeps ++ (w.sleepNs rateBps (m.now + took)).toList = m.sleeps
      rw [hm.inv.sleepNs_eq_none hcount hzero, Option.toList_none, List.append_nil]
  | other hact hw =>
    obtain ⟨rest, hrest⟩ := hinitial
    have hne := hlate.lag_ne rest hrest.symm rest List.prefix_rfl
    rw [hrest] at hne
    exact Or.inr (hlate.concat hreach hrun rfl hne (Or.inl rfl) ⟨rest, hrest⟩)

/-- Each run from between two rounds comes to be on time again, or is late throughout. -/
lemma backOnTime_or_late (h : Reachable codec pid oti rateBps s)
    (hpoint : s.writer.point = .polling) {acts : List TimedAction}
    (hrun : Machine.run (step codec pid oti rateBps) s acts = some s') :
    BackOnTime codec pid oti rateBps s acts ∨ Late codec pid oti rateBps s acts s' := by
  refine Machine.run_induction (P := fun acts (s' : TimedWriter) =>
    BackOnTime codec pid oti rateBps s acts ∨ Late codec pid oti rateBps s acts s')
    (h.late_init hpoint) ?_ hrun
  intro acts m a m' hacts ih hstep
  cases ih with
  | inl hback =>
    obtain ⟨catching, c, hcut, hback⟩ := hback
    exact Or.inl ⟨catching, c, hcut.trans (List.prefix_append _ _), hback⟩
  | inr hlate => exact hlate.step h hacts hstep

/-- **Catching up.** If the writer has fallen behind, and the rounds of its next frames take less
than their intervals by as much as it is behind, then it is back at its deadline behind one of
these frames. It does not sleep before. -/
theorem writer_catches_up (codec : WireCodec) (pid : UInt16) (oti : ObjectTransmissionInformation)
    (rateBps : ℕ) {s s' : TimedWriter} (h : Reachable codec pid oti rateBps s)
    (hpoint : s.writer.point = .polling) {acts : List TimedAction}
    (hrun : Machine.run (step codec pid oti rateBps) s acts = some s') {rest : List ℕ}
    (hrounds : s'.rounds = s.rounds ++ rest)
    (hmade : s.now + rest.sum ≤
      s.writer.nextDeadlineNs rateBps + rest.length * nanosPerPacket rateBps) :
    BackOnTime codec pid oti rateBps s acts := by
  rcases backOnTime_or_late h hpoint hrun with hback | hlate
  · exact hback
  · rw [h.now_eq hpoint, Nat.add_assoc, Nat.add_le_add_iff_left] at hmade
    obtain ⟨taken, htaken, hzero⟩ := Paced.exists_lag_eq_zero hmade
    exact absurd hzero (hlate.lag_ne rest hrounds taken htaken)

/-- Five frames behind such a round. The first of them is late itself, and the fourth one is on
time. -/
theorem writer_catches_up_stall : ∃ s,
    Machine.run (step Reference.codec 0x100 (blockOti defaultBlockSize symbolSize) 50000000)
        init [⟨.empty, 10⟩, ⟨.written, 20⟩, ⟨.empty, 0⟩, ⟨.written, 100000⟩] = some s ∧
      s.now = 130080 ∧ s.writer.nextDeadlineNs 50000000 = 60160 ∧
      BackOnTime Reference.codec 0x100 (blockOti defaultBlockSize symbolSize) 50000000 s
        [⟨.empty, 10⟩, ⟨.written, 50000⟩, ⟨.empty, 10⟩, ⟨.written, 20⟩, ⟨.empty, 10⟩,
          ⟨.written, 20⟩, ⟨.empty, 10⟩, ⟨.written, 20⟩, ⟨.empty, 10⟩, ⟨.written, 20⟩] := by
  have hmade : 130080 + [50010, 30, 30, 30, 30].sum ≤ 60160 + 5 * nanosPerPacket 50000000 := by
    decide
  refine ⟨_, rfl, rfl, rfl, ?_⟩
  exact @writer_catches_up Reference.codec 0x100 (blockOti defaultBlockSize symbolSize) 50000000
    _ _ ⟨[⟨.empty, 10⟩, ⟨.written, 20⟩, ⟨.empty, 0⟩, ⟨.written, 100000⟩], rfl⟩ rfl _ rfl
    [50010, 30, 30, 30, 30] rfl hmade

end TimedWriter

end RaptorqTs.Enc
