import RaptorqTs.Dec.Classify
import RaptorqTs.Dec.Determinism

/-!
# Useless frames

A frame that is not accepted into a block leaves the window as it is, and the drain loop that
some of these frames lead to finds nothing to do: it has run to its end before, and as long as
no block times out the guards have not changed. So the frames can be left out. What is left is a
run on the frames that were accepted, and any other run on these writes the same bytes, at
whatever times.
-/

namespace RaptorqTs

variable {D : Type} {env : Env D}

/-! ## What a step does depends on the window only -/

/-- The same step from another configuration with the same point and window. -/
lemma Moves.exists_step {c d : Conf D} {a : Action} {p' : Point} {w' : Window D}
    (hm : Moves env c.point c.window a p' w') (hpoint : d.point = c.point)
    (hw : d.window = c.window) : ∃ d', step env d a = some d' ∧ d'.point = p' ∧ d'.window = w' := by
  rw [← hpoint, ← hw] at hm
  generalize hp : d.point = p, hv : d.window = v at hm
  cases hm with
  | @drop _ now ev hdrop =>
    rw [← hv] at hdrop ⊢
    exact exists_step_of_dropped now hp hdrop
  | @ignore _ now ev hev =>
    rw [← hv]
    exact exists_step_of_ignored now hp hev
  | @accept _ now ev oti pkt b hev hred hb =>
    rw [← hv] at hred hb ⊢
    exact exists_step_of_accepted hp hev hred hb
  | @advance _ clk hmay =>
    obtain ⟨d', hstep⟩ := exists_step_pass hp clk
    rcases (step_pass hstep).2 with ⟨-, hpoint', hw'⟩ | ⟨hnot, -, -⟩
    · rw [hv] at hw'
      exact ⟨d', hstep, hpoint', hw'⟩
    · rw [hv, hmay] at hnot
      simp at hnot
  | @settle _ clk hmay =>
    obtain ⟨d', hstep⟩ := exists_step_pass hp clk
    rcases (step_pass hstep).2 with ⟨hnot, -, -⟩ | ⟨-, hpoint', hw'⟩
    · rw [hv, hmay] at hnot
      simp at hnot
    · rw [hv] at hw'
      exact ⟨d', hstep, hpoint', hw'⟩
  | flush =>
    refine ⟨⟨.closed, ⟨flushRemaining d.window, d.state.toCounters⟩⟩, ?_, rfl, by rw [← hv]⟩
    simp only [step, hp, if_true]

/-! ## Leaving the useless frames out -/

/-- The frame of an action, if it is accepted. -/
def keptFrame (env : Env D) (c : Conf D) (a : Action) : List Bytes :=
  match frameBytes a with
  | some bytes => if classify env c.window bytes = .ok then [bytes] else []
  | none => []

/-- The frames of a run that are not noop, unparseable, redundant or of an insane OTI. -/
def keptFrames (env : Env D) (now : Instant) (acts : List Action) : List Bytes :=
  Machine.trace (step env) (keptFrame env) (init now) acts

/-- An action that is no more than counted is left out. -/
lemma keptFrame_of_event {c : Conf D} {now : Instant} {ev : Event}
    (h : acceptedBlock env c.window ev = none) : keptFrame env c (.event now ev) = [] := by
  cases ev with
  | tick => rfl
  | frame bytes =>
    show (if classify env c.window bytes = .ok then [bytes] else []) = []
    rw [if_neg]
    rw [classify_eq_ok, h]
    simp

/-- The run `acts'` is the run `acts` without its useless events, at the same clock readings. It
has reached the same window in `d`, but does not take part in a drain loop that has nothing to
do. -/
structure Thinned (env : Env D) (now : Instant) (acts : List Action) (c : Conf D)
    (acts' : List Action) (d : Conf D) : Prop where
  run_eq : runFrom env now acts' = some d
  fresh : Machine.EachStep (step env) (init now) (fun c a => Fresh env c.window a) acts'
  frames : acts'.filterMap frameBytes = keptFrames env now acts
  window : d.window = c.window
  waits : d.point = c.point ∨ (c.point = .drain ∧ d.point = .recv)

namespace Thinned

variable {now : Instant} {acts acts' : List Action} {c c' d : Conf D} {a : Action}

lemma init : Thinned env now [] (init now) [] (RaptorqTs.init now) where
  run_eq := rfl
  fresh := Machine.EachStep.nil
  frames := rfl
  window := rfl
  waits := Or.inl rfl

/-- The action is performed. -/
lemma keep (h : Thinned env now acts c acts' d) (hrun : runFrom env now acts = some c)
    (hfresh : Fresh env c.window a) (hstep : step env c a = some c') (hpoint : d.point = c.point)
    (hkept : keptFrame env c a = [a].filterMap frameBytes) :
    ∃ d', Thinned env now (acts ++ [a]) c' (acts' ++ [a]) d' := by
  obtain ⟨d', hstep', hpoint', hw'⟩ := (step_moves hstep).exists_step hpoint h.window
  have hfresh' : Fresh env d.window a := by
    rw [h.window]
    exact hfresh
  refine ⟨d', Machine.run_concat_eq_some.mpr ⟨d, h.run_eq, hstep'⟩,
    (Machine.eachStep_concat h.run_eq).mpr ⟨h.fresh, hfresh'⟩, ?_, hw', Or.inl hpoint'⟩
  have htrace : keptFrames env now (acts ++ [a]) = keptFrames env now acts ++ keptFrame env c a :=
    Machine.trace_concat a hrun
  rw [htrace, List.filterMap_append, h.frames, hkept]

/-- The action is left out. -/
lemma skip (h : Thinned env now acts c acts' d) (hrun : runFrom env now acts = some c)
    (hkept : keptFrame env c a = []) (hw : c'.window = c.window)
    (hwaits : d.point = c'.point ∨ (c'.point = .drain ∧ d.point = .recv)) :
    Thinned env now (acts ++ [a]) c' acts' d := by
  refine ⟨h.run_eq, h.fresh, ?_, by rw [h.window, hw], hwaits⟩
  have htrace : keptFrames env now (acts ++ [a]) = keptFrames env now acts ++ keptFrame env c a :=
    Machine.trace_concat a hrun
  rw [htrace, hkept, h.frames, List.append_nil]

/-- A useless event leaves the other run where it is. -/
lemma ignore (h : Thinned env now acts c acts' d) (hrun : runFrom env now acts = some c)
    {t : Instant} {ev : Event} (hstep : step env c (.event t ev) = some c')
    (hnone : acceptedBlock env c.window ev = none) :
    Thinned env now (acts ++ [.event t ev]) c' acts' d := by
  have hm := step_moves hstep
  generalize hp : c.point = p, hv : c.window = v, hp' : c'.point = p', hv' : c'.window = v' at hm
  have hrecv : d.point = .recv := by
    rcases h.waits with hsame | ⟨-, hrecv⟩
    · rw [hsame, hp]
      cases hm <;> rfl
    · exact hrecv
  cases hm with
  | drop _ =>
    exact h.skip hrun (keptFrame_of_event hnone) (hv'.trans hv.symm) (by simp [hp', hrecv])
  | ignore _ =>
    exact h.skip hrun (keptFrame_of_event hnone) (hv'.trans hv.symm) (by simp [hp', hrecv])
  | accept hev hred _ =>
    rw [hv] at hnone
    simp [acceptedBlock, hev, hred] at hnone

/-- An accepted frame is accepted in the other run too. -/
lemma accept (h : Thinned env now acts c acts' d) (hrun : runFrom env now acts = some c)
    {t : Instant} {ev : Event} (hstep : step env c (.event t ev) = some c') {l : ℕ}
    (hl : acceptedBlock env c.window ev = some l) :
    ∃ d', Thinned env now (acts ++ [.event t ev]) c' (acts' ++ [.event t ev]) d' := by
  have hrecv : c.point = .recv := by
    have hm := step_moves hstep
    generalize c.point = p, c.window = v, c'.point = p', c'.window = v' at hm
    cases hm <;> rfl
  have hfresh : Fresh env c.window (.event t ev) := trivial
  apply h.keep hrun hfresh hstep
  · rcases h.waits with hsame | ⟨hdrain, -⟩
    · exact hsame
    · rw [hrecv] at hdrain
      simp at hdrain
  · cases ev with
    | tick => simp [acceptedBlock, saneFrame, dataFrame] at hl
    | frame bytes =>
      have hok : classify env c.window bytes = .ok := by
        rw [classify_eq_ok, hl]
        rfl
      show (if classify env c.window bytes = .ok then [bytes] else []) = [bytes]
      rw [if_pos hok]

/-- A pass of the drain loop. Where the other run waits there is nothing to do. -/
lemma pass (h : Thinned env now acts c acts' d) (hrun : runFrom env now acts = some c)
    {clk : Clock} (hfresh : Fresh env c.window (.pass clk))
    (hstep : step env c (.pass clk) = some c') :
    ∃ acts'' d', Thinned env now (acts ++ [.pass clk]) c' acts'' d' := by
  obtain ⟨hdrain, hcases⟩ := step_pass hstep
  rcases h.waits with hsame | ⟨-, hrecv⟩
  · exact ⟨_, h.keep hrun hfresh hstep hsame rfl⟩
  · have hnot := Reachable.not_ripe ⟨now, acts', h.run_eq⟩ hrecv
    rw [h.window, ← hfresh.mayAdvance_eq] at hnot
    rcases hcases with ⟨hmay, -, -⟩ | ⟨-, hpoint, hw⟩
    · rw [hnot] at hmay
      simp at hmay
    · exact ⟨acts', d, h.skip hrun rfl hw (Or.inl (hrecv.trans hpoint.symm))⟩

end Thinned

/-- **Leaving out.** A run without timeouts is matched by one on the frames it accepts. -/
theorem exists_thinned {now : Instant} {acts : List Action} {c : Conf D}
    (hrun : runFrom env now acts = some c)
    (hfresh : Machine.EachStep (step env) (init now) (fun c a => Fresh env c.window a) acts) :
    ∃ acts' d, Thinned env now acts c acts' d := by
  refine Machine.run_induction_of (P := fun acts c => ∃ acts' d, Thinned env now acts c acts' d)
    ⟨[], init now, Thinned.init⟩ ?_ hfresh hrun
  intro acts c a c' hrun _ ih hfresh hstep
  obtain ⟨acts', d, h⟩ := ih
  cases a with
  | event t ev =>
    cases hl : acceptedBlock env c.window ev with
    | none => exact ⟨acts', d, h.ignore hrun hstep hl⟩
    | some l => exact ⟨_, h.accept hrun hstep hl⟩
  | pass clk => exact h.pass hrun hfresh hstep
  | disconnect =>
    have hrecv := (step_disconnect hstep).1
    refine ⟨_, h.keep hrun hfresh hstep ?_ rfl⟩
    rcases h.waits with hsame | ⟨hdrain, -⟩
    · exact hsame
    · rw [hrecv] at hdrain
      simp at hdrain

/-- **Useless frames.** When no block reaches the timeout, the frames of a run that are not
accepted can be left out: there is a run on the others, it reaches the same window, and so does
every run on them in which no block reaches the timeout, but for the clock. -/
theorem useless_frames {now : Instant} {acts : List Action} {c : Conf D}
    (hrun : runFrom env now acts = some c)
    (hfresh : Machine.EachStep (step env) (init now) (fun c a => Fresh env c.window a) acts)
    (hdone : c.point ≠ .drain) :
    (∃ acts' d, runFrom env now acts' = some d ∧
      Machine.EachStep (step env) (init now) (fun c a => Fresh env c.window a) acts' ∧
      acts'.filterMap frameBytes = keptFrames env now acts ∧
      d.point = c.point ∧ d.window = c.window) ∧
    ∀ now' acts' d, runFrom env now' acts' = some d →
      Machine.EachStep (step env) (init now') (fun c a => Fresh env c.window a) acts' →
      acts'.filterMap frameBytes = keptFrames env now acts → d.point = c.point →
        d.window.bytes = c.window.bytes ∧ d.window.Alike c.window := by
  obtain ⟨acts', d, h⟩ := exists_thinned hrun hfresh
  have hpoint : d.point = c.point := h.waits.resolve_right fun hw => hdone hw.1
  refine ⟨⟨acts', d, h.run_eq, h.fresh, h.frames, hpoint, h.window⟩, ?_⟩
  intro now' acts'' d' hrun' hfresh' hframes hpoint'
  rw [← h.frames] at hframes
  have halike := run_alike h.run_eq h.fresh hrun' hfresh' hframes (hpoint'.trans hpoint.symm)
    (by rwa [hpoint])
  rw [h.window] at halike
  refine ⟨?_, halike⟩
  unfold Window.bytes
  rw [halike.stdout]

/-- A block of one symbol. -/
def usefulFrame : Bytes :=
  buildDataPacket Reference.codec 0x100 1 (blockOti symbolSize symbolSize)
    ⟨⟨0, 0⟩, Reference.flat 1⟩ (List.replicate tsPacketSize 0)

/-- A noop, the block, the block again, and a frame that does not parse. -/
def noisyRun : List Action :=
  [.event 0 (.frame (buildNoopPacket 0x100 0 (List.replicate tsPacketSize 0))),
    .pass (Clock.at 0), .event 0 (.frame usefulFrame), .pass (Clock.at 0), .pass (Clock.at 0),
    .event 0 (.frame usefulFrame), .event 0 (.frame []), .pass (Clock.at 0), .disconnect]

/-- Of the four frames one is useful. -/
theorem useless_frames_noisy : ∃ c d : Conf Reference.Decoder, ∃ acts',
    runFrom (Reference.env 8) 0 noisyRun = some c ∧
      runFrom (Reference.env 8) 0 acts' = some d ∧
      acts'.filterMap frameBytes = [usefulFrame] ∧ d.window = c.window ∧
      c.window.bytes = Reference.flat 1 := by
  have hobs : (runFrom (Reference.env 8) 0 noisyRun).map (fun c => (c.point, c.window.bytes)) =
      some (.closed, Reference.flat 1) := by
    decide +kernel
  obtain ⟨c, hc, hvalue⟩ := exists_of_run_map hobs
  simp only [Prod.mk.injEq] at hvalue
  have hkept : keptFrames (Reference.env 8) 0 noisyRun = [usefulFrame] := by decide +kernel
  have hdone : c.point ≠ .drain := by
    rw [hvalue.1]
    decide
  have hfresh : Machine.EachStep (step (Reference.env 8)) (init 0)
      (fun c a => Fresh (Reference.env 8) c.window a) noisyRun := by
    intro pre a post s hcut _
    have ha : a ∈ noisyRun := by rw [hcut]; simp
    apply fresh_of_guard_zero (by decide)
    intro clk hclk
    simp only [hclk, noisyRun, List.mem_cons, reduceCtorEq, Action.pass.injEq, List.not_mem_nil,
      false_or, or_false, or_self] at ha
    rw [ha]
    rfl
  obtain ⟨⟨acts', d, hd, -, hframes, -, hw⟩, -⟩ := useless_frames hc hfresh hdone
  rw [hkept] at hframes
  exact ⟨c, d, acts', hc, hd, hframes, hw, hvalue.2⟩

end RaptorqTs
