import RaptorqTs.Dec.Window

/-!
# Giving up on a block

The drain loop writes a block that is not completed when it has timed out or when the window
has run ahead of it by `max_in_flight`. The second test compares with `cursor + max_in_flight`,
of which the first part only grows and the second comes unchecked from the command line. When
the sum wraps, it is behind the cursor, and every block in the window is given up at once.
-/

namespace RaptorqTs

variable {D : Type} {env : Env D}

/-- The head has reached the timeout, or the window has run ahead of it by `max_in_flight`. -/
def Due (env : Env D) (t : Instant) (w : Window D) : Prop :=
  (∃ b, w.pool[w.cursor]? = some b ∧ env.timeout ≤ elapsed t b.firstSeen) ∨
    (env.maxInFlight : ℤ) ≤ (w.highestSeen : ℤ) - w.cursor

/-- A pass of the drain loop writes a block that is not completed only if it is due. -/
def GivesUpInTime (env : Env D) (c : Conf D) (a : Action) : Prop :=
  ∀ clk c' e, a = .pass clk → step env c a = some c' →
    c'.window.stdout = c.window.stdout ++ [e] → e.kind ≠ .decoded → Due env clk.guard c.window

/-- The sum of the cursor and the window size fits in a `u64`, or it makes no difference:
nothing has been received, the head is completed or due in any case, or it is not in the pool
and the wrapped sum is ahead of `highest_seen`. -/
def SumHarmless (env : Env D) (t : Instant) (w : Window D) : Prop :=
  w.cursor + env.maxInFlight < 2 ^ 64 ∨ w.started = false ∨
    w.cursor + env.maxInFlight ≤ w.highestSeen ∨
    (∃ b, w.pool[w.cursor]? = some b ∧
      (b.completed.isSome = true ∨ env.timeout ≤ elapsed t b.firstSeen)) ∨
    (w.pool[w.cursor]? = none ∧ w.highestSeen < wrappingAdd w.cursor env.maxInFlight)

/-- What is written for a head that is not completed. -/
lemma emissionOf_kind_ne_iff {k : ℕ} {e : Option (BlockState D)} :
    (emissionOf k e).kind ≠ .decoded ↔ ∀ b, e = some b → b.completed = none := by
  cases e with
  | none =>
    refine iff_of_true (fun h => by cases h) fun b hb => ?_
    cases hb
  | some b =>
    cases hc : b.completed with
    | none =>
      simp only [emissionOf, hc]
      refine iff_of_true (fun h => by cases h) fun b' hb' => ?_
      rw [← Option.some.inj hb', hc]
    | some data =>
      simp only [emissionOf, hc]
      refine iff_of_false (fun h => h rfl) fun h => ?_
      rw [h b rfl] at hc
      cases hc

/-- A sum that wraps is behind the cursor. -/
lemma wrappingAdd_lt_cursor {w : Window D} (h : ¬ w.cursor + env.maxInFlight < 2 ^ 64) :
    wrappingAdd w.cursor env.maxInFlight < w.cursor := by
  have hM : env.maxInFlight < 2 ^ 64 := env.args.maxBlocksInFlight.toNat_lt
  have hle : wrappingAdd w.cursor env.maxInFlight ≤ w.cursor + env.maxInFlight - 2 ^ 64 := by
    unfold wrappingAdd
    rw [Nat.mod_eq_sub_mod (by omega)]
    exact Nat.mod_le _ _
  omega

/-- A pass gives up on an open head when it has timed out, or when `highest_seen` has come to the
sum the code computes. -/
lemma Window.Wf.timeout_or_behind {w : Window D} (h : w.Wf) {t : Instant}
    (hmay : mayAdvance env t w = true)
    (hopen : ∀ b, w.pool[w.cursor]? = some b → b.completed = none) :
    (∃ b, w.pool[w.cursor]? = some b ∧ env.timeout ≤ elapsed t b.firstSeen) ∨
      wrappingAdd w.cursor env.maxInFlight ≤ w.highestSeen := by
  have hforced : shouldForce env w = true →
      wrappingAdd w.cursor env.maxInFlight ≤ w.highestSeen := by
    intro hforce
    obtain ⟨k, b, hk, hle⟩ := shouldForce_iff_exists.mp hforce
    exact hle.trans (h.key_le_highest hk)
  cases hpool : w.pool[w.cursor]? with
  | some b =>
    simp only [mayAdvance, hpool, hopen b hpool, Option.isSome_none, Bool.false_or,
      Bool.or_eq_true, decide_eq_true_eq] at hmay
    rcases hmay with htimeout | hforce
    · exact Or.inl ⟨b, rfl, htimeout⟩
    · exact Or.inr (hforced hforce)
  | none =>
    simp only [mayAdvance, hpool, zeroGuard, Bool.and_eq_true, Bool.or_eq_true,
      decide_eq_true_eq] at hmay
    rcases hmay.2 with hforce | hle
    · exact Or.inr (hforced hforce)
    · exact Or.inr hle

/-- Where the wrapped sum does harm, a pass gives up on an open head that is not due. -/
lemma advances_of_not_harmless {w : Window D} {t : Instant} (h : ¬ SumHarmless env t w) :
    mayAdvance env t w = true ∧ (∀ b, w.pool[w.cursor]? = some b → b.completed = none) ∧
      ¬ Due env t w := by
  simp only [SumHarmless, not_or, not_exists, not_and] at h
  obtain ⟨hwrap, hstarted, hbehind, hhead, habsent⟩ := h
  have hback := wrappingAdd_lt_cursor hwrap
  have hgap : ¬ (env.maxInFlight : ℤ) ≤ (w.highestSeen : ℤ) - w.cursor := by omega
  refine ⟨?_, fun b hb => ?_, ?_⟩
  · cases hpool : w.pool[w.cursor]? with
    | some b =>
      -- the head itself is ahead of the wrapped sum
      have hforce : shouldForce env w = true :=
        shouldForce_iff_exists.mpr ⟨w.cursor, b, hpool, hback.le⟩
      exact mayAdvance_of_shouldForce t (by simpa using hstarted) hforce
    | none =>
      have hle := Nat.le_of_not_lt (habsent hpool)
      simp [mayAdvance, hpool, zeroGuard, hstarted, hle]
  · simpa using (hhead b hb).1
  · rintro (⟨b, hb, htimeout⟩ | hahead)
    · exact (hhead b hb).2 htimeout
    · exact hgap hahead

/-- **When a pass may give up.** -/
theorem Window.Wf.due_iff {w : Window D} (h : w.Wf) {t : Instant} :
    (mayAdvance env t w = true → (∀ b, w.pool[w.cursor]? = some b → b.completed = none) →
      Due env t w) ↔ SumHarmless env t w := by
  constructor
  · intro hdue
    by_contra hharm
    obtain ⟨hmay, hopen, hnot⟩ := advances_of_not_harmless hharm
    exact hnot (hdue hmay hopen)
  · intro hharm hmay hopen
    rcases h.timeout_or_behind hmay hopen with htimeout | hle
    · exact Or.inl htimeout
    rcases hharm with hfit | hidle | hahead | ⟨b, hb, hc | htimeout⟩ | ⟨-, hlt⟩
    · rw [wrappingAdd_of_lt hfit] at hle
      exact Or.inr (by omega)
    · rw [h.started_of_mayAdvance hmay] at hidle
      cases hidle
    · exact Or.inr (by omega)
    · rw [hopen b hb] at hc
      cases hc
    · exact Or.inl ⟨b, hb, htimeout⟩
    · omega

/-- The same, of the step that the pass is. -/
lemma Window.Wf.givesUpInTime_iff {c : Conf D} (h : c.window.Wf) {clk : Clock}
    (hdrain : c.point = .drain) :
    GivesUpInTime env c (.pass clk) ↔ SumHarmless env clk.guard c.window := by
  rw [← h.due_iff]
  constructor
  · intro hstep hmay hopen
    obtain ⟨c', hc'⟩ := exists_step_pass hdrain clk
    rcases (step_pass hc').2 with ⟨-, -, hw⟩ | ⟨hnot, -⟩
    · exact hstep clk c' _ rfl hc' (by rw [hw]; rfl) (emissionOf_kind_ne_iff.mpr hopen)
    · rw [hmay] at hnot
      cases hnot
  · rintro hdue _ c' e ⟨rfl⟩ hc' hstdout hkind
    rcases (step_pass hc').2 with ⟨hmay, -, hw⟩ | ⟨-, -, hw⟩
    · rw [hw] at hstdout
      have he : emissionOf c.window.cursor c.window.pool[c.window.cursor]? = e :=
        List.singleton_inj.mp (List.append_cancel_left hstdout)
      rw [← he] at hkind
      exact hdue hmay (emissionOf_kind_ne_iff.mp hkind)
    · rw [hw] at hstdout
      exact absurd hstdout (by simp)

/-- **No premature give-up.** In a run the drain loop gives up only on blocks that are due exactly
when no pass of the run is made with a sum that wraps and matters. -/
theorem gives_up_in_time_iff (env : Env D) (now : Instant) (acts : List Action) :
    Machine.EachStep (step env) (init now) (GivesUpInTime env) acts ↔
      Machine.EachStep (step env) (init now)
        (fun c a => ∀ clk, a = .pass clk → c.point = .drain → SumHarmless env clk.guard c.window)
        acts := by
  constructor
  · rintro h pre _ post c hcut hrun clk rfl hdrain
    have hwf := Reachable.wf ⟨now, pre, hrun⟩ (by rw [hdrain]; decide)
    exact (hwf.givesUpInTime_iff hdrain).mp (h pre _ post c hcut hrun)
  · rintro h pre a post c hcut hrun clk c' e rfl hc' hstdout hkind
    have hdrain := (step_pass hc').1
    have hwf := Reachable.wf ⟨now, pre, hrun⟩ (by rw [hdrain]; decide)
    exact (hwf.givesUpInTime_iff hdrain).mpr (h pre _ post c hcut hrun clk rfl hdrain) clk c' e
      rfl hc' hstdout hkind

/-- A window size meant as "never": the first packet of a stream that starts with block 1 is
given up as soon as it has been received. -/
theorem gives_up_at_once : ¬ Machine.EachStep (step (Reference.env 0xFFFFFFFFFFFFFFFF)) (init 0)
    (GivesUpInTime (Reference.env 0xFFFFFFFFFFFFFFFF))
    [.event 0 (Reference.frame 2 1 0 (Reference.flat 1)), .pass (Clock.at 0)] := by
  intro h
  have hrun : (runFrom (Reference.env 0xFFFFFFFFFFFFFFFF) 0
      [.event 0 (Reference.frame 2 1 0 (Reference.flat 1))]).map (fun c => (c.point,
        c.window.cursor, c.window.highestSeen,
        c.window.pool[c.window.cursor]?.map fun b => (b.completed.isSome, b.firstSeen))) =
      some (.drain, 1, 1, some (false, 0)) := by
    decide +kernel
  obtain ⟨c, hc, hobs⟩ := exists_of_run_map hrun
  simp only [Prod.mk.injEq] at hobs
  obtain ⟨hdrain, hcursor, hhighest, hobs⟩ := hobs
  obtain ⟨b, hb, hbobs⟩ := Option.map_eq_some_iff.mp hobs
  simp only [Prod.mk.injEq] at hbobs
  have hwf := Reachable.wf ⟨0, _, hc⟩ (by rw [hdrain]; decide)
  -- the block is open, it has just been received, and it is the highest
  rcases (hwf.givesUpInTime_iff hdrain).mp (h _ _ [] c rfl hc) with
    hfit | hidle | hahead | ⟨b', hb', hdue⟩ | ⟨hnone, -⟩
  · rw [hcursor] at hfit
    exact absurd hfit (by decide)
  · rw [hwf.started_of_get hb] at hidle
    cases hidle
  · rw [hcursor, hhighest] at hahead
    exact absurd hahead (by decide)
  · obtain rfl := Option.some.inj (hb.symm.trans hb')
    rw [hbobs.1, hbobs.2] at hdue
    exact absurd hdue (by decide)
  · rw [hb] at hnone
    cases hnone

end RaptorqTs
