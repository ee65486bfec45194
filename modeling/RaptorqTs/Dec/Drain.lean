import RaptorqTs.Dec.Pool

/-!
# How long the drain loop runs

Whatever the clock says during the loop, it stops behind `highest_seen`, and `highest_seen` is
less than half an SBN period ahead of the cursor. So a frame moves the cursor by 128 blocks at
most, whatever its SBN.
-/

namespace RaptorqTs

variable {D : Type} {env : Env D}

/-! ## The lead of `highest_seen` -/

/-- The end of the input: the cursor does not go back. -/
lemma foldl_flushKey_cursor {keys : List ℕ} {w : Window D} {cursor : ℕ}
    (hkeys : ∀ k ∈ keys, cursor ≤ k) (hw : cursor ≤ w.cursor) :
    cursor ≤ (keys.foldl flushKey w).cursor ∧
      (keys.foldl flushKey w).highestSeen = w.highestSeen := by
  induction keys generalizing w with
  | nil => exact ⟨hw, rfl⟩
  | cons k keys ih =>
    have hk := hkeys k List.mem_cons_self
    have hstep : cursor ≤ (flushKey w k).cursor ∧ (flushKey w k).highestSeen = w.highestSeen := by
      cases hb : w.pool[k]? with
      | some b =>
        rw [flushKey_of_mem hb]
        exact ⟨Nat.le_succ_of_le hk, rfl⟩
      | none =>
        simp only [flushKey, hb, catchUp_eq]
        exact ⟨hw.trans (Nat.le_max_left _ _), trivial⟩
    obtain ⟨hcursor, hhighest⟩ := ih (fun j hj => hkeys j (List.mem_cons_of_mem k hj)) hstep.1
    exact ⟨hcursor, hhighest.trans hstep.2⟩

lemma Window.Wf.flushRemaining_lead {w : Window D} (h : w.Wf) :
    w.cursor ≤ (flushRemaining w).cursor ∧
      (flushRemaining w).highestSeen = w.highestSeen := by
  refine foldl_flushKey_cursor (fun k hk => ?_) (Nat.le_refl _)
  obtain ⟨b, hb⟩ := BTreeMap.mem_keys.mp hk
  exact h.cursor_le_key hb

/-- A frame is routed less than half a period ahead. -/
lemma Window.hold_lead {w : Window D} (sbnU8 : UInt8) (b : BlockState D)
    (h : w.highestSeen ≤ w.cursor + 127) :
    ((w.joined sbnU8).hold (w.route sbnU8) b).highestSeen ≤ (w.joined sbnU8).cursor + 127 := by
  rw [Window.hold_highestSeen]
  cases hstarted : w.started with
  | false =>
    rw [Window.joined_of_idle hstarted, Window.route_of_idle hstarted]
    show max sbnU8.toNat sbnU8.toNat ≤ sbnU8.toNat + 127
    omega
  | true =>
    have hnear := (unwrapSbn_near w.cursor sbnU8).2
    rw [Window.joined_of_started hstarted, Window.route_of_started hstarted]
    omega

/-- **The lead.** `highest_seen` is never more than 127 blocks ahead of the cursor. -/
theorem Reachable.highestSeen_le {c : Conf D} (h : Reachable env c) :
    c.window.highestSeen ≤ c.window.cursor + 127 := by
  have hP : (c.point ≠ .closed → c.window.Wf) ∧ c.window.highestSeen ≤ c.window.cursor + 127 := by
    refine Reachable.window_induction (P := fun p w =>
      (p ≠ .closed → w.Wf) ∧ w.highestSeen ≤ w.cursor + 127)
      ⟨fun _ => Window.Wf.init, Nat.zero_le _⟩ ?_ h
    rintro p w a p' w' ⟨hwf, hlead⟩ hm
    cases hm with
    | drop _ => exact ⟨hwf, hlead⟩
    | ignore _ | settle _ => exact ⟨fun _ => hwf (by decide), hlead⟩
    | accept _ hred _ => exact ⟨fun _ => (hwf (by decide)).accept hred, Window.hold_lead _ _ hlead⟩
    | advance hmay =>
      have hw := hwf (by decide)
      refine ⟨fun _ => hw.advance (hw.started_of_mayAdvance hmay), ?_⟩
      rw [Window.advance_highestSeen, Window.advance_cursor]
      omega
    | flush =>
      obtain ⟨hcursor, hhighest⟩ := (hwf (by decide)).flushRemaining_lead
      refine ⟨fun h => absurd rfl h, ?_⟩
      rw [hhighest]
      omega
  exact hP.2

/-! ## The drain loop -/

/-- The first `n` passes of the drain loop, each with its own clock readings. -/
def passes (clks : ℕ → Clock) (n : ℕ) : List Action := (List.range n).map fun i => .pass (clks i)

lemma passes_succ (clks : ℕ → Clock) (n : ℕ) :
    passes clks (n + 1) = .pass (clks 0) :: passes (fun i => clks (i + 1)) n := by
  unfold passes
  rw [List.range_succ_eq_map, List.map_cons, List.map_map]
  rfl

/-- At the tests that the loop makes, the sum of cursor and window size fits in a `u64`. -/
def SumsFit (env : Env D) (clks : ℕ → Clock) (c : Conf D) : Prop :=
  ∀ n c', Machine.run (step env) c (passes clks n) = some c' →
    c'.window.cursor + env.maxInFlight < 2 ^ 64

lemma SumsFit.next {clks : ℕ → Clock} {c c' : Conf D} (h : SumsFit env clks c)
    (hstep : step env c (.pass (clks 0)) = some c') :
    SumsFit env (fun i => clks (i + 1)) c' := by
  intro n c'' hrun
  refine h (n + 1) c'' ?_
  rw [passes_succ]
  exact Machine.run_cons_eq_some.mpr ⟨c', hstep, hrun⟩

/-- It is enough that the window's end fits for the last cursor the loop can reach. -/
lemma SumsFit.of_highestSeen {clks : ℕ → Clock} {c : Conf D} (h : c.window.Wf)
    (hle : c.window.cursor ≤ c.window.highestSeen + 1)
    (hfit : c.window.highestSeen + 1 + env.maxInFlight < 2 ^ 64) : SumsFit env clks c := by
  intro n
  induction n generalizing c clks with
  | zero =>
    intro c' hrun
    obtain rfl : c = c' := Option.some.inj hrun
    omega
  | succ n ih =>
    intro c' hrun
    rw [passes_succ] at hrun
    obtain ⟨m, hstep, hrest⟩ := Machine.run_cons_eq_some.mp hrun
    rcases (step_pass hstep).2 with ⟨hmay, -, hw⟩ | ⟨-, -, hw⟩
    · have hcursor := h.cursor_le_of_mayAdvance (by omega) hmay
      refine ih ?_ ?_ ?_ c' hrest
      · rw [hw]
        exact h.advance (h.started_of_mayAdvance hmay)
      · rw [hw, Window.advance_cursor, Window.advance_highestSeen]
        omega
      · rw [hw, Window.advance_highestSeen]
        exact hfit
    · exact ih (by rw [hw]; exact h) (by rw [hw]; exact hle) (by rw [hw]; exact hfit) c' hrest

/-- **The drain loop ends.** Each block it writes uses up one of those up to `highest_seen`. -/
theorem Window.Wf.drain_ends {clks : ℕ → Clock} {c : Conf D} (h : c.window.Wf)
    (hdrain : c.point = .drain) (hfit : SumsFit env clks c) :
    ∃ n c', n ≤ c.window.highestSeen + 1 - c.window.cursor ∧
      Machine.run (step env) c (passes clks (n + 1)) = some c' ∧ c'.point = .recv ∧
      c'.window = c.window.advanceN n := by
  induction hm : c.window.highestSeen + 1 - c.window.cursor generalizing c clks with
  | zero =>
    obtain ⟨c', hc'⟩ := exists_step_pass hdrain (clks 0)
    rcases (step_pass hc').2 with ⟨hmay, -⟩ | ⟨-, hrecv, hw⟩
    · have hle := h.cursor_le_of_mayAdvance (hfit 0 c rfl) hmay
      omega
    · exact ⟨0, c', Nat.le_refl _, Machine.run_cons_eq_some.mpr ⟨c', hc', rfl⟩, hrecv, hw⟩
  | succ m ih =>
    obtain ⟨c', hc'⟩ := exists_step_pass hdrain (clks 0)
    rcases (step_pass hc').2 with ⟨hmay, hdrain', hw⟩ | ⟨-, hrecv, hw⟩
    · have hwf' : c'.window.Wf := by
        rw [hw]
        exact h.advance (h.started_of_mayAdvance hmay)
      have hm' : c'.window.highestSeen + 1 - c'.window.cursor = m := by
        rw [hw, Window.advance_highestSeen, Window.advance_cursor]
        omega
      obtain ⟨n, c'', hn, hrun, hrecv, hw'⟩ := ih hwf' hdrain' (hfit.next hc') hm'
      refine ⟨n + 1, c'', by omega, ?_, hrecv, ?_⟩
      · rw [passes_succ]
        exact Machine.run_cons_eq_some.mpr ⟨c', hc', hrun⟩
      · rw [hw', hw, Window.advance_advanceN]
    · exact ⟨0, c', Nat.zero_le _, Machine.run_cons_eq_some.mpr ⟨c', hc', rfl⟩, hrecv, hw⟩

/-! ## The effect of one frame -/

/-- Before the first accepted frame, too. -/
lemma Reachable.cursor_le_succ {c : Conf D} (h : Reachable env c) (hopen : c.point ≠ .closed)
    (hfit : c.window.cursor + env.maxInFlight < 2 ^ 64) :
    c.window.cursor ≤ c.window.highestSeen + 1 := by
  cases hstarted : c.window.started with
  | true => exact h.cursor_le hopen hfit hstarted
  | false =>
    rw [(h.wf hopen).idle hstarted]
    exact Nat.zero_le _

lemma length_stdout_advanceN (w : Window D) (n : ℕ) :
    (w.advanceN n).stdout.length = w.stdout.length + n := by
  rw [Window.advanceN_stdout, List.length_append, List.length_map, List.length_range']

/-- Nothing is written while an event is handled. -/
lemma step_event_stdout {c c' : Conf D} {now : Instant} {ev : Event}
    (h : step env c (.event now ev) = some c') :
    c'.window.stdout = c.window.stdout ∧ (c'.point = .recv ∨ c'.point = .drain) := by
  have hm := step_moves h
  generalize c.point = p, c.window = w, c'.point = p', c'.window = w' at hm
  cases hm with
  | drop _ => exact ⟨rfl, Or.inl rfl⟩
  | ignore _ => exact ⟨rfl, Or.inr rfl⟩
  | accept _ _ _ =>
    refine ⟨?_, Or.inr rfl⟩
    rw [Window.hold_stdout, Window.joined_stdout]

/-- **The effect of one frame.** The lead of `highest_seen` is an invariant. Wherever the drain
loop is, and whatever the clock says in it, it ends after as many blocks as `highest_seen` is
ahead, so that no frame makes it write more than 128 or go on behind `highest_seen`. -/
theorem drain_loop_bounded {c : Conf D} (h : Reachable env c) :
    c.window.highestSeen ≤ c.window.cursor + 127 ∧
    (∀ clks, c.point = .drain → SumsFit env clks c →
      ∃ n c', n ≤ c.window.highestSeen + 1 - c.window.cursor ∧
        Machine.run (step env) c (passes clks (n + 1)) = some c' ∧ c'.point = .recv ∧
        c'.window.stdout.length = c.window.stdout.length + n ∧
        c'.window.cursor = c.window.cursor + n ∧
        c'.window.highestSeen = c.window.highestSeen) ∧
    ∀ now ev c₁ clks, step env c (.event now ev) = some c₁ → SumsFit env clks c₁ →
      ∃ p n c₂, Machine.run (step env) c₁ (passes clks p) = some c₂ ∧ c₂.point = .recv ∧
        n ≤ 128 ∧ c₂.window.stdout.length = c.window.stdout.length + n ∧
        c₂.window.cursor = c₁.window.cursor + n ∧
        c₂.window.cursor ≤ c₂.window.highestSeen + 1 := by
  refine ⟨h.highestSeen_le, ?_, ?_⟩
  · intro clks hdrain hfit
    obtain ⟨n, c', hn, hrun, hrecv, hw⟩ := (h.wf (by rw [hdrain]; decide)).drain_ends hdrain hfit
    refine ⟨n, c', hn, hrun, hrecv, ?_, ?_, ?_⟩
    · rw [hw, length_stdout_advanceN]
    · rw [hw, Window.advanceN_cursor]
    · rw [hw, Window.advanceN_highestSeen]
  · intro now ev c₁ clks hstep hfit
    obtain ⟨hstdout, hrecv | hdrain⟩ := step_event_stdout hstep
    · -- the frame is dropped
      exact ⟨0, 0, c₁, rfl, hrecv, Nat.zero_le _, by rw [hstdout]; rfl, rfl,
        (h.next hstep).cursor_le_succ (by rw [hrecv]; decide) (hfit 0 c₁ rfl)⟩
    · have hreach := h.next hstep
      have hlead := hreach.highestSeen_le
      obtain ⟨n, c₂, hn, hrun, hrecv, hw⟩ :=
        (hreach.wf (by rw [hdrain]; decide)).drain_ends hdrain hfit
      refine ⟨n + 1, n, c₂, hrun, hrecv, by omega, ?_, ?_, ?_⟩
      · rw [hw, length_stdout_advanceN, hstdout]
      · rw [hw, Window.advanceN_cursor]
      · exact (hreach.run hrun).cursor_le_succ (by rw [hrecv]; decide) (hfit _ c₂ hrun)

/-- A frame with a corrupt SBN, 127 blocks ahead of the only one in the window. -/
theorem drain_loop_bounded_corrupt : ∃ c : Conf Reference.Decoder,
    Reachable (Reference.env 8) c ∧ c.window.cursor = 0 ∧ c.window.highestSeen = 127 ∧
      ∃ n c', n ≤ 128 ∧
        Machine.run (step (Reference.env 8)) c (passes (fun _ => Clock.at 0) (n + 1)) = some c' ∧
        c'.point = .recv := by
  have hrun : (runFrom (Reference.env 8) 0 [.event 0 (Reference.frame 2 0 0 (Reference.flat 1)),
      .pass (Clock.at 0), .event 0 (Reference.frame 2 127 0 (Reference.flat 2))]).map
      (fun c => (c.point, c.window.cursor, c.window.highestSeen)) = some (.drain, 0, 127) := by
    decide +kernel
  obtain ⟨c, hc, hobs⟩ := exists_of_run_map hrun
  simp only [Prod.mk.injEq] at hobs
  obtain ⟨hdrain, hcursor, hhighest⟩ := hobs
  have hreach : Reachable (Reference.env 8) c := ⟨0, _, hc⟩
  have hfit : SumsFit (Reference.env 8) (fun _ => Clock.at 0) c :=
    .of_highestSeen (hreach.wf (by rw [hdrain]; decide)) (by omega)
      (by rw [hhighest]; decide)
  obtain ⟨n, c', hn, hpasses, hrecv, -⟩ := (drain_loop_bounded hreach).2.1 _ hdrain hfit
  exact ⟨c, hreach, hcursor, hhighest, n, c', by omega, hpasses, hrecv⟩

end RaptorqTs
