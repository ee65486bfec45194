import RaptorqTs.Dec.Pool

/-!
# Timeouts

When the outer loop goes back to `recv_timeout`, the drain loop has usually seen to it that
the head of the window is neither completed nor expired. Two things get in the way. A data
frame that is dropped skips the drain loop, and the drain loop looks no further than the
head: a block whose head never arrived waits for the window to force it out.
-/

namespace RaptorqTs

variable {D : Type} {env : Env D}

/-! ## Handling an event -/

/-- The drain loop runs from `c` at the clock time `t`, and the outer loop is back in `c'`. -/
def Drained (env : Env D) (t : Instant) (c c' : Conf D) : Prop :=
  ∃ n, Machine.run (step env) c (List.replicate n (.pass (Clock.at t))) = some c' ∧
    c'.point = .recv

/-- An event is handled at the clock time `t`. -/
def Handled (env : Env D) (t : Instant) (ev : Event) (c c' : Conf D) : Prop :=
  ∃ m, step env c (.event t ev) = some m ∧ Drained env t m c'

/-- A run of events is handled, each at its own time. -/
def HandledAll (env : Env D) : Conf D → List (Instant × Event) → Conf D → Prop
  | c, [], c' => c' = c
  | c, (t, ev) :: evs, c' => ∃ m, Handled env t ev c m ∧ HandledAll env m evs c'

lemma Reachable.drained {t : Instant} {c c' : Conf D} (h : Reachable env c)
    (hd : Drained env t c c') : Reachable env c' ∧ c'.point = .recv := by
  obtain ⟨n, hrun, hrecv⟩ := hd
  exact ⟨h.run hrun, hrecv⟩

lemma Reachable.handledAll {evs : List (Instant × Event)} {c c' : Conf D} (h : Reachable env c)
    (hrecv : c.point = .recv) (hall : HandledAll env c evs c') :
    Reachable env c' ∧ c'.point = .recv := by
  induction evs generalizing c with
  | nil =>
    obtain rfl : c' = c := hall
    exact ⟨h, hrecv⟩
  | cons e evs ih =>
    obtain ⟨m, ⟨m₀, hstep, hd⟩, hall⟩ := hall
    obtain ⟨hm, hpoint⟩ := (h.next hstep).drained hd
    exact ih hm hpoint hall

/-! ## The drain loop -/

/-- Back at the head of the outer loop no pass is enabled. -/
lemma drained_of_recv {t : Instant} {c c' : Conf D} (hrecv : c.point = .recv)
    (hd : Drained env t c c') : c' = c := by
  obtain ⟨n, hrun, -⟩ := hd
  cases n with
  | zero => exact (Option.some.inj hrun).symm
  | succ n =>
    obtain ⟨m, hstep, -⟩ := Machine.run_cons_eq_some.mp hrun
    have hdrain := (step_pass hstep).1
    rw [hrecv] at hdrain
    cases hdrain

/-- **What the drain loop does** at the time `t`: it takes heads off the window as long as a
guard holds, and stops when none does. -/
theorem drained_spec {t : Instant} {c c' : Conf D} (hdrain : c.point = .drain)
    (hd : Drained env t c c') : ∃ j, c'.window = c.window.advanceN j ∧
      (∀ i < j, mayAdvance env t (c.window.advanceN i) = true) ∧
      mayAdvance env t c'.window = false := by
  obtain ⟨n, hrun, hrecv⟩ := hd
  induction n generalizing c with
  | zero =>
    obtain rfl : c = c' := Option.some.inj hrun
    rw [hdrain] at hrecv
    cases hrecv
  | succ n ih =>
    obtain ⟨m, hstep, hrest⟩ := Machine.run_cons_eq_some.mp hrun
    -- the first pass advances the window or ends the loop
    rcases (step_pass hstep).2 with ⟨hmay, hpoint, hw⟩ | ⟨hmay, hpoint, hw⟩
    · obtain ⟨j, hj, hpasses, hend⟩ := ih hpoint hrest
      rw [hw] at hj hpasses
      refine ⟨j + 1, by rw [hj, Window.advance_advanceN], fun i hi => ?_, hend⟩
      cases i with
      | zero => exact hmay
      | succ i =>
        rw [← Window.advance_advanceN]
        exact hpasses i (by omega)
    · obtain rfl := drained_of_recv hpoint ⟨n, hrest, hrecv⟩
      exact ⟨0, hw, fun i hi => absurd hi (by omega), by rw [hw]; exact hmay⟩

/-! ## The head -/

/-- The head, if it is in the pool, is neither completed nor expired. -/
def HeadFresh (env : Env D) (t : Instant) (w : Window D) : Prop :=
  ∀ b, w.pool[w.cursor]? = some b → b.completed = none ∧ elapsed t b.firstSeen < env.timeout

/-- The head is in the pool and expired. -/
def HeadExpired (env : Env D) (t : Instant) (w : Window D) : Prop :=
  ∃ b, w.pool[w.cursor]? = some b ∧ env.timeout ≤ elapsed t b.firstSeen

lemma headFresh_of_mayAdvance {t : Instant} {w : Window D} (h : mayAdvance env t w = false) :
    HeadFresh env t w := by
  intro b hb
  simp only [mayAdvance, hb, Bool.or_eq_false_iff, decide_eq_false_iff_not] at h
  exact ⟨by simpa using h.1.1, by omega⟩

/-- In a settled window only expiry is left to go wrong. -/
lemma Settled.headFresh_iff {t : Instant} {w : Window D} (h : Settled env w) :
    HeadFresh env t w ↔ ¬ HeadExpired env t w := by
  constructor
  · rintro hfresh ⟨b, hb, hexp⟩
    have := (hfresh b hb).2
    omega
  · intro hexp b hb
    refine ⟨h.head_open hb, ?_⟩
    by_contra hge
    exact hexp ⟨b, hb, by omega⟩

/-- One event, handled at `t`. -/
lemma Handled.headFresh_iff {t : Instant} {ev : Event} {c c' : Conf D} (h : Reachable env c)
    (hrecv : c.point = .recv) (hh : Handled env t ev c c') :
    HeadFresh env t c'.window ↔
      ¬ (dropped env c.window ev = true ∧ HeadExpired env t c.window) := by
  obtain ⟨m, hstep, hd⟩ := hh
  rcases step_event hstep with ⟨hdrop, hpoint, hw⟩ | ⟨hkeep, hpoint⟩
  · obtain rfl := drained_of_recv hpoint hd
    rw [hw, (h.settled hrecv).headFresh_iff]
    simp [hdrop]
  · obtain ⟨j, -, -, hend⟩ := drained_spec hpoint hd
    simp only [hkeep, Bool.false_eq_true, false_and, not_false_eq_true, iff_true]
    exact headFresh_of_mayAdvance hend

/-- **The timeout of the head.** Over a run of events, each handled at its own time, the head
is neither completed nor expired whenever the outer loop is back at `recv_timeout`, exactly
when no data frame is dropped while the head is expired. -/
theorem timeout_honoured_iff {c : Conf D} (h : Reachable env c) (hrecv : c.point = .recv)
    (evs : List (Instant × Event)) :
    (∀ pre t ev post m m', evs = pre ++ (t, ev) :: post → HandledAll env c pre m →
        Handled env t ev m m' → HeadFresh env t m'.window) ↔
      ∀ pre t ev post m, evs = pre ++ (t, ev) :: post → HandledAll env c pre m →
        dropped env m.window ev = true → ¬ HeadExpired env t m.window := by
  constructor
  · intro hfresh pre t ev post m hcut hm hdrop hexp
    obtain ⟨hreach, hpoint⟩ := h.handledAll hrecv hm
    -- the dropped frame is handled at once
    obtain ⟨m', hstep, hpoint', hw⟩ := exists_step_of_dropped t hpoint hdrop
    have hh : Handled env t ev m m' := ⟨m', hstep, 0, rfl, hpoint'⟩
    exact (hh.headFresh_iff hreach hpoint).mp (hfresh pre t ev post m m' hcut hm hh) ⟨hdrop, hexp⟩
  · intro hcond pre t ev post m m' hcut hm hh
    obtain ⟨hreach, hpoint⟩ := h.handledAll hrecv hm
    refine (hh.headFresh_iff hreach hpoint).mpr ?_
    rintro ⟨hdrop, hexp⟩
    exact hcond pre t ev post m hcut hm hdrop hexp

/-- A block of two symbols is opened at time 0. -/
def opened : List Action :=
  [.event 0 (Reference.frame 2 0 0 (Reference.flat 1)), .pass (Clock.at 0)]

/-- The second packet of block 0 completes it, and nothing is left at the head. -/
theorem timeout_honoured_completed : ∃ c m : Conf Reference.Decoder,
    Handled (Reference.env 8) 5 (Reference.frame 2 0 1 (Reference.flat 2)) c m ∧
      HeadFresh (Reference.env 8) 5 m.window := by
  have hrun : (runFrom (Reference.env 8) 0 opened).map (fun c => (c.point,
      dropped (Reference.env 8) c.window (Reference.frame 2 0 1 (Reference.flat 2)),
      (Machine.run (step (Reference.env 8)) c
        [.event 5 (Reference.frame 2 0 1 (Reference.flat 2)), .pass (Clock.at 5),
          .pass (Clock.at 5)]).map (·.point))) = some (.recv, false, some .recv) := by
    decide +kernel
  obtain ⟨c, hc, hobs⟩ := exists_of_run_map hrun
  simp only [Prod.mk.injEq] at hobs
  obtain ⟨hrecv, hdrop, hobs⟩ := hobs
  obtain ⟨m', hm', hpoint⟩ := Option.map_eq_some_iff.mp hobs
  obtain ⟨m, hstep, hpasses⟩ := Machine.run_cons_eq_some.mp hm'
  have hh : Handled (Reference.env 8) 5 (Reference.frame 2 0 1 (Reference.flat 2)) c m' :=
    ⟨m, hstep, 2, hpasses, hpoint⟩
  refine ⟨c, m', hh, (timeout_honoured_iff ⟨0, _, hc⟩ hrecv
    [(5, Reference.frame 2 0 1 (Reference.flat 2))]).mpr ?_ [] _ _ [] c m' rfl rfl hh⟩
  intro pre t ev post m₁ hcut hm₁ hdrop₁
  -- the only event is not dropped
  cases pre with
  | nil =>
    simp only [List.nil_append, List.cons.injEq, Prod.mk.injEq] at hcut
    obtain ⟨⟨rfl, rfl⟩, -⟩ := hcut
    obtain rfl : m₁ = c := hm₁
    rw [hdrop] at hdrop₁
    cases hdrop₁
  | cons e pre => simp at hcut

/-- An OTI with the wrong symbol size. -/
def insaneOti : ObjectTransmissionInformation := ⟨2 * symbolSize, 1, 1, 1, 1⟩

/-- After the timeout of block 0, at 700 ms, a frame with an insane OTI is handled, and the
expired block stays at the head. -/
theorem timeout_honoured_dropped : ∃ c m : Conf Reference.Decoder,
    Reachable (Reference.env 8) c ∧ c.point = .recv ∧
      Handled (Reference.env 8) 700000000
        (Reference.otiFrame insaneOti 0 1 (Reference.flat 2)) c m ∧
      ¬ HeadFresh (Reference.env 8) 700000000 m.window := by
  have hrun : (runFrom (Reference.env 8) 0 opened).map (fun c => (c.point,
      dropped (Reference.env 8) c.window (Reference.otiFrame insaneOti 0 1 (Reference.flat 2)),
      c.window.pool[c.window.cursor]?.map (·.firstSeen))) = some (.recv, true, some 0) := by
    decide +kernel
  obtain ⟨c, hc, hobs⟩ := exists_of_run_map hrun
  simp only [Prod.mk.injEq] at hobs
  obtain ⟨hrecv, hdrop, hobs⟩ := hobs
  obtain ⟨b, hb, hseen⟩ := Option.map_eq_some_iff.mp hobs
  obtain ⟨m, hstep, hpoint, hw⟩ := exists_step_of_dropped 700000000 hrecv hdrop
  refine ⟨c, m, ⟨0, _, hc⟩, hrecv, ⟨m, hstep, 0, rfl, hpoint⟩, fun hfresh => ?_⟩
  rw [hw] at hfresh
  have hlt := (hfresh b hb).2
  rw [hseen] at hlt
  revert hlt
  decide

/-! ## The blocks behind the head -/

/-- The drain loop does not stop at index `i`: the block is completed or expired, or the
window has moved on by `max_in_flight`. -/
def Unblocked (env : Env D) (t : Instant) (w : Window D) (i : ℕ) : Prop :=
  (∃ b, w.pool[i]? = some b ∧
      (b.completed.isSome = true ∨ env.timeout ≤ elapsed t b.firstSeen)) ∨
    wrappingAdd i env.maxInFlight ≤ w.highestSeen

/-- As long as a later block is held, the guards at index `i` can be read off the window
before the drain loop started. -/
lemma Window.Wf.mayAdvance_advanceN {w : Window D} (h : w.Wf) {t : Instant} {k n : ℕ}
    (hk : k ∈ w.pool) (hn : w.cursor + n ≤ k) :
    mayAdvance env t (w.advanceN n) = true ↔ Unblocked env t w (w.cursor + n) := by
  obtain ⟨b, hb⟩ := BTreeMap.mem_iff.mp hk
  have hstarted := h.started_of_get hb
  have hkh := h.key_le_highest hb
  obtain ⟨bh, hbh⟩ := h.highest_mem hstarted (by omega)
  -- the largest key of the pool is `highest_seen` throughout
  have hforce : shouldForce env (w.advanceN n) =
      decide (wrappingAdd (w.cursor + n) env.maxInFlight ≤ w.highestSeen) := by
    have hlast : (w.advanceN n).pool.keys.getLast? = some w.highestSeen := by
      refine BTreeMap.getLast?_keys_eq_some.mpr ⟨⟨bh, ?_⟩, fun j bj hj => ?_⟩
      · rw [Window.get_advanceN, if_neg (by omega), hbh]
      · rw [Window.get_advanceN] at hj
        split at hj
        · cases hj
        · exact h.key_le_highest hj
    simp only [shouldForce, hlast, Window.advanceN_cursor]
  have hhead : (w.advanceN n).pool[(w.advanceN n).cursor]? = w.pool[w.cursor + n]? := by
    rw [Window.advanceN_cursor, Window.get_advanceN, if_neg (by omega)]
  unfold mayAdvance Unblocked
  rw [hhead]
  cases w.pool[w.cursor + n]? with
  | some b => simp [hforce, or_assoc]
  | none => simp [zeroGuard, hforce, hstarted]

/-- **The timeout behind a gap.** After the drain loop has run at the time `t`, no block in the
pool is expired exactly when, before it, every index ahead of an expired block was
completed, expired, or forced out by the window. -/
theorem no_block_waits_iff {t : Instant} {c c' : Conf D} (h : Reachable env c)
    (hdrain : c.point = .drain) (hd : Drained env t c c') :
    (∀ (k : ℕ) b, c'.window.pool[k]? = some b → elapsed t b.firstSeen < env.timeout) ↔
      ∀ (k : ℕ) b, c.window.pool[k]? = some b → env.timeout ≤ elapsed t b.firstSeen →
        ∀ i, c.window.cursor ≤ i → i < k → Unblocked env t c.window i := by
  have hwf := h.wf (by rw [hdrain]; decide)
  obtain ⟨j, hw, hpasses, hend⟩ := drained_spec hdrain hd
  constructor
  · intro hfresh k b hb hexp i hi hik
    -- the expired block has left, and so the drain loop has passed `i`
    have hgone : c'.window.pool[k]? = none := by
      cases hb' : c'.window.pool[k]? with
      | none => rfl
      | some b' =>
        have hlt := hfresh k b' hb'
        rw [hw, Window.get_advanceN] at hb'
        split at hb'
        · cases hb'
        · rw [hb, Option.some.injEq] at hb'
          subst hb'
          omega
    rw [hw, Window.get_advanceN] at hgone
    have hkj : c.window.cursor ≤ k ∧ k < c.window.cursor + j := by
      by_contra hout
      rw [if_neg hout, hb] at hgone
      cases hgone
    obtain ⟨n, rfl⟩ := Nat.exists_eq_add_of_le hi
    exact (hwf.mayAdvance_advanceN (BTreeMap.mem_iff.mpr ⟨b, hb⟩) (by omega)).mp
      (hpasses n (by omega))
  · intro hcond k b hb
    by_contra hexp
    have hexp : env.timeout ≤ elapsed t b.firstSeen := by omega
    -- an expired block that is left is behind the head at which the loop stopped
    rw [hw, Window.get_advanceN] at hb
    split at hb
    · cases hb
    · rename_i hout
      have hck := hwf.cursor_le_key hb
      have hunblocked : Unblocked env t c.window (c.window.cursor + j) := by
        by_cases hhead : c.window.cursor + j = k
        · exact Or.inl ⟨b, by rw [hhead, hb], Or.inr hexp⟩
        · exact hcond k b hb hexp _ (by omega) (by omega)
      rw [hw, (hwf.mayAdvance_advanceN (BTreeMap.mem_iff.mpr ⟨b, hb⟩) (by omega)).mpr
        hunblocked] at hend
      cases hend

/-- At time 0, a packet of block 0, block 1 whole and a packet of block 2 arrive, and the first
packet of block 3 at `t`. -/
def behindOpen (t : Instant) : List Action :=
  [.event 0 (Reference.frame 2 0 0 (Reference.flat 1)), .pass (Clock.at 0),
    .event 0 (Reference.frame 1 1 0 (Reference.flat 2)), .pass (Clock.at 0),
    .event 0 (Reference.frame 2 2 1 (Reference.flat 3)), .pass (Clock.at 0),
    .event t (Reference.frame 2 3 0 (Reference.flat 4))]

/-- When the timeout has passed, blocks 0, 1 and 2 leave one behind the other, and block 3
stays. -/
theorem no_block_waits_expired : ∃ c c' : Conf Reference.Decoder,
    Drained (Reference.env 8) 700000000 c c' ∧ c.window.pool.keys = [0, 1, 2, 3] ∧
      (∀ k < 3, HeadExpired (Reference.env 8) 700000000 (c.window.advanceN k)) ∧
      c'.window.pool.keys = [3] ∧
      ∀ (k : ℕ) b, c'.window.pool[k]? = some b →
        elapsed 700000000 b.firstSeen < (Reference.env 8).timeout := by
  have hrun : (runFrom (Reference.env 8) 0 (behindOpen 700000000)).map (fun c => (c.point,
      c.window.cursor, c.window.pool.keys,
      [0, 1, 2].map fun k => c.window.pool[k]?.map (·.firstSeen)))
        = some (.drain, 0, [0, 1, 2, 3], [some 0, some 0, some 0]) := by
    decide +kernel
  have hdrained : (runFrom (Reference.env 8) 0 (behindOpen 700000000)).map (fun c =>
      (Machine.run (step (Reference.env 8)) c
        (List.replicate 4 (.pass (Clock.at 700000000)))).map fun c' =>
          (c'.point, c'.window.pool.keys)) = some (some (.recv, [3])) := by
    decide +kernel
  obtain ⟨c, hc, hobs⟩ := exists_of_run_map hrun
  simp only [List.map_cons, List.map_nil, List.cons.injEq, Prod.mk.injEq] at hobs
  obtain ⟨hdrain, hcursor, hkeys, hseen₀, hseen₁, hseen₂, -⟩ := hobs
  rw [show runFrom (Reference.env 8) 0 (behindOpen 700000000) = some c from hc, Option.map_some,
    Option.some.injEq] at hdrained
  obtain ⟨c', hc', hobs⟩ := Option.map_eq_some_iff.mp hdrained
  obtain ⟨hrecv, hkeys'⟩ := Prod.mk.inj hobs
  have hd : Drained (Reference.env 8) 700000000 c c' := ⟨4, hc', hrecv⟩
  -- all of the first three blocks have been there since time 0
  have hopen : ∀ k < 3, ∃ b, c.window.pool[k]? = some b ∧
      (Reference.env 8).timeout ≤ elapsed 700000000 b.firstSeen := by
    intro k hk
    have hseen : c.window.pool[k]?.map (·.firstSeen) = some 0 := by
      interval_cases k
      · exact hseen₀
      · exact hseen₁
      · exact hseen₂
    obtain ⟨b, hb, hzero⟩ := Option.map_eq_some_iff.mp hseen
    refine ⟨b, hb, ?_⟩
    rw [hzero]
    decide
  refine ⟨c, c', hd, hkeys, fun k hk => ?_, hkeys',
    (no_block_waits_iff ⟨0, _, hc⟩ hdrain hd).mpr ?_⟩
  · obtain ⟨b, hb, hexp⟩ := hopen k hk
    refine ⟨b, ?_, hexp⟩
    rw [Window.advanceN_cursor, Window.get_advanceN, hcursor, if_neg (by omega), Nat.zero_add, hb]
  · intro k b hb _ i _ hik
    have hk : k ∈ [0, 1, 2, 3] := hkeys ▸ BTreeMap.mem_keys.mpr ⟨b, hb⟩
    have hi : i < 3 := by
      simp only [List.mem_cons, List.not_mem_nil, or_false] at hk
      omega
    obtain ⟨b', hb', hexp⟩ := hopen i hi
    exact Or.inl ⟨b', hb', Or.inr hexp⟩

/-- Block 0 is emitted, block 1 is lost, and block 2 is completed at time 0. -/
def behindGap (t : Instant) : List Action :=
  [.event 0 (Reference.frame 1 0 0 (Reference.flat 1)), .pass (Clock.at 0), .pass (Clock.at 0),
    .event 0 (Reference.frame 1 2 0 (Reference.flat 2)), .pass (Clock.at 0), .event t .tick]

/-- An hour later, block 2 still waits for block 1. -/
theorem no_block_waits_behind_gap : ∃ c c' : Conf Reference.Decoder,
    Reachable (Reference.env 8) c ∧ c.point = .drain ∧
      Drained (Reference.env 8) 3600000000000 c c' ∧
      ∃ b, c'.window.pool[2]? = some b ∧ b.completed.isSome = true ∧
        (Reference.env 8).timeout ≤ elapsed 3600000000000 b.firstSeen := by
  have hrun : (runFrom (Reference.env 8) 0 (behindGap 3600000000000)).map (fun c => (c.point,
      (Machine.run (step (Reference.env 8)) c [.pass (Clock.at 3600000000000)]).map fun c' =>
        (c'.point, c'.window.pool[2]?.map fun b => (b.completed.isSome, b.firstSeen))))
        = some (.drain, some (.recv, some (true, 0))) := by
    decide +kernel
  obtain ⟨c, hc, hobs⟩ := exists_of_run_map hrun
  simp only [Prod.mk.injEq] at hobs
  obtain ⟨c', hc', hobs'⟩ := Option.map_eq_some_iff.mp hobs.2
  simp only [Prod.mk.injEq] at hobs'
  obtain ⟨b, hb, hbobs⟩ := Option.map_eq_some_iff.mp hobs'.2
  simp only [Prod.mk.injEq] at hbobs
  refine ⟨c, c', ⟨0, _, hc⟩, hobs.1, ⟨1, hc', hobs'.1⟩, b, hb, hbobs.1, ?_⟩
  rw [hbobs.2]
  decide

end RaptorqTs
