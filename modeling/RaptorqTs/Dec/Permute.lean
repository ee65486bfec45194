import RaptorqTs.Dec.Playout

/-!
# Order and duplication inside a block

Runs fed with genuine packets, in which no block times out, do what the player does. So the
output depends on the packets of each stretch of one block as a set only.
-/

namespace RaptorqTs

variable {D : Type} {env : Env D} {S : Stream} {j : ℕ}

/-! ## Runs without timeouts on genuine packets -/

/-- The origin of the data frame that an action delivers. -/
def heardOf (env : Env D) : TaggedAction → Option Origin
  | (.event _ ev, tag) => if (dataFrame env ev).isSome then tag else none
  | _ => none

/-- The origins of the data frames delivered in a run, accepted or not. -/
def heardOrigins (env : Env D) (xs : List TaggedAction) : List Origin :=
  xs.filterMap (heardOf env)

/-- A run on genuine packets in reach, in which no block reaches the timeout and the end of the
window can be computed. -/
structure OrderlyRun (env : Env D) (S : Stream) (j : ℕ) (now : Instant) (xs : List TaggedAction)
    (c : Conf D) : Prop where
  run_eq : Machine.run (taggedStep env) (init now) xs = some c
  genuine : GenuineRun env S j now xs
  esi_lt : ∀ o ∈ heardOrigins env xs, o.esi < 2 ^ 24
  fresh : Machine.EachStep (taggedStep env) (init now) (fun c x => Fresh env c.window x.1) xs
  fits : Machine.EachStep (taggedStep env) (init now)
    (fun c _ => c.window.cursor + env.maxInFlight < 2 ^ 64) xs

/-- The window does what the player does. -/
structure Played (env : Env D) (S : Stream) (j : ℕ) (os : List Origin) (p : Point)
    (w : Window D) : Prop where
  heard : Heard env S j os w
  plays : Plays S env.maxInFlight j os (trueCursor j w) w.stdout
  held : p = .recv → ¬ Passes S env.maxInFlight os (trueCursor j w)

lemma Played.init (hempty : ¬ S.code.Sufficient S.k ∅) :
    Played env S j [] .recv (Window.init : Window D) where
  heard := Heard.init
  plays := by
    have hcursor : trueCursor j (Window.init : Window D) = j := rfl
    rw [hcursor]
    exact .start
  held _ := by
    rintro (hsuff | ⟨o, ho, -⟩)
    · exact hempty hsuff
    · simp at ho

section Step

variable {os : List Origin} {w w' : Window D} {p p' : Point}

/-- A data frame that is dropped carries a packet that comes too late. -/
lemma Played.drop (hS : S.Wf) (hM : 1 ≤ env.maxInFlight) (hwf : w.Wf)
    (h : Played env S j os .recv w) (hcursor : w.started = true → w.cursor ≤ w.highestSeen + 1)
    {ev : Event} {o : Origin} (hframe : dataFrame env ev = some (S.oti, S.packet o))
    (hreach : InReach j w o.block) (hdrop : dropped env w ev = true) :
    Played env S j (os ++ [o]) .recv w := by
  have hsane : saneFrame env ev = some (S.oti, S.packet o) :=
    saneFrame_eq_some.mpr ⟨hframe, hS.oti_sane⟩
  have hred : w.redundant (sbnOf o.block) = true := by
    by_contra hacc
    simp [dropped, acceptedBlock, hsane, Stream.packet_sbn, hacc] at hdrop
  have hstarted := Window.started_of_redundant hred
  have hlate : o.block < trueCursor j w := by
    by_contra hle
    have hacc := (redundant_of_inReach hwf h.heard.content.joined hreach).mpr (by omega)
    rw [hred] at hacc
    simp at hacc
  refine ⟨h.heard.late hwf hstarted hlate (hcursor hstarted), h.plays.hear o (h.held rfl),
    fun _ => ?_⟩
  -- it is not about the block at the cursor
  rintro (hsuff | ⟨o', ho', hahead⟩)
  · rw [esisOf_concat, if_neg (by omega), List.append_nil] at hsuff
    exact h.held rfl (Or.inl hsuff)
  · rcases List.mem_append.mp ho' with hold | hnew
    · exact h.held rfl (Or.inr ⟨o', hold, hahead⟩)
    · rw [List.mem_singleton.mp hnew] at hahead
      omega

/-- A data frame that is accepted. -/
lemma Played.accept (hS : S.Wf) (hdec : env.dec.Laws S.code S.oti S.k)
    (hmono : S.code.Monotone S.k) (hwf : w.Wf) (h : Played env S j os .recv w) {o : Origin}
    (hesi : o.esi < 2 ^ 24) (hreach : InReach j w o.block)
    (hred : w.redundant (sbnOf o.block) = false) {now : Instant} {b : BlockState D}
    (hb : (w.entry env now (w.route (sbnOf o.block)) (sbnOf o.block) S.oti).ingest env.dec
      (S.packet o) = some b) :
    Played env S j (os ++ [o]) .drain
      ((w.joined (sbnOf o.block)).hold (w.route (sbnOf o.block)) b) where
  heard := h.heard.accept hS hdec hmono hwf hesi hreach hred hb
  plays := by
    rw [trueCursor_accept hwf, Window.hold_stdout, Window.joined_stdout]
    exact h.plays.hear o (h.held rfl)
  held hpoint := by simp at hpoint

/-- The drain loop emits the head. -/
lemma Played.advance (hempty : ¬ S.code.Sufficient S.k ∅) (hwf : w.Wf)
    (h : Played env S j os .drain w) (hfit : w.cursor + env.maxInFlight < 2 ^ 64)
    (hripe : ripe env w = true) (hstarted : w.started = true) :
    Played env S j os .drain w.advance where
  heard := h.heard.advance
  plays := by
    have hpass := (h.heard.ripe_iff hempty hwf hfit).mp hripe
    have hplay := h.plays.play hpass
    rw [trueCursor_advance hwf]
    show Plays S env.maxInFlight j os (trueCursor j w + 1)
      (w.stdout ++ [emissionOf w.cursor w.pool[w.cursor]?])
    rw [h.heard.emission_eq hwf hstarted le_rfl]
    exact hplay
  held hpoint := by simp at hpoint

lemma Played.settle (hempty : ¬ S.code.Sufficient S.k ∅) (hwf : w.Wf)
    (h : Played env S j os .drain w) (hfit : w.cursor + env.maxInFlight < 2 ^ 64)
    (hripe : ripe env w = false) : Played env S j os .recv w where
  heard := h.heard
  plays := h.plays
  held _ hpass := by
    rw [← h.heard.ripe_iff hempty hwf hfit, hripe] at hpass
    simp at hpass

/-- One step of an orderly run. -/
lemma Played.moves (hS : S.Wf) (hdec : env.dec.Laws S.code S.oti S.k)
    (hmono : S.code.Monotone S.k) (hM : 1 ≤ env.maxInFlight) (hwf : w.Wf)
    (hcursor : w.started = true → w.cursor ≤ w.highestSeen + 1) (h : Played env S j os p w)
    {x : TaggedAction} (hgen : Genuine env S j w x) (hesi : ∀ o ∈ heardOf env x, o.esi < 2 ^ 24)
    (hfresh : Fresh env w x.1) (hfit : w.cursor + env.maxInFlight < 2 ^ 64)
    (hm : Moves env p w x.1 p' w') (hopen : p' ≠ .closed) :
    Played env S j (os ++ (heardOf env x).toList) p' w' := by
  have hempty := hdec.not_sufficient_empty
  obtain ⟨a, tag⟩ := x
  simp only at hm hfresh
  cases hm with
  | @drop _ now ev hdrop =>
    obtain ⟨f, hf⟩ : ∃ f, dataFrame env ev = some f := by
      unfold dropped at hdrop
      simp only [Bool.and_eq_true] at hdrop
      exact Option.isSome_iff_exists.mp hdrop.1
    obtain ⟨o, htag, hfo, hreach⟩ := hgen f hf
    obtain rfl : tag = some o := htag
    have hheard : heardOf env (.event now ev, some o) = some o := by simp [heardOf, hf]
    rw [hfo] at hf
    rw [hheard]
    exact h.drop hS hM hwf hcursor hf hreach hdrop
  | @ignore _ now ev hev =>
    have hheard : heardOf env (.event now ev, tag) = none := by simp [heardOf, hev]
    rw [hheard, Option.toList_none, List.append_nil]
    exact ⟨h.heard, h.plays, fun hpoint => by simp at hpoint⟩
  | @accept _ now ev oti pkt b hev hred hb =>
    have hf := (saneFrame_eq_some.mp hev).1
    obtain ⟨o, htag, hfo, hreach⟩ := hgen (oti, pkt) hf
    obtain rfl : tag = some o := htag
    obtain ⟨rfl, rfl⟩ := Prod.mk.inj hfo
    have hheard : heardOf env (.event now ev, some o) = some o := by simp [heardOf, hf]
    rw [hheard] at hesi ⊢
    exact h.accept hS hdec hmono hwf (hesi o rfl) hreach hred hb
  | @advance _ clk hmay =>
    have hheard : heardOf env (.pass clk, tag) = none := by cases tag <;> rfl
    rw [hheard, Option.toList_none, List.append_nil]
    have hstarted := hwf.started_of_mayAdvance hmay
    rw [hfresh.mayAdvance_eq] at hmay
    exact h.advance hempty hwf hfit hmay hstarted
  | @settle _ clk hmay =>
    have hheard : heardOf env (.pass clk, tag) = none := by cases tag <;> rfl
    rw [hheard, Option.toList_none, List.append_nil]
    exact h.settle hempty hwf hfit (not_ripe_of_mayAdvance hmay)
  | flush => exact absurd rfl hopen

end Step

section Run

variable {now : Instant} {xs : List TaggedAction} {c : Conf D}

/-- **Refinement.** The open loop does what the player does, in every orderly run. -/
theorem OrderlyRun.played (hS : S.Wf) (hdec : env.dec.Laws S.code S.oti S.k)
    (hmono : S.code.Monotone S.k) (hM : 1 ≤ env.maxInFlight) (h : OrderlyRun env S j now xs c)
    (hopen : c.point ≠ .closed) : Played env S j (heardOrigins env xs) c.point c.window := by
  have hall : Machine.EachStep (taggedStep env) (init now) (fun c x => Genuine env S j c.window x ∧
      Fresh env c.window x.1 ∧ c.window.cursor + env.maxInFlight < 2 ^ 64) xs :=
    fun pre x post s hcut hrun => ⟨h.genuine pre x post s hcut hrun,
      h.fresh pre x post s hcut hrun, h.fits pre x post s hcut hrun⟩
  refine Machine.run_induction_of (P := fun xs (c : Conf D) =>
    (∀ o ∈ heardOrigins env xs, o.esi < 2 ^ 24) → c.point ≠ .closed →
      Played env S j (heardOrigins env xs) c.point c.window) ?_ ?_ hall h.run_eq h.esi_lt hopen
  · intro _ _
    exact Played.init hdec.not_sufficient_empty
  · intro xs c x c' hrun _ ih hx hstep hesi hopen'
    obtain ⟨hgen, hfresh, hfit⟩ := hx
    have hopen := step_open hstep
    have hreach := Reachable.of_tagged hrun
    have hheard : heardOrigins env (xs ++ [x]) =
        heardOrigins env xs ++ (heardOf env x).toList := by
      unfold heardOrigins
      rw [List.filterMap_append]
      cases hx : heardOf env x <;> simp [hx]
    rw [hheard] at hesi ⊢
    have hplayed := ih (fun o ho => hesi o (List.mem_append_left _ ho)) hopen
    exact hplayed.moves hS hdec hmono hM (hreach.wf hopen) (hreach.cursor_le hopen hfit) hgen
      (fun o ho => hesi o (List.mem_append_right _ (Option.mem_toList.mpr ho))) hfresh hfit
      (step_moves hstep) hopen'

/-- The end of the input is seen at the head of the outer loop. -/
lemma OrderlyRun.before_end (h : OrderlyRun env S j now xs c) (hclosed : c.point = .closed) :
    ∃ xs' m, OrderlyRun env S j now xs' m ∧ m.point = .recv ∧
      heardOrigins env xs' = heardOrigins env xs ∧ c.window = flushRemaining m.window := by
  rcases List.eq_nil_or_concat' xs with rfl | ⟨xs', x, rfl⟩
  · obtain rfl : init now = c := Option.some.inj h.run_eq
    simp [RaptorqTs.init] at hclosed
  · obtain ⟨m, hm, hstep⟩ := Machine.run_concat_eq_some.mp h.run_eq
    obtain ⟨a, tag⟩ := x
    cases a with
    | event t ev =>
      rcases step_event hstep with ⟨-, hpoint, -⟩ | ⟨-, hpoint⟩
      · simp [hpoint] at hclosed
      · simp [hpoint] at hclosed
    | pass clk =>
      rcases (step_pass hstep).2 with ⟨-, hpoint, -⟩ | ⟨-, hpoint, -⟩
      · simp [hpoint] at hclosed
      · simp [hpoint] at hclosed
    | disconnect =>
      obtain ⟨hrecv, hw⟩ := step_disconnect hstep
      have hheard : heardOrigins env (xs' ++ [(.disconnect, tag)]) = heardOrigins env xs' := by
        have hnone : heardOf env (.disconnect, tag) = none := by cases tag <;> rfl
        unfold heardOrigins
        rw [List.filterMap_append]
        simp [hnone]
      refine ⟨xs', m, ⟨hm, h.genuine.of_append, ?_, h.fresh.of_append, h.fits.of_append⟩, hrecv,
        hheard.symm, hw⟩
      rw [← hheard]
      exact h.esi_lt

/-! ## Two runs on the same stretches of blocks -/

section Same

variable {os os' : List Origin} {w w' : Window D}

/-- What is in the pool has been heard and not been played. -/
lemma Heard.isSome_iff (hwf : w.Wf) (h : Heard env S j os w) (hstarted : w.started = true) (k : ℕ) :
    w.pool[k]?.isSome = true ↔ w.cursor ≤ k ∧ esisOf (j + (k - w.first)) os ≠ [] := by
  cases hb : w.pool[k]? with
  | some b => exact iff_of_true rfl ⟨hwf.cursor_le_key hb, h.present hb⟩
  | none =>
    apply iff_of_false (by simp)
    rintro ⟨hk, hne⟩
    exact hne (h.content.absent hstarted hk hb)

lemma Heard.keys_of_nil (h : Heard env S j [] w) : w.pool.keys = [] := by
  apply List.getLast?_eq_none_iff.mp
  apply BTreeMap.getLast?_keys_eq_none.mpr
  intro k
  cases hb : w.pool[k]? with
  | none => rfl
  | some b => exact absurd rfl (h.present hb)

/-- The flush writes the same blocks from both windows. -/
lemma Heard.flush_eq (hwf : w.Wf) (hwf' : w'.Wf) (h : Heard env S j os w)
    (h' : Heard env S j os' w') (hmem : ∀ o, o ∈ os ↔ o ∈ os')
    (hcursor : trueCursor j w = trueCursor j w') (hstdout : w.stdout = w'.stdout) :
    (flushRemaining w).stdout = (flushRemaining w').stdout := by
  rw [flushRemaining_stdout, flushRemaining_stdout, hstdout]
  rcases List.eq_nil_or_concat os with hnil | ⟨_, o, hos⟩
  · -- nothing has been heard
    have hnil' : os' = [] := by
      rw [List.eq_nil_iff_forall_not_mem]
      intro o ho
      have hnot := (hmem o).mpr ho
      rw [hnil] at hnot
      simp at hnot
    rw [hnil] at h
    rw [hnil'] at h'
    rw [h.keys_of_nil, h'.keys_of_nil, List.map_nil, List.map_nil]
  · have ho : o ∈ os := by rw [hos]; simp
    have hstarted : w.started = true := by
      by_contra hidle
      rw [h.content.idle (by simpa using hidle)] at ho
      simp at ho
    have hstarted' : w'.started = true := by
      by_contra hidle
      have ho' := (hmem o).mp ho
      rw [h'.content.idle (by simpa using hidle)] at ho'
      simp at ho'
    have hfirst : w.first = w'.first := by rw [h.first_eq hstarted, h'.first_eq hstarted']
    have hle := hwf.first_le
    have hle' := hwf'.first_le
    have hcur : w.cursor = w'.cursor := by
      unfold trueCursor at hcursor
      omega
    have hesis : ∀ i, esisOf i os ≠ [] ↔ esisOf i os' ≠ [] := by
      intro i
      rw [← List.toFinset_nonempty_iff, ← List.toFinset_nonempty_iff,
        toFinset_esisOf_congr hmem]
    have hkeys : w.pool.keys = w'.pool.keys := by
      apply BTreeMap.keys_congr
      intro k
      rw [Bool.eq_iff_iff, h.isSome_iff hwf hstarted, h'.isSome_iff hwf' hstarted', hcur, hfirst,
        hesis]
    rw [hkeys]
    congr 1
    apply List.map_congr_left
    intro k hk
    obtain ⟨b, hb⟩ := BTreeMap.mem_keys.mp hk
    have hck := hwf'.cursor_le_key hb
    rw [h.emission_eq hwf hstarted (by omega), h'.emission_eq hwf' hstarted' hck, hfirst,
      playedAs_congr hmem]

end Same

variable {now' : Instant} {xs' : List TaggedAction} {c' : Conf D}

/-- **Order and duplication inside a block do not matter.** Two runs on genuine packets in reach,
in which no block reaches the timeout, write the same bytes if the packets delivered are the same
up to order and repetition within the stretches of one block. -/
theorem order_within_blocks (hS : S.Wf) (hdec : env.dec.Laws S.code S.oti S.k)
    (hmono : S.code.Monotone S.k) (hM : 1 ≤ env.maxInFlight) (h : OrderlyRun env S j now xs c)
    (h' : OrderlyRun env S j now' xs' c')
    (hsame : SameRuns (heardOrigins env xs) (heardOrigins env xs')) (hpoint : c'.point = c.point)
    (hdone : c.point ≠ .drain) : c.window.bytes = c'.window.bytes := by
  have hempty := hdec.not_sufficient_empty
  -- at the head of the outer loop both players have done the same
  have hopen : ∀ {now now' xs xs'} {m m' : Conf D}, OrderlyRun env S j now xs m →
      OrderlyRun env S j now' xs' m' → SameRuns (heardOrigins env xs) (heardOrigins env xs') →
      m.point = .recv → m'.point = .recv → m.window.stdout = m'.window.stdout ∧
        (flushRemaining m.window).stdout = (flushRemaining m'.window).stdout := by
    intro now now' xs xs' m m' h h' hsame hrecv hrecv'
    have hne : m.point ≠ .closed := by rw [hrecv]; decide
    have hne' : m'.point ≠ .closed := by rw [hrecv']; decide
    have hplayed := h.played hS hdec hmono hM hne
    have hplayed' := h'.played hS hdec hmono hM hne'
    obtain ⟨hcursor, hstdout⟩ := Plays.of_sameRuns hmono hempty hM hsame hplayed.plays
      (hplayed.held hrecv) hplayed'.plays (hplayed'.held hrecv')
    have hwf := (Reachable.of_tagged h.run_eq).wf hne
    have hwf' := (Reachable.of_tagged h'.run_eq).wf hne'
    exact ⟨hstdout, hplayed.heard.flush_eq hwf hwf' hplayed'.heard hsame.mem hcursor hstdout⟩
  unfold Window.bytes
  cases hp : c.point with
  | recv => rw [(hopen h h' hsame hp (hpoint.trans hp)).1]
  | drain => exact absurd hp hdone
  | closed =>
    obtain ⟨xs₀, m, hm, hrecv, hheard, hw⟩ := h.before_end hp
    obtain ⟨xs₀', m', hm', hrecv', hheard', hw'⟩ := h'.before_end (hpoint.trans hp)
    rw [← hheard, ← hheard'] at hsame
    rw [hw, hw', (hopen hm hm' hsame hrecv hrecv').2]

end Run

/-! ## The same block in two orders -/

/-- The two packets of block 0, one after the other. -/
def inOrder : List TaggedAction :=
  [Reference.arrival 2 0 ⟨0, 0⟩, (.pass (Clock.at 0), none), Reference.arrival 2 0 ⟨0, 1⟩,
    (.pass (Clock.at 0), none), (.pass (Clock.at 0), none), (.disconnect, none)]

/-- The second packet twice, and then the first one twice. The last copy comes too late. -/
def swapped : List TaggedAction :=
  [Reference.arrival 2 0 ⟨0, 1⟩, (.pass (Clock.at 0), none), Reference.arrival 2 0 ⟨0, 1⟩,
    (.pass (Clock.at 0), none), Reference.arrival 2 0 ⟨0, 0⟩, (.pass (Clock.at 0), none),
    (.pass (Clock.at 0), none), Reference.arrival 2 0 ⟨0, 0⟩, (.disconnect, none)]

/-- A run on packets of the reference stream is orderly if all its clock readings are zero. -/
lemma orderlyRun_of_check {xs : List TaggedAction} {c : Conf Reference.Decoder}
    (hrun : Machine.run (taggedStep (Reference.env 8)) (init 0) xs = some c)
    (hgen : GenuineRun (Reference.env 8) (Reference.stream 2) 0 0 xs)
    (hesi : ∀ o ∈ heardOrigins (Reference.env 8) xs, o.esi < 2 ^ 24)
    (hclock : ∀ x ∈ xs, ∀ clk, x.1 = .pass clk → clk.guard = 0)
    (hfits : Machine.EachStep (taggedStep (Reference.env 8)) (init 0)
      (fun c _ => c.window.cursor + (Reference.env 8).maxInFlight < 2 ^ 64) xs) :
    OrderlyRun (Reference.env 8) (Reference.stream 2) 0 0 xs c where
  run_eq := hrun
  genuine := hgen
  esi_lt := hesi
  fresh pre x post s hcut _ := by
    apply fresh_of_guard_zero (by decide)
    apply hclock x
    rw [hcut]
    simp
  fits := hfits

/-- Both deliveries write block 0. -/
theorem order_within_blocks_swapped : ∃ c c' : Conf Reference.Decoder,
    Machine.run (taggedStep (Reference.env 8)) (init 0) inOrder = some c ∧
      Machine.run (taggedStep (Reference.env 8)) (init 0) swapped = some c' ∧
      c.window.bytes = (Reference.stream 2).block 0 ∧ c.window.bytes = c'.window.bytes := by
  have hobs : (Machine.run (taggedStep (Reference.env 8)) (init 0) inOrder).map
      (fun c => (c.point, c.window.bytes)) = some (.closed, (Reference.stream 2).block 0) := by
    decide +kernel
  have hobs' : (Machine.run (taggedStep (Reference.env 8)) (init 0) swapped).map (·.point) =
      some .closed := by
    decide +kernel
  obtain ⟨c, hc, hvalue⟩ := Option.map_eq_some_iff.mp hobs
  obtain ⟨c', hc', hclosed'⟩ := Option.map_eq_some_iff.mp hobs'
  simp only [Prod.mk.injEq] at hvalue
  have hclock (xs : List TaggedAction) (hxs : xs = inOrder ∨ xs = swapped) :
      ∀ x ∈ xs, ∀ clk, x.1 = .pass clk → clk.guard = 0 := by
    intro x hx clk hclk
    have hx : x ∈ inOrder ++ swapped := by
      rcases hxs with rfl | rfl
      · exact List.mem_append_left _ hx
      · exact List.mem_append_right _ hx
    have hzero : ∀ x ∈ inOrder ++ swapped, x.1 = .disconnect ∨ x.1 = .pass (Clock.at 0) ∨
        x.1.isEvent = true := by
      simp [inOrder, swapped, Reference.arrival, Action.isEvent]
    rcases hzero x hx with heq | heq | heq
    · simp [heq] at hclk
    · rw [heq, Action.pass.injEq] at hclk
      rw [← hclk]
      rfl
    · simp [hclk, Action.isEvent] at heq
  have h := orderlyRun_of_check hc (Machine.eachStep_of_decide (by decide +kernel))
    (by decide +kernel) (hclock _ (Or.inl rfl)) (Machine.eachStep_of_decide (by decide +kernel))
  have h' := orderlyRun_of_check hc' (Machine.eachStep_of_decide (by decide +kernel))
    (by decide +kernel) (hclock _ (Or.inr rfl)) (Machine.eachStep_of_decide (by decide +kernel))
  have hsame : SameRuns (heardOrigins (Reference.env 8) inOrder)
      (heardOrigins (Reference.env 8) swapped) := by
    have hheard : heardOrigins (Reference.env 8) inOrder = [] ++ [⟨0, 0⟩, ⟨0, 1⟩] := by
      decide +kernel
    have hheard' : heardOrigins (Reference.env 8) swapped =
        [] ++ [⟨0, 1⟩, ⟨0, 1⟩, ⟨0, 0⟩, ⟨0, 0⟩] := by
      decide +kernel
    rw [hheard, hheard']
    have hzero : ∀ o ∈ ([⟨0, 0⟩, ⟨0, 1⟩] : List Origin), o.block = 0 := by decide
    have hzero' : ∀ o ∈ ([⟨0, 1⟩, ⟨0, 1⟩, ⟨0, 0⟩, ⟨0, 0⟩] : List Origin), o.block = 0 := by decide
    apply SameRuns.run SameRuns.nil hzero hzero'
    intro o
    by_cases hfirst : o = ⟨0, 0⟩
    · simp [hfirst]
    · simp [hfirst]
  refine ⟨c, c', hc, hc', hvalue.2, ?_⟩
  apply order_within_blocks (Reference.stream_wf (by decide) (by decide))
    (Reference.decoder_laws (by decide) rfl) (Reference.code_monotone 2) (by decide) h h' hsame
  · rw [hclosed', hvalue.1]
  · rw [hvalue.1]
    decide

end RaptorqTs
