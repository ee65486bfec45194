import RaptorqTs.Dec.Process

/-!
# The decoder process comes to an end

No interleaving of its threads goes on for ever, apart from the polls of an empty channel and
the reads that are interrupted, and none gets stuck: from every state the process can finish
without waiting for a timeout, unless the FEC decoder panics.
-/

namespace RaptorqTs

variable {D : Type} {env : Env D}

/-! ## The window after some frames -/

/-- The numbers in the window after `n` frames. -/
structure Window.Within (w : Window D) (n : ℕ) : Prop where
  wf : w.Wf
  cursor_le : w.cursor ≤ 256 + 128 * n
  highestSeen_le : w.highestSeen ≤ 255 + 128 * n

lemma Window.Within.accept {w : Window D} {n : ℕ} (h : w.Within n) {sbnU8 : UInt8}
    (hred : w.redundant sbnU8 = false) (b : BlockState D) :
    ((w.joined sbnU8).hold (w.route sbnU8) b).Within (n + 1) := by
  have hcursor := h.cursor_le
  have hhighest := h.highestSeen_le
  refine ⟨h.wf.accept hred, ?_, ?_⟩
  · rw [Window.hold_cursor]
    cases hstarted : w.started with
    | false =>
      have hlt := sbnU8.toNat_lt
      rw [Window.joined_of_idle hstarted]
      show sbnU8.toNat ≤ _
      omega
    | true =>
      rw [Window.joined_of_started hstarted]
      omega
  · rw [Window.hold_highestSeen]
    cases hstarted : w.started with
    | false =>
      have hlt := sbnU8.toNat_lt
      rw [Window.joined_of_idle hstarted, Window.route_of_idle hstarted]
      show max sbnU8.toNat sbnU8.toNat ≤ _
      omega
    | true =>
      have hnear := (unwrapSbn_near w.cursor sbnU8).2
      rw [Window.joined_of_started hstarted, Window.route_of_started hstarted]
      omega

/-- Each frame moves the window on by half an SBN period at most. -/
theorem within_of_run {now : Instant} {acts : List Action} {c : Conf D}
    (hrun : runFrom env now acts = some c) (hopen : c.point ≠ .closed)
    (hfit : 256 + 128 * (acts.filterMap frameBytes).length + env.maxInFlight < 2 ^ 64) :
    c.window.Within (acts.filterMap frameBytes).length := by
  refine run_window_induction (Q := fun _ _ => True)
    (P := fun acts q (w : Window D) => q ≠ .closed →
      256 + 128 * (acts.filterMap frameBytes).length + env.maxInFlight < 2 ^ 64 →
        w.Within (acts.filterMap frameBytes).length) ?_ ?_ (fun _ _ _ _ _ _ => trivial) hrun
    hopen hfit
  · exact fun _ _ => ⟨Window.Wf.init, Nat.zero_le _, Nat.zero_le _⟩
  · intro acts q w a q' w' ih _ hm hopen hfit
    have hcount : ((acts ++ [a]).filterMap frameBytes).length =
        (acts.filterMap frameBytes).length + ([a].filterMap frameBytes).length := by
      rw [List.filterMap_append, List.length_append]
    rw [hcount] at hfit ⊢
    have hbefore (hq : q ≠ .closed) := ih hq (by omega)
    cases hm with
    | drop _ | ignore _ | settle _ =>
      obtain ⟨hwf, hcursor, hhighest⟩ := hbefore (by decide)
      exact ⟨hwf, by omega, by omega⟩
    | @accept _ _ ev oti pkt _ hev hred _ =>
      cases ev with
      | tick => cases hev
      | frame bytes => exact (hbefore (by decide)).accept hred _
    | advance hmay =>
      obtain ⟨hwf, hcursor, hhighest⟩ := hbefore (by decide)
      have hle := hwf.cursor_le_of_mayAdvance (by omega) hmay
      refine ⟨hwf.advance (hwf.started_of_mayAdvance hmay), ?_, ?_⟩
      · rw [Window.advance_cursor]
        omega
      · rw [Window.advance_highestSeen]
        omega
    | flush => exact absurd rfl hopen

namespace Dec.Process

variable {now : Instant} {stdin : Bytes} {dacts : List Action} {p p' : Process D}

/-- On an input this long, the sums of the drain loop do not wrap. -/
lemma Inv.within (h : Inv env now stdin dacts p) (hopen : p.conf.point ≠ .closed)
    (hfit : stdin.length + 256 + env.maxInFlight < 2 ^ 64) :
    p.conf.window.Within (dacts.filterMap frameBytes).length ∧
      p.conf.window.cursor + env.maxInFlight < 2 ^ 64 := by
  have hle := h.frames_initial.length_le
  have hscan := @Framing.Format.length_scan_mul_le _ tsFormat 0 stdin
  rw [List.length_map] at hle
  rw [tsFormat_size, show tsPacketSize = 188 from rfl] at hscan
  have hwithin := within_of_run h.conf_run hopen (by omega)
  have hcursor := hwithin.cursor_le
  exact ⟨hwithin, by omega⟩

/-! ## The measure -/

/-- What the drain loop may still do, and the disconnect. -/
def drainLeft (c : Conf D) : ℕ :=
  match c.point with
  | .drain => c.window.highestSeen + 1 - c.window.cursor + 2
  | .recv => 1
  | .closed => 0

/-- A bound on the steps to come, but for timeouts and interrupted reads. -/
def left (p : Process D) : ℕ :=
  400 * p.reader.left + 200 * p.queue.length + if p.result = none then drainLeft p.conf else 0

/-- What a timeout or an interrupted read puts back into the measure. -/
def cost : ProcessAction → ℕ
  | .timeout _ => 130
  | .reader .interrupted => 1
  | _ => 0

lemma left_of_open (h : p.result = none) :
    p.left = 400 * p.reader.left + 200 * p.queue.length + drainLeft p.conf := by
  rw [left, if_pos h]

/-- Handling an event leads at most to a drain loop over half a period. -/
lemma drainLeft_event {c c' : Conf D} {t : Instant} {ev : Event}
    (hreach : RaptorqTs.Reachable env c) (hc : RaptorqTs.step env c (.event t ev) = some c') :
    drainLeft c = 1 ∧ drainLeft c' ≤ 130 := by
  have hlead := (hreach.next hc).highestSeen_le
  simp only [RaptorqTs.step, Option.ite_none_right_eq_some] at hc
  refine ⟨by rw [drainLeft, hc.1], ?_⟩
  unfold drainLeft
  split
  · omega
  · decide
  · decide

/-- A pass uses up what is left of the drain loop. -/
lemma drainLeft_pass {c c' : Conf D} {clk : Clock} (hwf : c.window.Wf)
    (hfit : c.window.cursor + env.maxInFlight < 2 ^ 64)
    (hc : RaptorqTs.step env c (.pass clk) = some c') : drainLeft c' + 1 ≤ drainLeft c := by
  obtain ⟨hdrain, ⟨hmay, hdrain', hw⟩ | ⟨-, hrecv, hw⟩⟩ := step_pass hc
  · have hle := hwf.cursor_le_of_mayAdvance hfit hmay
    simp only [drainLeft, hdrain, hdrain', hw, Window.advance_cursor, Window.advance_highestSeen]
    omega
  · simp only [drainLeft, hdrain, hrecv]
    omega

lemma drainLeft_pos {c c' : Conf D} {a : Action} (hc : RaptorqTs.step env c a = some c') :
    0 < drainLeft c := by
  have hopen := step_open hc
  unfold drainLeft
  split
  · omega
  · decide
  · rename_i hpoint
    exact absurd hpoint hopen

/-- When `run_decoder` returns, nothing is left for it to do. -/
lemma left_of_return {a : Action} {c : Conf D} (hopen : p.result = none)
    (hc : RaptorqTs.step env p.conf a = some c) (hreader : p'.reader = p.reader)
    (hqueue : p'.queue = p.queue) (hreturned : p'.result ≠ none) : p'.left + 1 ≤ p.left := by
  have hpos := drainLeft_pos hc
  rw [left_of_open hopen, left, if_neg hreturned, hreader, hqueue]
  omega

lemma Inv.left_step (h : Inv env now stdin dacts p)
    (hfit : stdin.length + 256 + env.maxInFlight < 2 ^ 64) {a : ProcessAction}
    (hstep : Process.step env p a = some p') : p'.left + 1 ≤ p.left + cost a := by
  have hreach : RaptorqTs.Reachable env p.conf := ⟨now, dacts, h.conf_run⟩
  cases step_moves hstep with
  | @reader a r hmay hr =>
    have hleft := Reader.left_step hr
    unfold left
    cases a with
    | interrupted =>
      rw [if_neg (by simp)] at hleft
      simp only [cost]
      omega
    | read n | ioError | sent | dropped =>
      rw [if_pos (by simp)] at hleft
      simp only [cost]
      omega
  | send hoffered hr hcap hopen =>
    have hleft := Reader.left_step hr
    rw [if_pos (by simp)] at hleft
    simp only [left, cost, List.length_append, List.length_singleton]
    omega
  | recv hqueue hopen hc =>
    obtain ⟨hbefore, hafter⟩ := drainLeft_event hreach hc
    simp only [left, hopen, if_true, hqueue, List.length_cons, cost]
    omega
  | timeout hopen hc =>
    obtain ⟨hbefore, hafter⟩ := drainLeft_event hreach hc
    simp only [left, hopen, if_true, cost]
    omega
  | pass hopen hc =>
    obtain ⟨hwithin, hsum⟩ := h.within (step_open hc) hfit
    have hless := drainLeft_pass hwithin.wf hsum hc
    rw [left_of_open hopen, left_of_open (by exact hopen)]
    simp only [goOn, cost]
    omega
  | passError hopen hc => exact left_of_return hopen hc rfl rfl (by rintro ⟨⟩)
  | disconnect hqueue hexited hopen hc => exact left_of_return hopen hc rfl rfl (by rintro ⟨⟩)
  | disconnectError hopen hc => exact left_of_return hopen hc rfl rfl (by rintro ⟨⟩)

/-- No run is longer than its input, its timeouts and its interrupted reads allow. -/
lemma length_run_le (hfit : stdin.length + 256 + env.maxInFlight < 2 ^ 64)
    {acts : List ProcessAction} (h : runFrom env now stdin acts = some p) :
    acts.length + p.left ≤ 800 * stdin.length + 401 + (acts.map cost).sum := by
  refine Machine.run_induction (P := fun acts (p : Process D) =>
    acts.length + p.left ≤ 800 * stdin.length + 401 + (acts.map cost).sum) ?_ ?_ h
  · show 0 + (400 * (2 * stdin.length + 1) + 0 + 1) ≤ 800 * stdin.length + 401 + 0
    omega
  · intro acts p a p' hrun ih hstep
    have hless := (inv_of_run hrun).left_step hfit hstep
    rw [List.length_append, List.length_singleton, List.map_append, List.map_singleton,
      List.sum_append, List.sum_singleton]
    omega

/-! ## No state is a dead end -/

/-- The step needs no timeout and no failure, and the clock stands at `t` in it. -/
def Smooth (t : Instant) : ProcessAction → Prop
  | .reader (.read _) | .reader .dropped | .send | .disconnect => True
  | .recv now => now = t
  | .pass clk _ => clk = Clock.at t
  | _ => False

lemma cost_of_smooth {t : Instant} {a : ProcessAction} (h : Smooth t a) : cost a = 0 := by
  cases a with
  | reader a => cases a <;> first | rfl | exact absurd h id
  | timeout _ => exact absurd h id
  | send | recv _ | pass _ _ | passError _ _ | disconnect | disconnectError _ => rfl

/-- The FEC decoder panics on the next packet. -/
def Panics (env : Env D) (t : Instant) (p : Process D) : Prop :=
  p.result = none ∧ p.conf.point = .recv ∧
    ∃ pkt ∈ p.queue.head?, RaptorqTs.step env p.conf (.event t (.frame pkt)) = none

lemma exists_read {input : Bytes} {r : Reader} (h : Reader.Inv input r)
    (hreading : r.point = .reading) : ∃ n r', Reader.step r (.read n) = some r' := by
  have halive : ∀ result, r.point ≠ .exited result := by
    intro result hexited
    rw [hreading] at hexited
    cases hexited
  obtain ⟨a, hint, hio, hdropped, hsome⟩ := h.enabled halive
  obtain ⟨r', hr'⟩ := Option.isSome_iff_exists.mp hsome
  obtain ⟨n, rfl, -⟩ | ⟨ha, -⟩ | ⟨ha, -⟩ | ⟨_, -, hr, -⟩ | ⟨_, ha, -⟩ := Reader.step_cases hr'
  · exact ⟨n, r', hr'⟩
  · exact absurd ha hint
  · exact absurd ha hio
  · rw [hreading] at hr
    cases hr
  · exact absurd ha hdropped

/-- The reader moves on, into the channel or, once the receiver is gone, out. -/
lemma Inv.exists_reader_step (h : Inv env now stdin dacts p) (t : Instant)
    (halive : p.reader.hasExited = false)
    (hspace : p.result = none → p.queue.length < channelCapacity) :
    ∃ a p', Smooth t a ∧ Process.step env p a = some p' ∧ p'.result = p.result := by
  obtain ⟨racts, hrun, -⟩ := h.reader_run
  cases hpoint : p.reader.point with
  | reading =>
    obtain ⟨n, r', hr'⟩ := exists_read (Reader.inv_of_run hrun) hpoint
    refine ⟨.reader (.read n), { p with reader := r' }, trivial, ?_, rfl⟩
    simp only [Process.step, readerMay, if_true, hr', Option.map_some]
  | sending pkt =>
    have hoffered : p.reader.offered = some pkt := by rw [Reader.offered, hpoint]
    cases hresult : p.result with
    | none =>
      have hsent : Reader.step p.reader .sent = some (p.reader.onSent pkt) := by
        simp only [Reader.step, hpoint]
      refine ⟨.send, { p with reader := p.reader.onSent pkt, queue := p.queue ++ [pkt] },
        trivial, ?_, hresult⟩
      simp only [Process.step, hoffered, hsent, hspace hresult, hresult, Option.bind_eq_bind,
        Option.bind_some, and_self, if_true]
    | some result =>
      have hdropped : Reader.step p.reader .dropped =
          some { p.reader with point := .exited .ok } := by
        simp only [Reader.step, hpoint]
      refine ⟨.reader .dropped, { p with reader := { p.reader with point := .exited .ok } },
        trivial, ?_, hresult⟩
      simp only [Process.step, readerMay, hresult, Option.isSome_some, if_true, hdropped,
        Option.map_some]
  | exited result =>
    rw [Reader.hasExited, hpoint] at halive
    cases halive

/-- Until `main` returns, some thread can take a step, unless the FEC decoder panics. -/
lemma Inv.exists_step (h : Inv env now stdin dacts p) (t : Instant) (hexit : p.exit = none)
    (hpanic : ¬ p.Panics env t) :
    ∃ a p', Smooth t a ∧ Process.step env p a = some p' ∧
      (p'.result = some .error → p.result = some .error) := by
  cases hresult : p.result with
  | some result =>
    -- only the reader is left
    have halive : p.reader.hasExited = false := by
      rw [exit, hresult] at hexit
      cases hexited : p.reader.hasExited with
      | false => rfl
      | true => simp [hexited] at hexit
    obtain ⟨a, p', ha, hstep, hsame⟩ := h.exists_reader_step t halive
      (fun hopen => by cases hresult.symm.trans hopen)
    exact ⟨a, p', ha, hstep, fun herror => hresult ▸ hsame ▸ herror⟩
  | none =>
    cases hpoint : p.conf.point with
    | closed => exact absurd hpoint (h.running hresult).open_point
    | drain =>
      obtain ⟨c, hc⟩ := @exists_step_pass _ env _ hpoint (Clock.at t)
      refine ⟨.pass (Clock.at t) 0, p.goOn 0 c, rfl, ?_, fun herror => hresult ▸ herror⟩
      simp only [Process.step, decode, hresult, if_true, hc, Option.map_some]
    | recv =>
      cases hqueue : p.queue with
      | cons pkt rest =>
        cases hc : RaptorqTs.step env p.conf (.event t (.frame pkt)) with
        | none => exact absurd ⟨hresult, hpoint, pkt, by rw [hqueue]; rfl, hc⟩ hpanic
        | some c =>
          refine ⟨.recv t, { p with conf := c, queue := rest }, rfl, ?_,
            fun herror => hresult ▸ herror⟩
          simp only [Process.step, hqueue, List.head?_cons, decode, hresult, if_true, hc,
            Option.bind_eq_bind, Option.bind_some, List.tail_cons]
      | nil =>
        cases hexited : p.reader.hasExited with
        | false =>
          obtain ⟨a, p', ha, hstep, hsame⟩ := h.exists_reader_step t hexited
            (fun _ => by rw [hqueue]; decide)
          exact ⟨a, p', ha, hstep, fun herror => hresult ▸ hsame ▸ herror⟩
        | true =>
          obtain ⟨c, hc⟩ : ∃ c, RaptorqTs.step env p.conf .disconnect = some c :=
            ⟨_, by rw [RaptorqTs.step, if_pos hpoint]⟩
          refine ⟨.disconnect, { p.goOn 0 c with result := some .ok }, trivial, ?_, by rintro ⟨⟩⟩
          simp only [Process.step, hqueue, hexited, decode, hresult, if_true, hc,
            Option.bind_eq_bind, Option.bind_some, and_self]

/-- **The process comes to an end.** A run is no longer than its input allows, apart from polls
of the empty channel and interrupted reads. From every state `main` can return without another
timeout or failure and with the clock standing still, and it returns `Ok(())` unless a write has
failed before; only a packet on which the FEC decoder panics is in the way. -/
theorem decoder_process_completes (hfit : stdin.length + 256 + env.maxInFlight < 2 ^ 64)
    {acts : List ProcessAction} (h : runFrom env now stdin acts = some p) :
    acts.length ≤ 800 * stdin.length + 401 + (acts.map cost).sum ∧
    ∀ t, ∃ more p', Machine.run (Process.step env) p more = some p' ∧ (∀ a ∈ more, Smooth t a) ∧
      (p'.Panics env t ∨
        p'.exit.isSome ∧ (p.result ≠ some .error → p'.exit = some .ok)) := by
  refine ⟨(Nat.le_add_right _ _).trans (length_run_le hfit h), fun t => ?_⟩
  let final (s : Process D) : Prop := s.Panics env t ∨
    s.exit.isSome ∧ (p.result ≠ some .error → s.exit = some .ok)
  have hstep : ∀ s : Process D, (∃ dacts, Inv env now stdin dacts s) ∧
      (s.result = some .error → p.result = some .error) → ¬ final s →
        ∃ a s', Smooth t a ∧ Process.step env s a = some s' ∧
          ((∃ dacts, Inv env now stdin dacts s') ∧
            (s'.result = some .error → p.result = some .error)) ∧ s'.left < s.left := by
    rintro s ⟨⟨dacts, hinv⟩, herror⟩ hnot
    obtain ⟨hpanic, hend⟩ := not_or.mp hnot
    have hexit : s.exit = none := by
      by_contra hsome
      obtain ⟨result, hresult⟩ := Option.ne_none_iff_exists'.mp hsome
      refine hend ⟨Option.isSome_iff_exists.mpr ⟨result, hresult⟩, fun hgood => ?_⟩
      cases result with
      | ok => exact hresult
      | error => exact absurd (herror (exit_eq_some.mp hresult).2) hgood
    obtain ⟨a, s', ha, hs', hback⟩ := hinv.exists_step t hexit hpanic
    have hless := hinv.left_step hfit hs'
    rw [cost_of_smooth ha] at hless
    exact ⟨a, s', ha, hs', ⟨⟨_, hinv.step hs'⟩, fun he => herror (hback he)⟩, hless⟩
  obtain ⟨more, p', hrun, hmore, hfinal⟩ :=
    Machine.exists_run_of_measure hstep ⟨⟨_, inv_of_run h⟩, id⟩
  exact ⟨more, p', hrun, hmore, hfinal⟩

/-- After a poll of the empty channel, with part of a packet read. -/
theorem decoder_process_completes_short : ∃ p : Process Reference.Decoder,
    runFrom (Reference.env 8) 0 shortStdin (shortRun.take 3) = some p ∧
      ∀ t, ∃ more p', Machine.run (Process.step (Reference.env 8)) p more = some p' ∧
        (p'.Panics (Reference.env 8) t ∨ p'.exit = some .ok) := by
  have hobs : (runFrom (Reference.env 8) 0 shortStdin (shortRun.take 3)).map Process.result =
      some none := by
    decide +kernel
  obtain ⟨p, hrun, hresult⟩ := Option.map_eq_some_iff.mp hobs
  refine ⟨p, hrun, fun t => ?_⟩
  have hfit : shortStdin.length + 256 + (Reference.env 8).maxInFlight < 2 ^ 64 := by
    decide +kernel
  obtain ⟨more, p', hmore, -, hend⟩ := (decoder_process_completes hfit hrun).2 t
  exact ⟨more, p', hmore, hend.imp_right fun h => h.2 (by rw [hresult]; rintro ⟨⟩)⟩

end Dec.Process

end RaptorqTs
