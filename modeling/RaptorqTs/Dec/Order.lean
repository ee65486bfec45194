import RaptorqTs.Dec.Pool
import RaptorqTs.Lib.Reorder

/-!
# `run_decoder` as a reorder buffer

The window simulates the abstract reorder buffer whose values are block states: an accepted
frame joins the numbering, if it is the first, and puts the new state of its block into the
block's slot; a pass of the drain loop that emits lets the next slot leave. What a reorder
buffer does (`Reorder.run_spec`) then says which blocks are written, in which order, and in
which state.
-/

namespace RaptorqTs

variable {D : Type} {env : Env D}

/-! ## The simulation -/

/-- The operations of the reorder buffer that an action performs. -/
def reorderOps (env : Env D) (w : Window D) : Action → List (Reorder.Op (BlockState D))
  | .event now ev =>
    match saneFrame env ev with
    | some (oti, pkt) =>
      let sbnU8 := pkt.payloadId.sourceBlockNumber
      let logical := w.route sbnU8
      if w.redundant sbnU8 then []
      else
        match (w.entry env now logical sbnU8 oti).ingest env.dec pkt with
        | some b => (if w.started then [] else [.join logical]) ++ [.put logical b]
        | none => []
    | none => []
  | .pass clk => if mayAdvance env clk.guard w then [.emit] else []
  | .disconnect => []

/-- The window is the buffer `r`: its pool holds the pending values, and its output is what
has left, rendered by `emissionOf`. -/
structure Refines (w : Window D) (r : Reorder (BlockState D)) : Prop where
  started_eq : r.started = w.started
  first_eq : r.first = w.first
  next_eq : r.next = w.cursor
  pending_eq : ∀ k, r.pending k = w.pool[k]?
  stdout_eq : w.stdout = r.out.map fun e => emissionOf e.1 e.2

namespace Refines

variable {w : Window D} {r : Reorder (BlockState D)}

lemma init : Refines (Window.init : Window D) Reorder.init where
  started_eq := rfl
  first_eq := rfl
  next_eq := rfl
  pending_eq k := (Window.get_init k).symm
  stdout_eq := rfl

/-- A packet for a started window is a write to its block's slot. -/
lemma put (h : Refines w r) (hstarted : w.started = true) {logical : ℕ}
    (hle : w.cursor ≤ logical) (b : BlockState D) :
    ∃ r', Reorder.step r (.put logical b) = some r' ∧ Refines (w.hold logical b) r' := by
  refine ⟨{ r with pending := Function.update r.pending logical (some b) }, ?_, ?_⟩
  · rw [Reorder.step, if_pos ⟨by rw [h.started_eq, hstarted], by rw [h.next_eq]; exact hle⟩]
  · refine ⟨h.started_eq, h.first_eq, h.next_eq, fun k => ?_, h.stdout_eq⟩
    rw [Window.get_hold]
    by_cases hk : logical = k
    · subst hk
      simp
    · rw [if_neg hk, ← h.pending_eq]
      exact Function.update_of_ne (Ne.symm hk) _ _

/-- The first frame joins the numbering. -/
lemma join (h : Refines w r) (hidle : w.started = false) (sbnU8 : UInt8) :
    ∃ r', Reorder.step r (.join (w.route sbnU8)) = some r' ∧ Refines (w.joined sbnU8) r' := by
  refine ⟨{ r with started := true, first := sbnU8.toNat, next := sbnU8.toNat }, ?_, ?_⟩
  · rw [Reorder.step, if_neg (by rw [h.started_eq, hidle]; decide), Window.route_of_idle hidle]
  · rw [Window.joined_of_idle hidle]
    exact ⟨rfl, rfl, rfl, h.pending_eq, h.stdout_eq⟩

lemma accept (h : Refines w r) {sbnU8 : UInt8} (hred : w.redundant sbnU8 = false)
    (b : BlockState D) :
    ∃ r', Machine.run Reorder.step r ((if w.started then [] else [.join (w.route sbnU8)]) ++
        [.put (w.route sbnU8) b]) = some r' ∧
      Refines ((w.joined sbnU8).hold (w.route sbnU8) b) r' := by
  cases hstarted : w.started with
  | true =>
    have hle := Window.cursor_le_route hred
    rw [Window.joined_of_started hstarted] at hle ⊢
    obtain ⟨r', hstep, hr'⟩ := h.put hstarted hle b
    exact ⟨r', Machine.run_cons_eq_some.mpr ⟨r', hstep, rfl⟩, hr'⟩
  | false =>
    obtain ⟨r₁, hjoin, hr₁⟩ := h.join hstarted sbnU8
    obtain ⟨r', hput, hr'⟩ := hr₁.put Window.joined_started (Window.cursor_le_route hred) b
    refine ⟨r', ?_, hr'⟩
    exact Machine.run_cons_eq_some.mpr ⟨r₁, hjoin, Machine.run_cons_eq_some.mpr ⟨r', hput, rfl⟩⟩

/-- Emitting the head lets the next slot leave. -/
lemma emit (h : Refines w r) (hstarted : w.started = true) :
    ∃ r', Reorder.step r .emit = some r' ∧ Refines w.advance r' := by
  refine ⟨_, by rw [Reorder.step, if_pos (by rw [h.started_eq, hstarted])], ?_⟩
  refine ⟨h.started_eq, h.first_eq, by simp [h.next_eq], fun k => ?_, ?_⟩
  · rw [Window.get_advance]
    by_cases hk : w.cursor = k
    · subst hk
      simp [h.next_eq]
    · rw [if_neg hk, ← h.pending_eq]
      refine Function.update_of_ne ?_ _ _
      rw [h.next_eq]
      exact Ne.symm hk
  · simp only [Window.advance, h.stdout_eq, h.next_eq, h.pending_eq, List.map_append,
      List.map_cons, List.map_nil]

end Refines

/-- A live step performs its operations on the buffer. -/
lemma Moves.refines {p p' : Point} {w w' : Window D} {a : Action} (hm : Moves env p w a p' w')
    (hopen : p' ≠ .closed) (hwf : w.Wf) {r : Reorder (BlockState D)} (hr : Refines w r) :
    ∃ r', Machine.run Reorder.step r (reorderOps env w a) = some r' ∧ Refines w' r' := by
  cases hm with
  | @drop _ now ev hdrop =>
    have hops : reorderOps env w (.event now ev) = [] := by
      cases hev : saneFrame env ev with
      | none => simp [reorderOps, hev]
      | some f =>
        -- a sane frame is dropped only when its block has been emitted
        have hred : w.redundant f.2.payloadId.sourceBlockNumber = true := by
          simpa [dropped, acceptedBlock, hev] using (Bool.and_eq_true_iff.mp hdrop).2
        simp [reorderOps, hev, hred]
    exact ⟨r, by rw [hops]; rfl, hr⟩
  | @ignore _ now ev hev =>
    have hops : reorderOps env w (.event now ev) = [] := by
      simp [reorderOps, saneFrame, hev]
    exact ⟨r, by rw [hops]; rfl, hr⟩
  | @accept _ now ev oti pkt b hev hred hb =>
    simp only [reorderOps, hev, hred, hb, Bool.false_eq_true, if_false]
    exact hr.accept hred b
  | @advance _ clk hmay =>
    obtain ⟨r', hstep, hr'⟩ := hr.emit (hwf.started_of_mayAdvance hmay)
    refine ⟨r', ?_, hr'⟩
    simp only [reorderOps, hmay, if_true]
    exact Machine.run_cons_eq_some.mpr ⟨r', hstep, rfl⟩
  | @settle _ clk hmay => exact ⟨r, by simp [reorderOps, hmay], hr⟩
  | flush => exact absurd rfl hopen

/-- The operations of the reorder buffer that a run performs. -/
def reorderHistory (env : Env D) (now : Instant) (acts : List Action) :
    List (Reorder.Op (BlockState D)) :=
  Machine.trace (step env) (fun c a => reorderOps env c.window a) (init now) acts

/-- The state in which a run has left a block: the result of the last packet ingested into
it. -/
def lastState (env : Env D) (now : Instant) (acts : List Action) (k : ℕ) :
    Option (BlockState D) :=
  Reorder.lastPut k (reorderHistory env now acts)

/-- **Refinement.** A live run of `run_decoder` is a run of the reorder buffer. -/
theorem run_refines {now : Instant} {acts : List Action} {c : Conf D}
    (h : runFrom env now acts = some c) (hopen : c.point ≠ .closed) :
    ∃ r, Machine.run Reorder.step Reorder.init (reorderHistory env now acts) = some r ∧
      Refines c.window r := by
  suffices hlive : ∃ r,
      Machine.run Reorder.step Reorder.init (reorderHistory env now acts) = some r ∧
      (c.point ≠ .closed → Refines c.window r) by
    obtain ⟨r, hr, hR⟩ := hlive
    exact ⟨r, hr, hR hopen⟩
  refine Machine.simulation (R := fun c r => c.point ≠ .closed → Refines c.window r)
    (fun _ => Refines.init) ?_ h
  intro c r a c' hreach hR hstep
  obtain ⟨acts, hrun⟩ := hreach
  have hm := step_moves hstep
  have hwf := Reachable.wf ⟨now, acts, hrun⟩
  by_cases hopen' : c'.point = .closed
  · -- the input has ended, which is no operation of the buffer
    cases a with
    | disconnect => exact ⟨r, rfl, fun h => absurd hopen' h⟩
    | event _ _ => rcases step_event hstep with ⟨-, hp, -⟩ | ⟨-, hp⟩ <;> simp [hp] at hopen'
    | pass _ => rcases (step_pass hstep).2 with ⟨-, hp, -⟩ | ⟨-, hp, -⟩ <;> simp [hp] at hopen'
  · have hopen : c.point ≠ .closed := step_open hstep
    obtain ⟨r', hr', hR'⟩ := hm.refines hopen' (hwf hopen) (hR hopen)
    exact ⟨r', hr', fun _ => hR'⟩

/-! ## What a run writes -/

section Run

variable {now : Instant} {acts : List Action} {c : Conf D}

/-- A live run has written the blocks from `first` up to the cursor, each in the state it was
left in, and holds the others. -/
structure LiveSpec (env : Env D) (now : Instant) (acts : List Action) (w : Window D) : Prop where
  stdout_eq : w.stdout = (List.range' w.first (w.cursor - w.first)).map fun k =>
    emissionOf k (lastState env now acts k)
  pool_eq : ∀ k : ℕ, w.pool[k]? = if w.cursor ≤ k then lastState env now acts k else none
  first_le : ∀ k, (lastState env now acts k).isSome → w.first ≤ k

theorem run_liveSpec (h : runFrom env now acts = some c) (hopen : c.point ≠ .closed) :
    LiveSpec env now acts c.window := by
  obtain ⟨r, hr, hR⟩ := run_refines h hopen
  have hspec := Reorder.run_spec hr
  refine ⟨?_, fun k => ?_, fun k hk => ?_⟩
  · rw [hR.stdout_eq, hspec.out_eq, List.map_map, hR.first_eq, hR.next_eq]
    rfl
  · rw [← hR.pending_eq, hspec.pending_eq, hR.next_eq]
    rfl
  · rw [← hR.first_eq]
    exact hspec.first_le_put k hk

lemma lastState_concat (h : runFrom env now acts = some c) (a : Action) (k : ℕ) :
    lastState env now (acts ++ [a]) k =
      (Reorder.lastPut k (reorderOps env c.window a)).or (lastState env now acts k) := by
  rw [lastState, reorderHistory, Machine.trace_concat a h, Reorder.lastPut_append]
  rfl

/-- The operations of an action write to slot `k` only what a packet has made of the pool
entry of block `k`. -/
lemma lastPut_reorderOps {w : Window D} {a : Action} {k : ℕ} {b : BlockState D}
    (h : Reorder.lastPut k (reorderOps env w a) = some b) :
    ∃ now ev oti pkt, a = .event now ev ∧ saneFrame env ev = some (oti, pkt) ∧
      w.redundant pkt.payloadId.sourceBlockNumber = false ∧
      w.route pkt.payloadId.sourceBlockNumber = k ∧
      (w.entry env now k pkt.payloadId.sourceBlockNumber oti).ingest env.dec pkt = some b := by
  cases a with
  | pass clk =>
    simp only [reorderOps] at h
    split at h <;> simp [Reorder.lastPut] at h
  | disconnect => cases h
  | event now ev =>
    simp only [reorderOps] at h
    cases hev : saneFrame env ev with
    | none => simp [hev, Reorder.lastPut] at h
    | some f =>
      obtain ⟨oti, pkt⟩ := f
      simp only [hev] at h
      cases hred : w.redundant pkt.payloadId.sourceBlockNumber with
      | true => simp [hred, Reorder.lastPut] at h
      | false =>
        simp only [hred, Bool.false_eq_true, if_false] at h
        cases hb : (w.entry env now (w.route pkt.payloadId.sourceBlockNumber)
            pkt.payloadId.sourceBlockNumber oti).ingest env.dec pkt with
        | none => simp [hb, Reorder.lastPut] at h
        | some b' =>
          simp only [hb] at h
          -- the `join` in front of the first `put` writes to no slot
          by_cases hk : w.route pkt.payloadId.sourceBlockNumber = k
          · subst hk
            rw [Reorder.lastPut_put_self, Option.some.injEq] at h
            subst h
            exact ⟨now, ev, oti, pkt, rfl, hev, hred, rfl, hb⟩
          · rw [Reorder.lastPut_put_ne _ _ hk] at h
            cases hs : w.started <;> simp [hs, Reorder.lastPut] at h

/-- A frame was accepted into block `k` in the course of a run (`step_pktsOk`: it was counted
in `pkts_ok`). -/
def Accepted (env : Env D) (now : Instant) (acts : List Action) (k : ℕ) : Prop :=
  ∃ pre t ev post c, acts = pre ++ .event t ev :: post ∧ runFrom env now pre = some c ∧
    acceptedBlock env c.window ev = some k

lemma accepted_concat (h : runFrom env now acts = some c) (a : Action) (k : ℕ) :
    Accepted env now (acts ++ [a]) k ↔ Accepted env now acts k ∨
      ∃ t ev, a = .event t ev ∧ acceptedBlock env c.window ev = some k := by
  constructor
  · rintro ⟨pre, t, ev, post, m, hcut, hm, hacc⟩
    rcases Machine.cut_concat hcut with ⟨post', hcut', -⟩ | ⟨rfl, rfl, -⟩
    · exact Or.inl ⟨pre, t, ev, post', m, hcut', hm, hacc⟩
    · obtain rfl := Option.some.inj (h.symm.trans hm)
      exact Or.inr ⟨t, ev, rfl, hacc⟩
  · rintro (⟨pre, t, ev, post, m, hcut, hm, hacc⟩ | ⟨t, ev, rfl, hacc⟩)
    · exact ⟨pre, t, ev, post ++ [a], m, by rw [hcut]; simp, hm, hacc⟩
    · exact ⟨acts, t, ev, [], c, rfl, h, hacc⟩

/-- An accepted frame writes to the slot of its block, and nothing else does. -/
lemma lastPut_isSome_iff {c' : Conf D} {a : Action} (hstep : step env c a = some c') (k : ℕ) :
    (Reorder.lastPut k (reorderOps env c.window a)).isSome ↔
      ∃ t ev, a = .event t ev ∧ acceptedBlock env c.window ev = some k := by
  constructor
  · intro hsome
    obtain ⟨b, hb⟩ := Option.isSome_iff_exists.mp hsome
    obtain ⟨t, ev, oti, pkt, ha, hev, hred, hroute, -⟩ := lastPut_reorderOps hb
    exact ⟨t, ev, ha, acceptedBlock_eq_some.mpr ⟨oti, pkt, hev, hred, hroute⟩⟩
  · rintro ⟨t, ev, rfl, hacc⟩
    have hm := step_moves hstep
    generalize c.point = p, c.window = w, c'.point = p', c'.window = w' at hm hacc ⊢
    cases hm with
    | drop hdrop => simp [dropped, hacc] at hdrop
    | ignore hev => simp [acceptedBlock, saneFrame, hev] at hacc
    | accept hev hred hb =>
      simp only [acceptedBlock, hev, hred, Bool.false_eq_true, if_false, Option.some.injEq] at hacc
      subst hacc
      simp only [reorderOps, hev, hred, hb, Bool.false_eq_true, if_false,
        Reorder.lastPut_put_self, Option.isSome_some]

/-- A block is left in some state exactly when a frame was accepted into it. -/
theorem lastState_isSome_iff (h : runFrom env now acts = some c) (k : ℕ) :
    (lastState env now acts k).isSome ↔ Accepted env now acts k := by
  refine Machine.run_induction (P := fun acts (_ : Conf D) =>
    (lastState env now acts k).isSome ↔ Accepted env now acts k) ?_ ?_ h
  · refine iff_of_false (by simp [lastState, reorderHistory, Machine.trace, Reorder.lastPut]) ?_
    rintro ⟨pre, t, ev, post, m, hcut, -⟩
    simp at hcut
  · intro acts c a c' hrun ih hstep
    rw [lastState_concat hrun, accepted_concat hrun, ← ih, ← lastPut_isSome_iff hstep,
      Option.isSome_or, Bool.or_eq_true, or_comm]

/-- A completed block stays as it is until it leaves. -/
theorem lastState_of_completed {pre post : List Action} {m : Conf D} {k : ℕ} {b : BlockState D}
    {data : Bytes} (hm : runFrom env now pre = some m) (hopen : m.point ≠ .closed)
    (hb : m.window.pool[k]? = some b) (hc : b.completed = some data)
    (h : runFrom env now (pre ++ post) = some c) :
    lastState env now (pre ++ post) k = some b := by
  obtain ⟨m', hm', hpost⟩ := Machine.run_append_eq_some.mp h
  obtain rfl := Option.some.inj (hm.symm.trans hm')
  refine Machine.run_induction (P := fun post (_ : Conf D) =>
    lastState env now (pre ++ post) k = some b) ?_ ?_ hpost
  · rw [List.append_nil]
    have hpool := (run_liveSpec hm hopen).pool_eq k
    rw [hb] at hpool
    split at hpool
    · exact hpool.symm
    · cases hpool
  · intro post c a c' hrest ih hstep
    have hrun : runFrom env now (pre ++ post) = some c :=
      Machine.run_append_eq_some.mpr ⟨m, hm, hrest⟩
    rw [← List.append_assoc, lastState_concat hrun, ih]
    cases hput : Reorder.lastPut k (reorderOps env c.window a) with
    | none => rfl
    | some b' =>
      -- the packet was ingested into the completed block itself
      obtain ⟨t, ev, oti, pkt, -, -, hred, hroute, hingest⟩ := lastPut_reorderOps hput
      have hpool := (run_liveSpec hrun (step_open hstep)).pool_eq k
      have hwf := Reachable.wf ⟨now, _, hrun⟩ (step_open hstep)
      have hle : c.window.cursor ≤ k := by
        cases hstarted : c.window.started with
        | false => simp [hwf.idle hstarted, Window.init]
        | true =>
          have hle := Window.cursor_le_route hred
          rwa [Window.joined_of_started hstarted, hroute] at hle
      rw [if_pos hle, ih] at hpool
      rw [Window.entry_of_get hpool] at hingest
      rw [BlockState.ingest_of_completed hc hingest]
      rfl

/-! ## The end of a run -/

/-- The block numbers written by a run that ends in `w`, the flush included. -/
def Window.written (w : Window D) : List ℕ :=
  List.range' w.first (w.cursor - w.first) ++ w.pool.keys

lemma Window.Wf.written_sorted {w : Window D} (h : w.Wf) : w.written.Pairwise (· < ·) := by
  refine List.pairwise_append.mpr ⟨List.pairwise_lt_range', BTreeMap.keys_sorted _, ?_⟩
  intro x hx y hy
  obtain ⟨b, hb⟩ := BTreeMap.mem_keys.mp hy
  have hxr := List.mem_range'_1.mp hx
  have hle := h.cursor_le_key hb
  have hfirst := h.first_le
  omega

/-- The live loop and the flush together write each block in the state it was left in. -/
lemma LiveSpec.flush {w : Window D} (h : LiveSpec env now acts w) (hwf : w.Wf) :
    (flushRemaining w).stdout =
      w.written.map fun k => emissionOf k (lastState env now acts k) := by
  rw [flushRemaining_stdout, h.stdout_eq, Window.written, List.map_append]
  congr 1
  refine List.map_congr_left fun k hk => ?_
  obtain ⟨b, hb⟩ := BTreeMap.mem_keys.mp hk
  rw [h.pool_eq, if_pos (hwf.cursor_le_key hb)]

/-- A block into which a frame was accepted has left or is in the pool. -/
lemma LiveSpec.mem_written {w : Window D} (h : LiveSpec env now acts w) {k : ℕ}
    {b : BlockState D} (hb : lastState env now acts k = some b) : k ∈ w.written := by
  have hfirst := h.first_le k (by rw [hb]; rfl)
  refine List.mem_append.mpr ?_
  by_cases hk : w.cursor ≤ k
  · right
    refine BTreeMap.mem_keys.mpr ⟨b, ?_⟩
    rw [h.pool_eq, if_pos hk, hb]
  · left
    exact List.mem_range'_1.mpr ⟨hfirst, by omega⟩

/-- In a list of emissions with distinct numbers, each number is found once. -/
lemma filter_map_eq_singleton {l : List ℕ} {f : ℕ → Emission} (hf : ∀ k, (f k).sbn = k)
    (hl : l.Nodup) {k : ℕ} (hk : k ∈ l) : (l.map f).filter (fun e => e.sbn = k) = [f k] := by
  rw [List.filter_map]
  have hcomp : (fun e : Emission => decide (e.sbn = k)) ∘ f = fun j => decide (j = k) := by
    funext j
    simp [hf]
  rw [hcomp, List.filter_eq, List.count_eq_one_of_mem hl hk]
  rfl

/-- Each block is written under its own number. -/
lemma map_emissionOf_sbn (l : List ℕ) (f : ℕ → Option (BlockState D)) :
    (l.map fun k => emissionOf k (f k)).map (·.sbn) = l := by
  rw [List.map_map]
  have hid : (Emission.sbn ∘ fun k => emissionOf k (f k)) = id := by
    funext k
    exact emissionOf_sbn k (f k)
  rw [hid, List.map_id]

lemma emissionOf_some_kind (k : ℕ) (b : BlockState D) : (emissionOf k (some b)).kind ≠ .zero := by
  cases hc : b.completed <;> simp [emissionOf, hc]

/-- **Exactly once and in order.** Take a run that ends with the input closing. The numbers
written are strictly increasing; the live loop has written `first, first + 1, …`. A block
into which a frame was accepted is written once, from the state it was left in and not as
zeros, and if it was completed while in the pool, as its decoded data. -/
theorem emission_order {c' : Conf D} (hrun : runFrom env now acts = some c)
    (hclose : step env c .disconnect = some c') :
    (c'.window.stdout.map (·.sbn)).Pairwise (· < ·) ∧
      c.window.stdout.map (·.sbn) = List.range' c.window.first c.window.stdout.length ∧
      (∃ flushed, c'.window.stdout = c.window.stdout ++ flushed) ∧
      (∀ k, Accepted env now acts k → ∃ b, lastState env now acts k = some b ∧
        c'.window.stdout.filter (fun e => e.sbn = k) = [emissionOf k (some b)] ∧
        (emissionOf k (some b)).kind ≠ .zero) ∧
      ∀ pre post m k b data, acts = pre ++ post → runFrom env now pre = some m →
        m.window.pool[k]? = some b → b.completed = some data →
        c'.window.stdout.filter (fun e => e.sbn = k) = [⟨k, .decoded, data⟩] := by
  have hopen := step_open hclose
  have hwf := Reachable.wf ⟨now, acts, hrun⟩ hopen
  have hlive := run_liveSpec hrun hopen
  have hc' := (step_disconnect hclose).2
  have hstdout := hlive.flush hwf
  -- the numbers written are distinct, so the filter finds one emission
  have honce : ∀ {k b}, lastState env now acts k = some b →
      c'.window.stdout.filter (fun e => e.sbn = k) = [emissionOf k (some b)] := by
    intro k b hb
    rw [hc', hstdout, filter_map_eq_singleton (fun k => emissionOf_sbn k _)
      hwf.written_sorted.nodup (hlive.mem_written hb), hb]
  refine ⟨?_, ?_, ⟨_, by rw [hc', flushRemaining_stdout]⟩, fun k hk => ?_, ?_⟩
  · rw [hc', hstdout, map_emissionOf_sbn]
    exact hwf.written_sorted
  · have hlen : c.window.stdout.length = c.window.cursor - c.window.first := by
      rw [hlive.stdout_eq, List.length_map, List.length_range']
    rw [hlen, hlive.stdout_eq, map_emissionOf_sbn]
  · obtain ⟨b, hb⟩ := Option.isSome_iff_exists.mp ((lastState_isSome_iff hrun k).mpr hk)
    exact ⟨b, hb, honce hb, emissionOf_some_kind k b⟩
  · rintro pre post m k b data rfl hm hb hcompleted
    obtain ⟨m', hm', hpost⟩ := Machine.run_append_eq_some.mp hrun
    obtain rfl := Option.some.inj (hm.symm.trans hm')
    rw [honce (lastState_of_completed hm (run_open hpost hopen) hb hcompleted hrun)]
    simp only [emissionOf, hcompleted]

end Run

/-- Block 1 is lost, and block 2, which is completed but waits for block 1, is written when
the input ends. -/
theorem emission_order_gap : ∃ c c' : Conf Reference.Decoder,
    step (Reference.env 8) c .disconnect = some c' ∧
      c.window.stdout.map (·.sbn) = [0] ∧
      c'.window.stdout.filter (fun e => e.sbn = 2) = [⟨2, .decoded, Reference.flat 2⟩] := by
  have hrun : (runFrom (Reference.env 8) 0
      [.event 0 (Reference.frame 1 0 0 (Reference.flat 1)), .pass (Clock.at 0), .pass (Clock.at 0),
        .event 0 (Reference.frame 1 2 0 (Reference.flat 2)), .pass (Clock.at 0)]).map (fun c =>
      (c.point, c.window.stdout.map (·.sbn), c.window.pool[2]?.map (·.completed)))
        = some (.recv, [0], some (some (Reference.flat 2))) := by
    decide +kernel
  obtain ⟨c, hc, hobs⟩ := exists_of_run_map hrun
  simp only [Prod.mk.injEq] at hobs
  obtain ⟨hrecv, hsbns, hobs⟩ := hobs
  obtain ⟨b, hb, hcompleted⟩ := Option.map_eq_some_iff.mp hobs
  obtain ⟨c', hclose⟩ : ∃ c', step (Reference.env 8) c .disconnect = some c' := by
    simp [step, hrecv]
  exact ⟨c, c', hclose, hsbns,
    (emission_order hc hclose).2.2.2.2 _ [] c 2 b _ (by simp) hc hb hcompleted⟩

end RaptorqTs
