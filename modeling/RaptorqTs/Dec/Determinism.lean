import RaptorqTs.Dec.Recovery
import RaptorqTs.Dec.Timeout

/-!
# Runs without timeouts

As long as no block times out, the clock decides nothing: the guards of the drain loop depend on
the window only, and between events the loop has nothing left to do. So the window is a function
of the frames, but for the times at which its blocks were created.
-/

namespace RaptorqTs

variable {D : Type} {env : Env D}

/-! ## The drain loop without timeouts -/

/-- The guards of the drain loop as long as no block has timed out. -/
def ripe (env : Env D) (w : Window D) : Bool :=
  match w.pool[w.cursor]? with
  | some b => b.completed.isSome || shouldForce env w
  | none => zeroGuard env w

section Ripe

variable {w w' m : Window D}

lemma Fresh.mayAdvance_eq {clk : Clock} (h : Fresh env w (.pass clk)) :
    mayAdvance env clk.guard w = ripe env w := by
  unfold mayAdvance ripe
  cases hhead : w.pool[w.cursor]? with
  | none => rfl
  | some b =>
    have hlt : elapsed clk.guard b.firstSeen < env.timeout := h w.cursor b hhead
    simp [Nat.not_le.mpr hlt]

lemma not_ripe_of_mayAdvance {t : Instant} (h : mayAdvance env t w = false) :
    ripe env w = false := by
  unfold mayAdvance at h
  unfold ripe
  cases hhead : w.pool[w.cursor]? with
  | none =>
    rw [hhead] at h
    exact h
  | some b =>
    rw [hhead] at h
    simp only [Bool.or_eq_false_iff] at h ⊢
    exact ⟨h.1.1, h.2⟩

/-- Between events the drain loop has nothing to do. -/
lemma Reachable.not_ripe {c : Conf D} (h : Reachable env c) (hrecv : c.point = .recv) :
    ripe env c.window = false := by
  have hP : c.point = .recv → ripe env c.window = false := by
    apply Reachable.window_induction (P := fun p w => p = .recv → ripe env w = false) _ _ h
    · intro _
      unfold ripe
      rw [show (Window.init : Window D).pool[(Window.init : Window D).cursor]? = none from
        Window.get_init _]
      rfl
    · intro p w a p' w' ih hm hpoint
      cases hm with
      | drop _ => exact ih rfl
      | settle hmay => exact not_ripe_of_mayAdvance hmay
      | ignore _ | accept _ _ _ | advance _ | flush => simp at hpoint
  exact hP hrecv

/-- The drain loop leads from `w` to `w'`. -/
def Settles (env : Env D) (w w' : Window D) : Prop :=
  ∃ j, w' = w.advanceN j ∧ (∀ i < j, ripe env (w.advanceN i) = true) ∧ ripe env w' = false

lemma Settles.refl (h : ripe env w = false) : Settles env w w := by
  refine ⟨0, rfl, ?_, h⟩
  intro i hi
  omega

lemma Settles.eq_of_not_ripe (h : ripe env w = false) (hs : Settles env w w') : w' = w := by
  obtain ⟨j, rfl, hripe, -⟩ := hs
  have hj : j = 0 := by
    by_contra hne
    have hfirst : ripe env w = true := hripe 0 (by omega)
    rw [h] at hfirst
    simp at hfirst
  rw [hj]
  rfl

lemma Settles.of_advance (h : ripe env w = true) (hs : Settles env w.advance w') :
    Settles env w w' := by
  obtain ⟨j, rfl, hripe, hend⟩ := hs
  refine ⟨j + 1, Window.advance_advanceN w j, fun i hi => ?_, hend⟩
  cases i with
  | zero => exact h
  | succ i =>
    rw [← Window.advance_advanceN]
    exact hripe i (by omega)

end Ripe

/-! ## Windows that agree but for the clock -/

/-- The block but for the time it was created at. -/
def BlockState.untimed (b : BlockState D) : BlockState D := { b with firstSeen := 0 }

/-- The two windows differ at most in the times their blocks were created at. -/
structure Window.Alike (w w' : Window D) : Prop where
  pool : ∀ k : ℕ, w.pool[k]?.map BlockState.untimed = w'.pool[k]?.map BlockState.untimed
  cursor : w.cursor = w'.cursor
  highestSeen : w.highestSeen = w'.highestSeen
  started : w.started = w'.started
  first : w.first = w'.first
  stdout : w.stdout = w'.stdout

namespace BlockState

variable {dec : SourceBlockDecoder D} {b b' : BlockState D} {p : EncodingPacket}

/-- The clock plays no part in ingesting a packet. -/
lemma ingest_untimed (b : BlockState D) (p : EncodingPacket) :
    b.untimed.ingest dec p = (b.ingest dec p).map untimed := by
  have hnote : b.untimed.note p = (b.note p).untimed := by
    by_cases hlt : p.payloadId.encodingSymbolId < b.k
    · simp only [note, untimed, if_pos hlt]
      exact if_pos hlt
    · simp only [note, untimed, if_neg hlt]
      exact if_neg hlt
  have hcompleted : b.untimed.completed = b.completed := rfl
  have hdecoder : (b.note p).untimed.decoder = (b.note p).decoder := rfl
  simp only [ingest, hnote, hcompleted, hdecoder]
  split_ifs with hc
  · rfl
  · cases hd : dec.decode (b.note p).decoder p with
    | none => rfl
    | some r => rfl

/-- Nor in what is written for a block. -/
lemma emissionOf_untimed (k : ℕ) (e : Option (BlockState D)) :
    emissionOf k (e.map untimed) = emissionOf k e := by
  cases e with
  | none => rfl
  | some b =>
    have hcompleted : b.untimed.completed = b.completed := rfl
    have hbest : b.untimed.bestEffort = b.bestEffort := rfl
    simp only [Option.map_some, emissionOf, hcompleted, hbest]

end BlockState

namespace Window.Alike

variable {w w' m m' : Window D}

lemma refl (w : Window D) : w.Alike w := ⟨fun _ => rfl, rfl, rfl, rfl, rfl, rfl⟩

/-- Both pools hold a block, the same but for the clock, or neither does. -/
lemma get_cases (h : w.Alike w') (k : ℕ) :
    (w.pool[k]? = none ∧ w'.pool[k]? = none) ∨ ∃ b b', w.pool[k]? = some b ∧
      w'.pool[k]? = some b' ∧ b.untimed = b'.untimed := by
  have hk := h.pool k
  cases hb : w.pool[k]? with
  | none =>
    rw [hb, Option.map_none, eq_comm, Option.map_eq_none_iff] at hk
    exact Or.inl ⟨rfl, hk⟩
  | some b =>
    rw [hb, Option.map_some, eq_comm, Option.map_eq_some_iff] at hk
    obtain ⟨b', hb', huntimed⟩ := hk
    exact Or.inr ⟨b, b', rfl, hb', huntimed.symm⟩

lemma emission_eq (h : w.Alike w') (k : ℕ) :
    emissionOf k w.pool[k]? = emissionOf k w'.pool[k]? := by
  rw [← BlockState.emissionOf_untimed, h.pool, BlockState.emissionOf_untimed]

lemma keys_eq (h : w.Alike w') : w.pool.keys = w'.pool.keys := by
  apply BTreeMap.keys_congr
  intro k
  rcases h.get_cases k with ⟨hb, hb'⟩ | ⟨b, b', hb, hb', -⟩
  · rw [hb, hb']
  · rw [hb, hb']
    rfl

lemma shouldForce_eq (h : w.Alike w') : shouldForce env w = shouldForce env w' := by
  unfold shouldForce
  rw [h.keys_eq, h.cursor]

lemma ripe_eq (h : w.Alike w') : ripe env w = ripe env w' := by
  unfold ripe zeroGuard
  rw [h.shouldForce_eq, h.started, h.highestSeen, h.cursor]
  rcases h.get_cases w'.cursor with ⟨hb, hb'⟩ | ⟨b, b', hb, hb', huntimed⟩
  · rw [hb, hb']
  · have hcompleted : b.untimed.completed = b'.untimed.completed := by rw [huntimed]
    rw [hb, hb']
    show (b.completed.isSome || _) = (b'.completed.isSome || _)
    rw [show b.completed = b'.completed from hcompleted]

lemma advance (h : w.Alike w') : w.advance.Alike w'.advance where
  pool k := by
    rw [get_advance, get_advance, h.cursor]
    split_ifs
    · rfl
    · exact h.pool k
  cursor := by rw [advance_cursor, advance_cursor, h.cursor]
  highestSeen := h.highestSeen
  started := h.started
  first := h.first
  stdout := by
    show w.stdout ++ [_] = w'.stdout ++ [_]
    rw [h.stdout, h.cursor, h.emission_eq]

lemma advanceN (h : w.Alike w') (n : ℕ) : (w.advanceN n).Alike (w'.advanceN n) := by
  induction n with
  | zero => exact h
  | succ n ih => exact ih.advance

/-- The drain loop stops at the same place. -/
lemma settles (h : w.Alike w') (hs : Settles env w m) (hs' : Settles env w' m') : m.Alike m' := by
  obtain ⟨j, rfl, hripe, hend⟩ := hs
  obtain ⟨j', rfl, hripe', hend'⟩ := hs'
  have hj : j = j' := by
    rcases Nat.lt_trichotomy j j' with hlt | heq | hgt
    · have hmore := hripe' j hlt
      rw [← (h.advanceN j).ripe_eq, hend] at hmore
      simp at hmore
    · exact heq
    · have hmore := hripe j' hgt
      rw [(h.advanceN j').ripe_eq, hend'] at hmore
      simp at hmore
  rw [hj]
  exact h.advanceN j'

lemma route_eq (h : w.Alike w') (sbnU8 : UInt8) : w.route sbnU8 = w'.route sbnU8 := by
  unfold route locate
  rw [h.started, h.cursor]
  split <;> rfl

lemma joined (h : w.Alike w') (sbnU8 : UInt8) : (w.joined sbnU8).Alike (w'.joined sbnU8) := by
  cases hstarted : w.started with
  | true =>
    rw [joined_of_started hstarted, joined_of_started (h.started ▸ hstarted)]
    exact h
  | false =>
    rw [joined_of_idle hstarted, joined_of_idle (h.started ▸ hstarted)]
    exact ⟨h.pool, rfl, rfl, rfl, rfl, h.stdout⟩

lemma redundant_eq (h : w.Alike w') (sbnU8 : UInt8) :
    w.redundant sbnU8 = w'.redundant sbnU8 := by
  unfold redundant
  rw [h.route_eq, (h.joined sbnU8).cursor]

lemma hold (h : w.Alike w') (k : ℕ) {b b' : BlockState D} (hb : b.untimed = b'.untimed) :
    (w.hold k b).Alike (w'.hold k b') where
  pool l := by
    rw [get_hold, get_hold]
    split_ifs
    · exact congrArg some hb
    · exact h.pool l
  cursor := h.cursor
  highestSeen := by rw [hold_highestSeen, hold_highestSeen, h.highestSeen]
  started := h.started
  first := h.first
  stdout := h.stdout

/-- A packet is ingested into both. -/
lemma ingest (h : w.Alike w') {now now' : Instant} {k : ℕ} {sbnU8 : UInt8}
    {oti : ObjectTransmissionInformation} {p : EncodingPacket} {b b' : BlockState D}
    (hb : (w.entry env now k sbnU8 oti).ingest env.dec p = some b)
    (hb' : (w'.entry env now' k sbnU8 oti).ingest env.dec p = some b') :
    b.untimed = b'.untimed := by
  have hentry : (w.entry env now k sbnU8 oti).untimed =
      (w'.entry env now' k sbnU8 oti).untimed := by
    rcases h.get_cases k with ⟨hnone, hnone'⟩ | ⟨e, e', he, he', huntimed⟩
    · rw [Window.entry_of_absent hnone, Window.entry_of_absent hnone']
      rfl
    · rw [Window.entry_of_get he, Window.entry_of_get he']
      exact huntimed
  have hsame := congrArg (fun e => e.ingest env.dec p) hentry
  simp only [BlockState.ingest_untimed, hb, hb', Option.map_some, Option.some.injEq] at hsame
  exact hsame

/-- The input ends for both. -/
lemma flush (h : w.Alike w') : (flushRemaining w).Alike (flushRemaining w') := by
  have hkey : ∀ (k : ℕ) (v v' : Window D), v.Alike v' → (flushKey v k).Alike (flushKey v' k) := by
    intro k v v' h
    rcases h.get_cases k with ⟨hb, hb'⟩ | ⟨b, b', hb, hb', huntimed⟩
    · simp only [flushKey, hb, hb']
      exact ⟨h.pool, by rw [h.cursor], h.highestSeen, h.started, h.first, h.stdout⟩
    · rw [flushKey_of_mem hb, flushKey_of_mem hb']
      refine ⟨fun l => ?_, rfl, h.highestSeen, h.started, h.first, ?_⟩
      · show (v.pool.erase k)[l]?.map _ = (v'.pool.erase k)[l]?.map _
        rw [BTreeMap.get_erase, BTreeMap.get_erase]
        split_ifs
        · rfl
        · exact h.pool l
      · show v.stdout ++ [_] = v'.stdout ++ [_]
        rw [h.stdout, ← hb, ← hb', h.emission_eq]
  unfold flushRemaining
  rw [h.keys_eq]
  induction w'.pool.keys generalizing w w' with
  | nil => exact h
  | cons k keys ih => exact ih (hkey k w w' h)

end Window.Alike

/-! ## The window is a function of the frames -/

/-- A frame takes the window from `w` to `m`, the drain loop included. -/
def Takes (env : Env D) (bytes : Bytes) (w m : Window D) : Prop :=
  (acceptedBlock env w (.frame bytes) = none ∧ m = w) ∨
    ∃ now oti pkt b, saneFrame env (.frame bytes) = some (oti, pkt) ∧
      w.redundant pkt.payloadId.sourceBlockNumber = false ∧
      (w.entry env now (w.route pkt.payloadId.sourceBlockNumber)
        pkt.payloadId.sourceBlockNumber oti).ingest env.dec pkt = some b ∧
      Settles env ((w.joined pkt.payloadId.sourceBlockNumber).hold
        (w.route pkt.payloadId.sourceBlockNumber) b) m

/-- The frames, one by one, take the window from `w` to `w'`. -/
def Follows (env : Env D) : Window D → List Bytes → Window D → Prop
  | w, [], w' => w' = w
  | w, bytes :: frames, w' => ∃ m, Takes env bytes w m ∧ Follows env m frames w'

section Follows

variable {w w' m m' : Window D} {bytes : Bytes} {frames : List Bytes}

lemma Follows.concat (h : Follows env w frames m) (ht : Takes env bytes m w') :
    Follows env w (frames ++ [bytes]) w' := by
  induction frames generalizing w with
  | nil =>
    obtain rfl : m = w := h
    exact ⟨w', ht, rfl⟩
  | cons f frames ih =>
    obtain ⟨v, hv, hrest⟩ := h
    exact ⟨v, hv, ih hrest⟩

lemma Takes.alike (h : w.Alike w') (ht : Takes env bytes w m) (ht' : Takes env bytes w' m') :
    m.Alike m' := by
  rcases ht with ⟨hnone, rfl⟩ | ⟨now, oti, pkt, b, hev, hred, hb, hs⟩
  · rcases ht' with ⟨-, rfl⟩ | ⟨now', oti', pkt', b', hev', hred', -, -⟩
    · exact h
    · rw [← h.redundant_eq] at hred'
      simp [acceptedBlock, hev', hred'] at hnone
  · rcases ht' with ⟨hnone, rfl⟩ | ⟨now', oti', pkt', b', hev', hred', hb', hs'⟩
    · rw [h.redundant_eq] at hred
      simp [acceptedBlock, hev, hred] at hnone
    · rw [hev, Option.some.injEq, Prod.mk.injEq] at hev'
      obtain ⟨rfl, rfl⟩ := hev'
      rw [← h.route_eq] at hb' hs'
      exact ((h.joined _).hold _ (h.ingest hb hb')).settles hs hs'

/-- **Determinism**, but for the clock. -/
theorem Follows.alike (h : w.Alike w') (hf : Follows env w frames m)
    (hf' : Follows env w' frames m') : m.Alike m' := by
  induction frames generalizing w w' with
  | nil =>
    obtain rfl : m = w := hf
    obtain rfl : m' = w' := hf'
    exact h
  | cons bytes frames ih =>
    obtain ⟨v, hv, hrest⟩ := hf
    obtain ⟨v', hv', hrest'⟩ := hf'
    exact ih (hv.alike h hv') hrest hrest'

end Follows

/-- How a configuration stands to the frames handled so far. -/
def Tracks (env : Env D) (frames : List Bytes) (p : Point) (w : Window D) : Prop :=
  match p with
  | .recv => Follows env Window.init frames w
  | .drain => ∀ m, Settles env w m → Follows env Window.init frames m
  | .closed => ∃ m, Follows env Window.init frames m ∧ w = flushRemaining m

/-- **The window without timeouts** depends on the frames only. -/
theorem run_tracks {now : Instant} {acts : List Action} {c : Conf D}
    (hrun : runFrom env now acts = some c)
    (hfresh : Machine.EachStep (step env) (init now) (fun c a => Fresh env c.window a) acts) :
    Tracks env (acts.filterMap frameBytes) c.point c.window := by
  refine Machine.run_induction_of (P := fun acts (c : Conf D) =>
    Tracks env (acts.filterMap frameBytes) c.point c.window) ?_ ?_ hfresh hrun
  · exact (rfl : (Window.init : Window D) = Window.init)
  intro acts c a c' hrun _ ih hfresh hstep
  have hreach : Reachable env c := ⟨now, acts, hrun⟩
  rw [List.filterMap_append]
  have hm := step_moves hstep
  generalize hp : c.point = p, hv : c.window = v, c'.point = p', c'.window = v' at hm ih hfresh ⊢
  have hrest (hrecv : p = .recv) : ripe env v = false := by
    rw [← hv]
    exact hreach.not_ripe (hp.trans hrecv)
  cases hm with
  | @drop _ now' ev hdrop =>
    cases ev with
    | tick => simp [dropped, dataFrame] at hdrop
    | frame bytes => exact ih.concat (Or.inl ⟨acceptedBlock_of_dropped hdrop, rfl⟩)
  | @ignore _ now' ev hev =>
    intro m hs
    rw [hs.eq_of_not_ripe (hrest rfl)]
    cases ev with
    | tick =>
      rw [show [Action.event now' .tick].filterMap frameBytes = [] from rfl, List.append_nil]
      exact ih
    | frame bytes =>
      apply Follows.concat ih
      left
      exact ⟨acceptedBlock_of_dataFrame hev, rfl⟩
  | @accept _ now' ev oti pkt b hev hred hb =>
    intro m hs
    cases ev with
    | tick => simp [saneFrame, dataFrame] at hev
    | frame bytes => exact Follows.concat ih (Or.inr ⟨now', oti, pkt, b, hev, hred, hb, hs⟩)
  | @advance _ clk hmay =>
    rw [hfresh.mayAdvance_eq] at hmay
    intro m hs
    rw [show [Action.pass clk].filterMap frameBytes = [] from rfl, List.append_nil]
    exact ih m (hs.of_advance hmay)
  | @settle _ clk hmay =>
    rw [show [Action.pass clk].filterMap frameBytes = [] from rfl, List.append_nil]
    exact ih v (Settles.refl (not_ripe_of_mayAdvance hmay))
  | flush =>
    rw [show [Action.disconnect].filterMap frameBytes = [] from rfl, List.append_nil]
    exact ⟨v, ih, rfl⟩

/-- **Determinism of the decoder.** Two runs without timeouts on the same frames reach the same
window, but for the clock. -/
theorem run_alike {now now' : Instant} {acts acts' : List Action} {c c' : Conf D}
    (hrun : runFrom env now acts = some c)
    (hfresh : Machine.EachStep (step env) (init now) (fun c a => Fresh env c.window a) acts)
    (hrun' : runFrom env now' acts' = some c')
    (hfresh' : Machine.EachStep (step env) (init now') (fun c a => Fresh env c.window a) acts')
    (hframes : acts'.filterMap frameBytes = acts.filterMap frameBytes)
    (hpoint : c'.point = c.point) (hdone : c.point ≠ .drain) : c'.window.Alike c.window := by
  have htracks := run_tracks hrun hfresh
  have htracks' := run_tracks hrun' hfresh'
  rw [hframes, hpoint] at htracks'
  cases hp : c.point with
  | recv =>
    rw [hp] at htracks htracks'
    exact Follows.alike (Window.Alike.refl _) htracks' htracks
  | drain => exact absurd hp hdone
  | closed =>
    rw [hp] at htracks htracks'
    obtain ⟨m, hm, hw⟩ := htracks
    obtain ⟨m', hm', hw'⟩ := htracks'
    rw [hw, hw']
    exact (Follows.alike (Window.Alike.refl _) hm' hm).flush

end RaptorqTs
