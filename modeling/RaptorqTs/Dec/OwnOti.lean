import RaptorqTs.Dec.Pool

/-!
# The OTI of a block and those of its packets

Every frame carries an OTI, and a block is built from that of the first frame that is routed to
it. Which frames have been ingested into a block is read off the run; `replay` makes the block
from them again. So what a block has been fed is known exactly, and it has been fed packets of
its own OTI only if the frames agree.
-/

namespace RaptorqTs

variable {D : Type}

/-! ## What a block has been fed -/

/-- A packet that is ingested into the block `logical`, with the OTI of its frame. -/
structure Ingestion where
  logical : ℕ
  now : Instant
  oti : ObjectTransmissionInformation
  packet : EncodingPacket
deriving DecidableEq, Repr

/-- The packet that an action ingests. -/
def ingestion (env : Env D) (w : Window D) : Action → List Ingestion
  | .event now ev =>
    match saneFrame env ev with
    | some (oti, packet) =>
      let sbnU8 := packet.payloadId.sourceBlockNumber
      let logical := w.route sbnU8
      -- a late packet is dropped, and `ingest` returns at once if the block is complete
      if w.redundant sbnU8 || (w.entry env now logical sbnU8 oti).completed.isSome then []
      else [⟨logical, now, oti, packet⟩]
    | none => []
  | .pass _ | .disconnect => []

/-- The packets that a run ingests, in order. -/
def ingestions (env : Env D) (now : Instant) (acts : List Action) : List Ingestion :=
  Machine.trace (step env) (fun c a => ingestion env c.window a) (init now) acts

/-- The packets ingested into the block `k`. -/
def fedTo (is : List Ingestion) (k : ℕ) : List Ingestion := is.filter fun i => i.logical = k

lemma fedTo_concat_self {is : List Ingestion} {i : Ingestion} {k : ℕ} (h : i.logical = k) :
    fedTo (is ++ [i]) k = fedTo is k ++ [i] := by
  simp [fedTo, h]

lemma fedTo_concat_ne {is : List Ingestion} {i : Ingestion} {k : ℕ} (h : i.logical ≠ k) :
    fedTo (is ++ [i]) k = fedTo is k := by
  simp [fedTo, h]

/-- The block that is built from the first frame and fed the packets of all of them. -/
def replay (dec : SourceBlockDecoder D) (first : Ingestion) (rest : List Ingestion) :
    Option (BlockState D) :=
  Machine.run (fun b i => b.ingest dec i.packet)
    (BlockState.new dec first.packet.payloadId.sourceBlockNumber first.oti first.now)
    (first :: rest)

section replay

variable {dec : SourceBlockDecoder D} {first i : Ingestion} {rest : List Ingestion}
  {b b' : BlockState D}

lemma replay_nil (h : (BlockState.new dec first.packet.payloadId.sourceBlockNumber first.oti
    first.now).ingest dec first.packet = some b) : replay dec first [] = some b :=
  Machine.run_cons_eq_some.mpr ⟨b, h, rfl⟩

lemma replay_concat (h : replay dec first rest = some b) (hi : b.ingest dec i.packet = some b') :
    replay dec first (rest ++ [i]) = some b' :=
  Machine.run_concat_eq_some.mpr ⟨b, h, hi⟩

/-- A block has the size that the first of its frames announced. -/
lemma replay_blockSize (h : replay dec first rest = some b) :
    b.blockSize = first.oti.transferLength := by
  refine Machine.Reachable.invariant (P := fun b => b.blockSize = first.oti.transferLength) rfl ?_
    ⟨_, h⟩
  intro b i b' _ ih hi
  rw [BlockState.ingest_blockSize hi, ih]

end replay

/-! ## The ingestions of a run -/

variable {env : Env D} {w : Window D}

/-- A frame is ingested into the block that it is accepted into, or that block is complete. -/
lemma ingestion_of_accepted (now : Instant) {ev : Event} {oti : ObjectTransmissionInformation}
    {pkt : EncodingPacket} (hev : saneFrame env ev = some (oti, pkt))
    (hred : w.redundant pkt.payloadId.sourceBlockNumber = false) :
    ingestion env w (.event now ev) =
      if (w.entry env now (w.route pkt.payloadId.sourceBlockNumber)
        pkt.payloadId.sourceBlockNumber oti).completed.isSome then []
      else [⟨w.route pkt.payloadId.sourceBlockNumber, now, oti, pkt⟩] := by
  simp [ingestion, hev, hred]

lemma ingestion_of_not_accepted {now : Instant} {ev : Event}
    (h : acceptedBlock env w ev = none) : ingestion env w (.event now ev) = [] := by
  cases hev : saneFrame env ev with
  | none => simp [ingestion, hev]
  | some f =>
    obtain ⟨oti, pkt⟩ := f
    have hred : w.redundant pkt.payloadId.sourceBlockNumber = true := by
      simpa [acceptedBlock, hev] using h
    simp [ingestion, hev, hred]

lemma ingestions_concat {now : Instant} {acts : List Action} {c : Conf D}
    (h : runFrom env now acts = some c) (a : Action) :
    ingestions env now (acts ++ [a]) = ingestions env now acts ++ ingestion env c.window a :=
  Machine.trace_concat a h

/-- What the pool holds at a program point, when the packets have been ingested: each block is
made of those routed to it, and the blocks of all others have been emitted. -/
structure Fed (env : Env D) (is : List Ingestion) (p : Point) (w : Window D) : Prop where
  built : ∀ (k : ℕ) b, w.pool[k]? = some b → ∃ first rest,
    fedTo is k = first :: rest ∧ replay env.dec first rest = some b
  idle : p ≠ .closed → w.started = false → is = []
  gone : p ≠ .closed → ∀ i ∈ is, w.pool[i.logical]? = none → i.logical < w.cursor

namespace Fed

variable {is : List Ingestion} {p : Point}

lemma init : Fed env [] .recv Window.init where
  built k b hk := by
    rw [Window.get_init] at hk
    simp at hk
  idle _ _ := rfl
  gone _ i hi := by simp at hi

/-- The window has started, when something has been ingested. -/
lemma started (h : Fed env is p w) (hopen : p ≠ .closed) {i : Ingestion} (hi : i ∈ is) :
    w.started = true := by
  by_contra hidle
  rw [h.idle hopen (by simpa using hidle)] at hi
  simp at hi

/-- Nothing has been ingested into a block that is about to be created. -/
lemma fedTo_eq_nil (h : Fed env is p w) (hopen : p ≠ .closed) {sbnU8 : UInt8}
    (hred : w.redundant sbnU8 = false) (hnone : w.pool[w.route sbnU8]? = none) :
    fedTo is (w.route sbnU8) = [] := by
  unfold fedTo
  rw [List.filter_eq_nil_iff]
  intro i hi
  simp only [decide_eq_true_eq]
  intro hlogical
  -- a block that has been emitted is behind the cursor
  have hlt := h.gone hopen i hi (by rw [hlogical]; exact hnone)
  have hle := Window.cursor_le_route hred
  rw [Window.joined_of_started (h.started hopen hi)] at hle
  omega

/-- The blocks that are not in the pool after a packet has been accepted were not in it before,
and they are behind the cursor. -/
lemma gone_accept (h : Fed env is p w) (hopen : p ≠ .closed) {sbnU8 : UInt8} {b : BlockState D}
    {i : Ingestion} (hi : i ∈ is)
    (hnone : ((w.joined sbnU8).hold (w.route sbnU8) b).pool[i.logical]? = none) :
    i.logical < ((w.joined sbnU8).hold (w.route sbnU8) b).cursor := by
  rw [Window.get_hold, Window.joined_pool] at hnone
  by_cases hroute : w.route sbnU8 = i.logical
  · simp [hroute] at hnone
  · rw [if_neg hroute] at hnone
    rw [Window.hold_cursor, Window.joined_of_started (h.started hopen hi)]
    exact h.gone hopen i hi hnone

/-- A packet is ingested. -/
lemma accept (h : Fed env is .recv w) {now : Instant} {oti : ObjectTransmissionInformation}
    {pkt : EncodingPacket} {b : BlockState D}
    (hred : w.redundant pkt.payloadId.sourceBlockNumber = false)
    (hb : (w.entry env now (w.route pkt.payloadId.sourceBlockNumber)
      pkt.payloadId.sourceBlockNumber oti).ingest env.dec pkt = some b) :
    Fed env (is ++ [⟨w.route pkt.payloadId.sourceBlockNumber, now, oti, pkt⟩]) .drain
      ((w.joined pkt.payloadId.sourceBlockNumber).hold
        (w.route pkt.payloadId.sourceBlockNumber) b) := by
  have hopen : Point.recv ≠ .closed := by decide
  refine ⟨fun k b' hk => ?_, fun _ hidle => ?_, fun _ i hi hnone => ?_⟩
  · rcases Window.get_of_get_hold hk with ⟨hroute, rfl⟩ | ⟨hroute, hbefore⟩
    · rw [fedTo_concat_self hroute]
      -- the entry is new or was in the pool
      cases hold : w.pool[w.route pkt.payloadId.sourceBlockNumber]? with
      | none =>
        rw [Window.entry_of_absent hold] at hb
        rw [← hroute, h.fedTo_eq_nil hopen hred hold]
        exact ⟨_, [], rfl, replay_nil hb⟩
      | some b₀ =>
        rw [Window.entry_of_get hold] at hb
        obtain ⟨first, rest, hfed, hreplay⟩ := h.built _ b₀ hold
        rw [← hroute, hfed]
        exact ⟨first, _, rfl, replay_concat hreplay hb⟩
    · rw [fedTo_concat_ne hroute]
      exact h.built k b' hbefore
  · simp at hidle
  · rcases List.mem_append.mp hi with hi | hi
    · exact h.gone_accept hopen hi hnone
    · rw [List.mem_singleton.mp hi] at hnone
      simp at hnone

/-- The block that a packet is accepted into is complete, and stays as it is. -/
lemma full (h : Fed env is .recv w) {now : Instant} {oti : ObjectTransmissionInformation}
    {pkt : EncodingPacket} {b : BlockState D}
    (hb : (w.entry env now (w.route pkt.payloadId.sourceBlockNumber)
      pkt.payloadId.sourceBlockNumber oti).ingest env.dec pkt = some b)
    (hfull : (w.entry env now (w.route pkt.payloadId.sourceBlockNumber)
      pkt.payloadId.sourceBlockNumber oti).completed.isSome = true) :
    Fed env is .drain ((w.joined pkt.payloadId.sourceBlockNumber).hold
      (w.route pkt.payloadId.sourceBlockNumber) b) := by
  have hopen : Point.recv ≠ .closed := by decide
  obtain ⟨data, hdata⟩ := Option.isSome_iff_exists.mp hfull
  obtain rfl := BlockState.ingest_of_completed hdata hb
  refine ⟨fun k b' hk => ?_, fun _ hidle => ?_, fun _ i hi hnone => h.gone_accept hopen hi hnone⟩
  · apply h.built k b'
    rcases Window.get_of_get_hold hk with ⟨rfl, rfl⟩ | ⟨-, hbefore⟩
    · -- a new block is not complete
      cases hold : w.pool[w.route pkt.payloadId.sourceBlockNumber]? with
      | none =>
        rw [Window.entry_of_absent hold] at hdata
        simp [BlockState.new] at hdata
      | some b₀ => rw [Window.entry_of_get hold]
    · exact hbefore
  · simp at hidle

lemma advance (h : Fed env is .drain w) : Fed env is .drain w.advance := by
  have hopen : Point.drain ≠ .closed := by decide
  refine ⟨fun k b hk => h.built k b (Window.get_of_get_advance hk).2, fun _ => h.idle hopen, ?_⟩
  intro _ i hi hnone
  rw [Window.get_advance] at hnone
  rw [Window.advance_cursor]
  by_cases hhead : w.cursor = i.logical
  · omega
  · rw [if_neg hhead] at hnone
    have hlt := h.gone hopen i hi hnone
    omega

end Fed

/-! ## The flush empties the pool -/

lemma get_flushKey (w : Window D) (k j : ℕ) :
    (flushKey w k).pool[j]? = if k = j then none else w.pool[j]? := by
  unfold flushKey
  cases hk : w.pool[k]? with
  | none =>
    simp only [hk]
    split_ifs with hkj
    · rw [← hkj, hk]
    · rfl
  | some b =>
    simp only [hk]
    exact BTreeMap.get_erase

lemma get_foldl_flushKey {keys : List ℕ} {j : ℕ} :
    (keys.foldl flushKey w).pool[j]? = if j ∈ keys then none else w.pool[j]? := by
  induction keys generalizing w with
  | nil => simp
  | cons k keys ih =>
    rw [List.foldl_cons, ih, get_flushKey]
    by_cases hj : j ∈ keys
    · simp [hj]
    · by_cases hkj : k = j
      · simp [hkj]
      · simp [hj, hkj, Ne.symm hkj]

lemma get_flushRemaining (w : Window D) (k : ℕ) : (flushRemaining w).pool[k]? = none := by
  unfold flushRemaining
  rw [get_foldl_flushKey]
  split_ifs with hk
  · rfl
  · rw [BTreeMap.mem_keys] at hk
    rw [Option.eq_none_iff_forall_ne_some]
    exact not_exists.mp hk

lemma Fed.moves {is : List Ingestion} {p p' : Point} {w' : Window D} {a : Action}
    (h : Fed env is p w) (hm : Moves env p w a p' w') :
    Fed env (is ++ ingestion env w a) p' w' := by
  cases hm with
  | @drop _ now ev hdrop =>
    rw [ingestion_of_not_accepted (acceptedBlock_of_dropped hdrop), List.append_nil]
    exact h
  | @ignore _ now ev hev =>
    rw [ingestion_of_not_accepted (acceptedBlock_of_dataFrame hev), List.append_nil]
    exact ⟨h.built, fun _ => h.idle (by decide), fun _ => h.gone (by decide)⟩
  | @accept _ now ev oti pkt b hev hred hb =>
    rw [ingestion_of_accepted now hev hred]
    split_ifs with hfull
    · rw [List.append_nil]
      exact h.full hb hfull
    · exact h.accept hred hb
  | @advance _ clk hmay =>
    rw [show ingestion env w (.pass clk) = [] from rfl, List.append_nil]
    exact h.advance
  | @settle _ clk hmay =>
    rw [show ingestion env w (.pass clk) = [] from rfl, List.append_nil]
    exact ⟨h.built, fun _ => h.idle (by decide), fun _ => h.gone (by decide)⟩
  | flush =>
    refine ⟨fun k b hk => ?_, fun hclosed => absurd rfl hclosed, fun hclosed => absurd rfl hclosed⟩
    rw [get_flushRemaining] at hk
    simp at hk

/-- **What the pool holds**, in every run: each block is what its frames make. -/
theorem run_fed {now : Instant} {acts : List Action} {c : Conf D}
    (h : runFrom env now acts = some c) : Fed env (ingestions env now acts) c.point c.window := by
  refine Machine.run_induction
    (P := fun acts (c : Conf D) => Fed env (ingestions env now acts) c.point c.window)
    Fed.init ?_ h
  intro acts c a c' hrun ih hstep
  rw [ingestions_concat hrun]
  exact ih.moves (step_moves hstep)

/-! ## Packets of the block's own OTI -/

/-- The frame of an action is kept out of an open block, if it announces another transfer length
than the block was built with, and the block goes on to tell source from repair symbols as it
did. -/
def KeepsOut (env : Env D) (w : Window D) (a : Action) (w' : Window D) : Prop :=
  ∀ now ev oti pkt b, a = .event now ev → saneFrame env ev = some (oti, pkt) →
    w.pool[w.route pkt.payloadId.sourceBlockNumber]? = some b →
      oti.transferLength ≠ b.blockSize →
        ingestion env w a = [] ∧
          ∀ b', w'.pool[w.route pkt.payloadId.sourceBlockNumber]? = some b' → b'.k = b.k

/-- Along a run, the packets ingested into a block of the pool are of the OTI that the block was
built from, and frames that announce another length are kept out. -/
structure OwnOti (env : Env D) (now : Instant) (acts : List Action) : Prop where
  fed : ∀ pre post c, acts = pre ++ post → runFrom env now pre = some c →
    ∀ (k : ℕ) b, c.window.pool[k]? = some b → ∃ first rest,
      fedTo (ingestions env now pre) k = first :: rest ∧ replay env.dec first rest = some b ∧
        ∀ i ∈ rest, i.oti = first.oti
  kept_out : Machine.EachStep (step env) (init now)
    (fun c a => ∀ c', step env c a = some c' → KeepsOut env c.window a c'.window) acts

/-- The frames whose packets go into one block carry one OTI. -/
def Agreeing (is : List Ingestion) : Prop :=
  is.Pairwise fun i j => i.logical = j.logical → i.oti = j.oti

/-- No frame changes which ESIs of an open block are source symbols. -/
lemma k_of_event {c c' : Conf D} {now : Instant} {ev : Event}
    (hstep : step env c (.event now ev) = some c') {k : ℕ} {b b' : BlockState D}
    (hb : c.window.pool[k]? = some b) (hb' : c'.window.pool[k]? = some b') : b'.k = b.k := by
  have hm := step_moves hstep
  generalize c.point = p at hm
  generalize c'.point = p' at hm
  generalize c.window = w at hm hb
  generalize c'.window = w' at hm hb'
  cases hm with
  | drop _ =>
    rw [hb, Option.some.injEq] at hb'
    rw [hb']
  | ignore _ =>
    rw [hb, Option.some.injEq] at hb'
    rw [hb']
  | @accept _ now ev oti pkt b₁ hev hred hingest =>
    rcases Window.get_of_get_hold hb' with ⟨hroute, rfl⟩ | ⟨-, hbefore⟩
    · rw [hroute, Window.entry_of_get hb] at hingest
      exact BlockState.ingest_k hingest
    · rw [hb, Option.some.injEq] at hbefore
      rw [hbefore]

section Run

variable {now : Instant} {acts : List Action} {c : Conf D}

lemma Agreeing.of_append {is js : List Ingestion} (h : Agreeing (is ++ js)) : Agreeing is :=
  (List.pairwise_append.mp h).1

/-- The frames of a part of the run agree as well. -/
lemma agreeing_initial {pre post : List Action} {m : Conf D} (hm : runFrom env now pre = some m)
    (h : Agreeing (ingestions env now (pre ++ post))) : Agreeing (ingestions env now pre) := by
  have happend : ingestions env now (pre ++ post) = ingestions env now pre ++ _ :=
    Machine.trace_append hm
  rw [happend] at h
  exact h.of_append

/-- Where the frames agree, those that are fed to one block all carry the OTI of the first. -/
lemma Agreeing.fedTo_eq {is : List Ingestion} (h : Agreeing is) {k : ℕ} {first : Ingestion}
    {rest : List Ingestion} (hfed : fedTo is k = first :: rest) :
    ∀ i ∈ rest, i.oti = first.oti := by
  have hpair : (first :: rest).Pairwise fun i j => i.logical = j.logical → i.oti = j.oti := by
    rw [← hfed]
    exact h.filter _
  have hlogical : ∀ i ∈ first :: rest, i.logical = k := by
    intro i hi
    rw [← hfed] at hi
    simpa using (List.mem_filter.mp hi).2
  intro i hi
  have hsame : first.logical = i.logical := by
    rw [hlogical first List.mem_cons_self, hlogical i (List.mem_cons_of_mem first hi)]
  exact ((List.pairwise_cons.mp hpair).1 i hi hsame).symm

/-- Where the frames agree, no frame is ingested that announces another length. -/
lemma keepsOut_of_agreeing {a : Action} {c' : Conf D} (hrun : runFrom env now acts = some c)
    (hagree : Agreeing (ingestions env now (acts ++ [a]))) (hstep : step env c a = some c') :
    KeepsOut env c.window a c'.window := by
  intro t ev oti pkt b ha hev hb hlength
  subst ha
  refine ⟨?_, fun b' hb' => k_of_event hstep hb hb'⟩
  rw [ingestions_concat hrun] at hagree
  obtain ⟨first, rest, hfed, hreplay⟩ := (run_fed hrun).built _ b hb
  have hfirst : first ∈ ingestions env now acts ∧
      first.logical = c.window.route pkt.payloadId.sourceBlockNumber := by
    have hmem : first ∈ fedTo (ingestions env now acts)
        (c.window.route pkt.payloadId.sourceBlockNumber) := by
      rw [hfed]
      exact List.mem_cons_self
    simpa [fedTo] using hmem
  by_contra hne
  -- the packet goes into the block that the first frame has opened
  cases hred : c.window.redundant pkt.payloadId.sourceBlockNumber with
  | true =>
    apply hne
    apply ingestion_of_not_accepted
    simp [acceptedBlock, hev, hred]
  | false =>
    have hone := ingestion_of_accepted t hev hred
    split_ifs at hone with hfull
    · exact hne hone
    · rw [hone] at hagree
      have hoti := (List.pairwise_append.mp hagree).2.2 first hfirst.1 _
        (List.mem_singleton_self _) hfirst.2
      apply hlength
      rw [replay_blockSize hreplay, hoti]

/-- What is ingested goes into a block of the pool. -/
lemma Moves.get_of_ingestion {p p' : Point} {w' : Window D} {a : Action}
    (hm : Moves env p w a p' w') {j : Ingestion} (hj : j ∈ ingestion env w a) :
    ∃ b, w'.pool[j.logical]? = some b := by
  cases hm with
  | @drop _ now ev hdrop =>
    rw [ingestion_of_not_accepted (acceptedBlock_of_dropped hdrop)] at hj
    simp at hj
  | @ignore _ now ev hev =>
    rw [ingestion_of_not_accepted (acceptedBlock_of_dataFrame hev)] at hj
    simp at hj
  | @accept _ now ev oti pkt b hev hred hb =>
    rw [ingestion_of_accepted now hev hred] at hj
    split_ifs at hj with hfull
    · simp at hj
    · rw [List.mem_singleton.mp hj]
      exact ⟨b, by rw [Window.get_hold, if_pos rfl]⟩
  | advance _ => simp [ingestion] at hj
  | settle _ => simp [ingestion] at hj
  | flush => simp [ingestion] at hj

/-- An action ingests one packet at most. -/
lemma ingestion_pairwise (w : Window D) (a : Action) : Agreeing (ingestion env w a) := by
  have hle : (ingestion env w a).length ≤ 1 := by
    unfold ingestion
    split
    · split
      · simp only
        split_ifs <;> simp
      · simp
    · simp
    · simp
  cases hi : ingestion env w a with
  | nil => exact List.Pairwise.nil
  | cons i is =>
    rw [hi, List.length_cons] at hle
    obtain rfl : is = [] := List.eq_nil_of_length_eq_zero (by omega)
    exact List.pairwise_singleton _ i

lemma OwnOti.of_append {post : List Action} (h : OwnOti env now (acts ++ post)) :
    OwnOti env now acts where
  fed pre post' c hcut := h.fed pre (post' ++ post) c (by rw [hcut, List.append_assoc])
  kept_out := h.kept_out.of_append

/-- In a run every block is fed packets of its own OTI exactly when the frames whose packets go
into one block carry one OTI. -/
theorem ownOti_iff_agreeing (h : runFrom env now acts = some c) :
    OwnOti env now acts ↔ Agreeing (ingestions env now acts) := by
  constructor
  · intro hown
    refine Machine.run_induction
      (P := fun acts _ => OwnOti env now acts → Agreeing (ingestions env now acts))
      (fun _ => List.Pairwise.nil) ?_ h hown
    intro acts m a m' hrun ih hstep hown
    have hrun' : runFrom env now (acts ++ [a]) = some m' :=
      Machine.run_concat_eq_some.mpr ⟨m, hrun, hstep⟩
    have hfed := hown.fed (acts ++ [a]) [] m' (List.append_nil _).symm hrun'
    rw [ingestions_concat hrun] at hfed ⊢
    refine List.pairwise_append.mpr ⟨ih hown.of_append, ingestion_pairwise m.window a, ?_⟩
    intro i hi j hj hsame
    -- both are in what the block that the action leaves in the pool has been fed
    obtain ⟨b, hb⟩ := (step_moves hstep).get_of_ingestion hj
    obtain ⟨first, rest, hsplit, -, hrest⟩ := hfed j.logical b hb
    have hall : ∀ x ∈ ingestions env now acts ++ ingestion env m.window a,
        x.logical = j.logical → x.oti = first.oti := by
      intro x hx hlogical
      have hmem : x ∈ fedTo (ingestions env now acts ++ ingestion env m.window a) j.logical :=
        List.mem_filter.mpr ⟨hx, decide_eq_true hlogical⟩
      rw [hsplit] at hmem
      rcases List.mem_cons.mp hmem with rfl | hmem
      · rfl
      · exact hrest x hmem
    rw [hall i (List.mem_append_left _ hi) hsame, hall j (List.mem_append_right _ hj) rfl]
  · intro hagree
    refine ⟨?_, ?_⟩
    · intro pre post m hcut hm k b hk
      rw [hcut] at hagree
      obtain ⟨first, rest, hfed, hreplay⟩ := (run_fed hm).built k b hk
      exact ⟨first, rest, hfed, hreplay, (agreeing_initial hm hagree).fedTo_eq hfed⟩
    · intro pre a post m hcut hm c' hstep
      have hcut' : acts = (pre ++ [a]) ++ post := by rw [hcut, List.append_assoc]; rfl
      rw [hcut'] at hagree
      have hm' : runFrom env now (pre ++ [a]) = some c' :=
        Machine.run_concat_eq_some.mpr ⟨m, hm, hstep⟩
      exact keepsOut_of_agreeing hm (agreeing_initial hm' hagree) hstep

end Run

end RaptorqTs
