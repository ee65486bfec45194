import RaptorqTs.Dec.Pool
import Mathlib.Tactic.Linarith

/-!
# Stream positions

How many bytes stand on the output when the cursor has reached a block. Decoded and
best-effort blocks have the length their OTI announced, but a block of which nothing
arrived is written as zeros of the default size, and the flush at the end of the input
skips it altogether.
-/

namespace RaptorqTs

variable {D : Type} {env : Env D}

/-! ## Lengths of emissions -/

/-- Zero blocks have length `zeroSize`, all others `size`. -/
def EmissionSizes (zeroSize size : ℕ) (out : List Emission) : Prop :=
  ∀ e ∈ out, e.data.length = if e.kind = .zero then zeroSize else size

/-- The number of zero blocks. -/
def zeroCount (out : List Emission) : ℕ := out.countP fun e => e.kind = .zero

lemma EmissionSizes.append {z n : ℕ} {xs ys : List Emission} (hx : EmissionSizes z n xs)
    (hy : EmissionSizes z n ys) : EmissionSizes z n (xs ++ ys) := by
  intro e he
  rcases List.mem_append.mp he with he | he
  · exact hx e he
  · exact hy e he

/-- The bytes of a list of emissions, counted by kind. -/
lemma length_flatMap_data {z n : ℕ} {out : List Emission} (h : EmissionSizes z n out) :
    (out.flatMap Emission.data).length + n * zeroCount out
      = n * out.length + z * zeroCount out := by
  induction out with
  | nil => rfl
  | cons e out ih =>
    have htail := ih fun e' he' => h e' (List.mem_cons_of_mem _ he')
    have hhead := h e (List.mem_cons_self ..)
    have hcount : zeroCount (e :: out) = zeroCount out + if e.kind = .zero then 1 else 0 := by
      simp [zeroCount, List.countP_cons]
    rw [List.flatMap_cons, List.length_append, List.length_cons, hhead, hcount]
    by_cases hkind : e.kind = .zero
    · simp only [if_pos hkind, Nat.mul_add, Nat.mul_one]
      omega
    · simp only [if_neg hkind, Nat.mul_add, Nat.mul_one, Nat.add_zero]
      omega

/-- The bytes are those of as many blocks of the common size exactly when zero blocks have
that size or there are none. -/
lemma length_flatMap_data_eq_iff {z n : ℕ} {out : List Emission} (h : EmissionSizes z n out) :
    (out.flatMap Emission.data).length = n * out.length ↔ n = z ∨ zeroCount out = 0 := by
  have hlen := length_flatMap_data h
  constructor
  · intro heq
    -- the zero blocks are all that can make the lengths differ
    have hmul : n * zeroCount out = z * zeroCount out := by omega
    rcases Nat.eq_zero_or_pos (zeroCount out) with hzero | hpos
    · exact Or.inr hzero
    · exact Or.inl (Nat.eq_of_mul_eq_mul_right hpos hmul)
  · rintro (rfl | hzero)
    · omega
    · rw [hzero] at hlen
      omega

/-! ## The live loop -/

/-- A pass does not take the arm that writes a zero block. -/
def NoZeroArm (env : Env D) (w : Window D) : Action → Prop
  | .pass _ => ¬ (w.pool[w.cursor]? = none ∧ zeroGuard env w = true)
  | .event _ _ | .disconnect => True

instance (w : Window D) : (a : Action) → Decidable (NoZeroArm env w a)
  | .pass _ => inferInstanceAs
    (Decidable (¬ (w.pool[w.cursor]? = none ∧ zeroGuard env w = true)))
  | .event _ _ | .disconnect => inferInstanceAs (Decidable True)

/-- Every accepted frame announces blocks of `size` bytes. -/
abbrev AcceptsSize (env : Env D) (size : ℕ) : Window D → Action → Prop :=
  AcceptsOnly env fun _ oti _ => oti.transferLength = size

/-- The blocks of a run in which all accepted frames announce the same size. -/
lemma run_blockSize {size : ℕ} {now : Instant} {acts : List Action} {c : Conf D}
    (hsize : Machine.EachStep (step env) (init now)
      (fun c a => AcceptsSize env size c.window a) acts)
    (h : runFrom env now acts = some c) (hopen : c.point ≠ .closed) {k : ℕ} {b : BlockState D}
    (hk : c.window.pool[k]? = some b) : b.blockSize = size := by
  refine run_pool (Q := fun _ b => b.blockSize = size) (fun _ hoti _ => hoti) ?_ hsize h hopen hk
  intro w ev oti pkt b b' _ _ hb hi
  rw [BlockState.ingest_blockSize hi, hb]

lemma emissionOf_kind_eq_zero {logical : ℕ} {e : Option (BlockState D)} :
    (emissionOf logical e).kind = .zero ↔ e = none := by
  cases e with
  | none => simp [emissionOf]
  | some b => cases hc : b.completed <;> simp [emissionOf, hc]

lemma zeroCount_append (xs ys : List Emission) :
    zeroCount (xs ++ ys) = zeroCount xs + zeroCount ys := by
  simp [zeroCount]

/-- What has been written up to the cursor: one emission for each block, of its kind's size. -/
structure Written (size : ℕ) (w : Window D) : Prop where
  length_eq : w.stdout.length = w.cursor - w.first
  sizes : EmissionSizes defaultBlockSize size w.stdout

namespace Written

variable {size : ℕ} {w : Window D}

lemma init : Written size (Window.init : Window D) where
  length_eq := rfl
  sizes e he := by cases he

lemma accept (h : Written size w) (hwf : w.Wf) {sbnU8 : UInt8} {b : BlockState D} :
    Written size ((w.joined sbnU8).hold (w.route sbnU8) b) := by
  refine ⟨hwf.length_stdout_accept _ _ h.length_eq, ?_⟩
  rw [Window.hold_stdout, Window.joined_stdout]
  exact h.sizes

lemma advance (h : Written size w) (hwf : w.Wf)
    (hhead : ∀ {b}, w.pool[w.cursor]? = some b → b.output.length = size) :
    Written size w.advance := by
  refine ⟨hwf.length_stdout_advance h.length_eq, h.sizes.append fun e he => ?_⟩
  obtain rfl := List.mem_singleton.mp he
  cases hb : w.pool[w.cursor]? with
  | none => simp [emissionOf]
  | some b =>
    rw [if_neg (by simp [emissionOf_kind_eq_zero]), emissionOf_some_data, hhead hb]

end Written

/-- Passing the head writes a zero block exactly when nothing of it arrived. -/
lemma zeroCount_advance (w : Window D) : zeroCount w.advance.stdout =
    zeroCount w.stdout + if w.pool[w.cursor]? = none then 1 else 0 := by
  rw [show w.advance.stdout = w.stdout ++ [emissionOf w.cursor w.pool[w.cursor]?] from rfl,
    zeroCount_append]
  simp [zeroCount, List.countP_cons, emissionOf_kind_eq_zero]

/-- A live run has written one emission for each step of the cursor, and a zero block only
where a pass took the zero arm. -/
lemma run_written (hlaws : env.dec.LengthLaws) {size : ℕ} {now : Instant} {acts : List Action}
    {c : Conf D}
    (hsize : Machine.EachStep (step env) (init now)
      (fun c a => AcceptsSize env size c.window a) acts)
    (h : runFrom env now acts = some c) (hopen : c.point ≠ .closed) :
    Written size c.window ∧
      (Machine.EachStep (step env) (init now) (fun c a => NoZeroArm env c.window a) acts ↔
        zeroCount c.window.stdout = 0) := by
  refine Machine.run_induction_of (P := fun acts (c : Conf D) => c.point ≠ .closed →
    Written size c.window ∧
      (Machine.EachStep (step env) (init now) (fun c a => NoZeroArm env c.window a) acts ↔
        zeroCount c.window.stdout = 0)) ?_ ?_ hsize h hopen
  · exact fun _ => ⟨Written.init, iff_of_true Machine.EachStep.nil rfl⟩
  · intro acts c a c' hrun hacts hP _ hstep hopen'
    rw [Machine.eachStep_concat hrun]
    have hm := step_moves hstep
    have hwf := Reachable.wf ⟨now, acts, hrun⟩
    -- what the head puts on the output has the announced size
    have hhead : c.point ≠ .closed → ∀ {b}, c.window.pool[c.window.cursor]? = some b →
        b.output.length = size := by
      intro hopen b hb
      rw [(Reachable.sized hlaws ⟨now, acts, hrun⟩ hopen hb).length_output,
        run_blockSize hacts hrun hopen hb]
    obtain ⟨p, w, cs⟩ := c
    obtain ⟨p', w', cs'⟩ := c'
    simp only [Conf.window] at hm hwf hP hhead hopen' ⊢
    cases hm with
    | drop _ | ignore _ =>
      obtain ⟨hw, hiff⟩ := hP (by decide)
      exact ⟨hw, by rw [hiff]; exact and_iff_left trivial⟩
    | settle hmay =>
      obtain ⟨hw, hiff⟩ := hP (by decide)
      refine ⟨hw, ?_⟩
      rw [hiff]
      refine and_iff_left ?_
      rintro ⟨hnone, hguard⟩
      simp [mayAdvance, hnone, hguard] at hmay
    | accept _ _ _ =>
      obtain ⟨hw, hiff⟩ := hP (by decide)
      refine ⟨hw.accept (hwf (by decide)), ?_⟩
      rw [hiff, Window.hold_stdout, Window.joined_stdout]
      exact and_iff_left trivial
    | @advance _ clk hmay =>
      obtain ⟨hw, hiff⟩ := hP (by decide)
      refine ⟨hw.advance (hwf (by decide)) (hhead (by decide)), ?_⟩
      rw [hiff, zeroCount_advance]
      have harm : NoZeroArm env w (.pass clk) ↔ w.pool[w.cursor]? ≠ none := by
        constructor
        · intro hno hnone
          simp only [mayAdvance, hnone] at hmay
          exact hno ⟨hnone, hmay⟩
        · exact fun hsome harm => hsome harm.1
      rw [harm]
      by_cases hnone : w.pool[w.cursor]? = none
      · simp [hnone]
      · simp [hnone]
    | flush => exact absurd rfl hopen'

/-- **Stream positions.** In a run whose accepted frames all announce blocks of `size` bytes,
the output stands at `size * (cursor - first)` at every point before the input closes exactly
when `size` is the default or no pass takes the arm that writes a zero block. -/
theorem stream_position_iff (hlaws : env.dec.LengthLaws) {size : ℕ} {now : Instant}
    {acts : List Action} {c : Conf D} (hrun : runFrom env now acts = some c)
    (hsize : Machine.EachStep (step env) (init now)
      (fun c a => AcceptsSize env size c.window a) acts) :
    Machine.EachState (step env) (init now) (fun c => c.point ≠ .closed →
        c.window.bytes.length = size * (c.window.cursor - c.window.first)) acts ↔
      size = defaultBlockSize ∨
        Machine.EachStep (step env) (init now) (fun c a => NoZeroArm env c.window a) acts := by
  -- the equivalence at one point of the run, for the passes before it
  have hstate : ∀ {pre post m}, acts = pre ++ post → runFrom env now pre = some m →
      m.point ≠ .closed →
      (m.window.bytes.length = size * (m.window.cursor - m.window.first) ↔
        size = defaultBlockSize ∨
          Machine.EachStep (step env) (init now) (fun c a => NoZeroArm env c.window a) pre) := by
    intro pre post m hcut hm hopen
    rw [hcut] at hsize
    obtain ⟨hw, hiff⟩ := run_written hlaws hsize.of_append hm hopen
    rw [hiff, ← hw.length_eq, Window.bytes, length_flatMap_data_eq_iff hw.sizes]
  constructor
  · intro h
    by_cases hdefault : size = defaultBlockSize
    · exact Or.inl hdefault
    · -- look at the state after the pass that takes the arm
      refine Or.inr fun pre a post m hcut hm => ?_
      cases a with
      | event _ _ | disconnect => trivial
      | pass clk =>
        intro hzero
        rw [hcut] at hrun
        obtain ⟨m', hstep, hm'⟩ := Machine.exists_step_of_run hrun hm
        have hopen : m'.point ≠ .closed := by
          rcases step_pass hstep with ⟨-, ⟨-, hpoint, -⟩ | ⟨-, hpoint, -⟩⟩ <;> simp [hpoint]
        have hcut' : acts = (pre ++ [.pass clk]) ++ post := by rw [hcut]; simp
        rcases (hstate hcut' hm' hopen).mp (h _ post m' hcut' hm' hopen) with heq | hno
        · exact hdefault heq
        · exact hno pre _ [] m rfl hm hzero
  · intro h pre post m hcut hm hopen
    refine (hstate hcut hm hopen).mpr (h.imp_right fun hno => ?_)
    rw [hcut] at hno
    exact hno.of_append

/-- The packets with ESI 0 of the given one-symbol blocks, with the passes that follow. -/
def oneSymbolBlocks (sbns : List UInt8) : List Action :=
  sbns.flatMap fun sbn =>
    [.event 0 (Reference.frame 1 sbn 0 (Reference.flat sbn)), .pass (Clock.at 0), .pass (Clock.at 0)]

/-- Two blocks of one symbol and nothing missing. -/
theorem stream_position_two_blocks : ∃ c : Conf Reference.Decoder,
    runFrom (Reference.env 1) 0 (oneSymbolBlocks [0, 1]) = some c ∧
      c.window.bytes.length = symbolSize * 2 := by
  have hrun : (runFrom (Reference.env 1) 0 (oneSymbolBlocks [0, 1])).map
      (fun c => (c.point, c.window.cursor, c.window.first)) = some (.recv, 2, 0) := by
    decide +kernel
  obtain ⟨c, hc, hobs⟩ := exists_of_run_map hrun
  simp only [Prod.mk.injEq] at hobs
  have hsize : Machine.EachStep (step (Reference.env 1)) (init 0) (fun c a =>
      AcceptsSize (Reference.env 1) symbolSize c.window a) (oneSymbolBlocks [0, 1]) :=
    Machine.eachStep_of_decide (by decide +kernel)
  have hno : Machine.EachStep (step (Reference.env 1)) (init 0) (fun c a =>
      NoZeroArm (Reference.env 1) c.window a) (oneSymbolBlocks [0, 1]) :=
    Machine.eachStep_of_decide (by decide +kernel)
  refine ⟨c, hc, ?_⟩
  have hpos := (stream_position_iff Reference.decoder_lengthLaws hc hsize).mpr (Or.inr hno)
    _ [] c (by simp) hc (by rw [hobs.1]; decide)
  rwa [hobs.2.1, hobs.2.2] at hpos

/-- With blocks of one symbol, a lost block 1 takes 392 symbols on the output. -/
theorem stream_position_lost_block : ∃ c : Conf Reference.Decoder,
    runFrom (Reference.env 1) 0 (oneSymbolBlocks [0, 2]) = some c ∧ c.point = .drain ∧
      Machine.EachStep (step (Reference.env 1)) (init 0) (fun c a =>
        AcceptsSize (Reference.env 1) symbolSize c.window a) (oneSymbolBlocks [0, 2]) ∧
      c.window.bytes.length = 65798 ∧
      c.window.bytes.length ≠ symbolSize * (c.window.cursor - c.window.first) := by
  have hrun : (runFrom (Reference.env 1) 0 (oneSymbolBlocks [0, 2])).map
      (fun c => (c.point, c.window.cursor, c.window.first, zeroCount c.window.stdout))
        = some (.drain, 3, 0, 1) := by
    decide +kernel
  obtain ⟨c, hc, hobs⟩ := exists_of_run_map hrun
  simp only [Prod.mk.injEq] at hobs
  have hsize : Machine.EachStep (step (Reference.env 1)) (init 0) (fun c a =>
      AcceptsSize (Reference.env 1) symbolSize c.window a) (oneSymbolBlocks [0, 2]) :=
    Machine.eachStep_of_decide (by decide +kernel)
  have hw := (run_written Reference.decoder_lengthLaws hsize hc (by rw [hobs.1]; decide)).1
  have hlen := length_flatMap_data hw.sizes
  have hblock : defaultBlockSize = 65464 := rfl
  rw [hw.length_eq, hobs.2.1, hobs.2.2.1, hobs.2.2.2, hblock, symbolSize_eq] at hlen
  have hbytes : c.window.bytes.length = 65798 := by
    rw [Window.bytes]
    omega
  refine ⟨c, hc, hobs.1, hsize, hbytes, ?_⟩
  rw [hbytes, hobs.2.1, hobs.2.2.1]
  decide

/-! ## The end of the input -/

/-- The window after the drain loop has been forced past the largest key. -/
def Window.forced (w : Window D) : Window D :=
  match w.pool.keys.getLast? with
  | some hi => w.advanceN (hi + 1 - w.cursor)
  | none => w

/-- The program without a window: the drain loop is forced as long as the pool is not
empty. -/
def Env.unbuffered (env : Env D) : Env D :=
  { env with args := { env.args with maxBlocksInFlight := 0 } }

/-- `forced` is what the drain loop computes when it is forced, one pass for each block. -/
theorem run_forced {c : Conf D} (hwf : c.window.Wf) (hpoint : c.point = .drain) {hi : ℕ}
    (hhi : c.window.pool.keys.getLast? = some hi) (clk : Clock) :
    ∃ c', Machine.run (step env.unbuffered) c
        (List.replicate (hi + 1 - c.window.cursor) (.pass clk)) = some c' ∧
      c'.point = .drain ∧ c'.window = c.window.forced := by
  obtain ⟨⟨b, hb⟩, hmax⟩ := BTreeMap.getLast?_keys_eq_some.mp hhi
  have hforced : c.window.forced = c.window.advanceN (hi + 1 - c.window.cursor) := by
    simp only [Window.forced, hhi]
  -- as long as the cursor is at most `hi`, the largest key forces the next pass
  have hmay : ∀ n, c.window.cursor + n ≤ hi →
      mayAdvance env.unbuffered clk.guard (c.window.advanceN n) = true := by
    intro n hn
    have hlast : (c.window.advanceN n).pool.keys.getLast? = some hi := by
      refine BTreeMap.getLast?_keys_eq_some.mpr ⟨⟨b, ?_⟩, fun k b' hk => ?_⟩
      · rw [Window.get_advanceN, if_neg (by omega), hb]
      · rw [Window.get_advanceN] at hk
        split at hk
        · cases hk
        · exact hmax k b' hk
    refine mayAdvance_of_shouldForce _ (by simp [hwf.started_of_get hb]) ?_
    simp only [shouldForce, hlast, Window.advanceN_cursor, decide_eq_true_eq]
    exact le_trans (Nat.mod_le _ _) hn
  have hpasses : ∀ n, c.window.cursor + n ≤ hi + 1 → ∃ c',
      Machine.run (step env.unbuffered) c (List.replicate n (.pass clk)) = some c' ∧
        c'.point = .drain ∧ c'.window = c.window.advanceN n := by
    intro n
    induction n with
    | zero => exact fun _ => ⟨c, rfl, hpoint, rfl⟩
    | succ n ih =>
      intro hn
      obtain ⟨c', hrun, hpoint', hw⟩ := ih (by omega)
      obtain ⟨c'', hstep⟩ : ∃ c'', step env.unbuffered c' (.pass clk) = some c'' :=
        exists_step_pass hpoint' clk
      refine ⟨c'', ?_, ?_⟩
      · rw [List.replicate_succ']
        exact Machine.run_concat_eq_some.mpr ⟨c', hrun, hstep⟩
      · rcases (step_pass hstep).2 with ⟨-, hp, hw'⟩ | ⟨hno, -, -⟩
        · exact ⟨hp, by rw [hw', hw]; rfl⟩
        · rw [hw, hmay n (by omega)] at hno
          cases hno
  have hle := hwf.cursor_le_key hb
  rw [hforced]
  exact hpasses _ (by omega)

/-- No block between the cursor and a key of the pool is missing. -/
def Window.NoGap (w : Window D) : Prop :=
  ∀ l k, w.cursor ≤ l → l ≤ k → k ∈ w.pool → l ∈ w.pool

/-- The pool without gaps is an interval of keys. -/
lemma Window.NoGap.keys_eq {w : Window D} (h : w.NoGap) (hwf : w.Wf) {hi : ℕ}
    (hhi : w.pool.keys.getLast? = some hi) :
    w.pool.keys = List.range' w.cursor (hi + 1 - w.cursor) := by
  obtain ⟨hmem, hmax⟩ := BTreeMap.getLast?_keys_eq_some.mp hhi
  refine List.Pairwise.eq_of_mem_iff (BTreeMap.keys_sorted _) List.pairwise_lt_range' fun l => ?_
  rw [BTreeMap.mem_keys, List.mem_range'_1]
  constructor
  · rintro ⟨b, hb⟩
    have h₁ := hwf.cursor_le_key hb
    have h₂ := hmax l b hb
    omega
  · intro hl
    exact BTreeMap.mem_iff.mp (h l hi hl.1 (by omega) (BTreeMap.mem_iff.mpr hmem))

/-- The flush writes what the live loop would write if it were forced to go on, so that
every remaining block stands at its position. -/
structure FlushLikeLive (w : Window D) : Prop where
  bytes_eq : (flushRemaining w).bytes = w.forced.bytes
  position : w.bytes.length = (w.cursor - w.first) * defaultBlockSize →
    ∀ {k : ℕ} {b : BlockState D}, w.pool[k]? = some b →
      slice (flushRemaining w).bytes ((k - w.first) * defaultBlockSize) defaultBlockSize = b.output

lemma Window.forced_stdout (w : Window D) {hi : ℕ} (hhi : w.pool.keys.getLast? = some hi) :
    w.forced.stdout = w.stdout ++
      (List.range' w.cursor (hi + 1 - w.cursor)).map fun k => emissionOf k w.pool[k]? := by
  simp only [Window.forced, hhi, Window.advanceN_stdout]

/-- With blocks of the default size, every block takes that many bytes, missing or not. -/
lemma length_emissionOf {w : Window D}
    (hout : ∀ {k : ℕ} {b : BlockState D}, w.pool[k]? = some b →
      b.output.length = defaultBlockSize) (k : ℕ) :
    (emissionOf k w.pool[k]?).data.length = defaultBlockSize := by
  cases hb : w.pool[k]? with
  | none => simp [emissionOf]
  | some b => rw [emissionOf_some_data, hout hb]

lemma length_flatMap_emissionOf {w : Window D}
    (hout : ∀ {k : ℕ} {b : BlockState D}, w.pool[k]? = some b →
      b.output.length = defaultBlockSize) (ks : List ℕ) :
    ((ks.map fun k => emissionOf k w.pool[k]?).flatMap Emission.data).length
      = defaultBlockSize * ks.length := by
  have hsizes : EmissionSizes defaultBlockSize defaultBlockSize
      (ks.map fun k => emissionOf k w.pool[k]?) := by
    intro e he
    obtain ⟨k, -, rfl⟩ := List.mem_map.mp he
    rw [length_emissionOf hout, ite_self]
  rw [(length_flatMap_data_eq_iff hsizes).mpr (Or.inl rfl), List.length_map]

/-- In a pool without gaps the flush and the forced loop write the same emissions. -/
lemma Window.NoGap.flush_stdout {w : Window D} (h : w.NoGap) (hwf : w.Wf) :
    (flushRemaining w).stdout = w.forced.stdout := by
  rw [flushRemaining_stdout]
  cases hlast : w.pool.keys.getLast? with
  | none =>
    rw [List.getLast?_eq_none_iff.mp hlast]
    simp [Window.forced, hlast]
  | some hi => rw [w.forced_stdout hlast, h.keys_eq hwf hlast]

/-- A gap shows in the number of bytes. -/
lemma noGap_of_bytes_eq {w : Window D} (hwf : w.Wf)
    (hout : ∀ {k : ℕ} {b : BlockState D}, w.pool[k]? = some b →
      b.output.length = defaultBlockSize)
    (hbytes : (flushRemaining w).bytes = w.forced.bytes) : w.NoGap := by
  intro l k hl hlk hk
  obtain ⟨b, hb⟩ := BTreeMap.mem_iff.mp hk
  cases hlast : w.pool.keys.getLast? with
  | none =>
    rw [BTreeMap.getLast?_keys_eq_none.mp hlast k] at hb
    cases hb
  | some hi =>
    have hmax := (BTreeMap.getLast?_keys_eq_some.mp hlast).2
    -- as many keys as there are places between the cursor and the largest key
    have hcount : w.pool.keys.length = hi + 1 - w.cursor := by
      have hlen := congrArg List.length hbytes
      simp only [Window.bytes, flushRemaining_stdout, w.forced_stdout hlast, List.flatMap_append,
        List.length_append, length_flatMap_emissionOf hout, List.length_range'] at hlen
      have hpos : 0 < defaultBlockSize := by decide
      exact Nat.eq_of_mul_eq_mul_left hpos (by omega)
    have hsub : w.pool.keys.toFinset ⊆ Finset.Ico w.cursor (hi + 1) := by
      intro j hj
      obtain ⟨bj, hbj⟩ := BTreeMap.mem_keys.mp (List.mem_toFinset.mp hj)
      have := hmax j bj hbj
      exact Finset.mem_Ico.mpr ⟨hwf.cursor_le_key hbj, by omega⟩
    have heq := Finset.eq_of_subset_of_card_le hsub (by
      rw [Nat.card_Ico, List.toFinset_card_of_nodup Std.ExtTreeMap.nodup_keys, hcount])
    have hmem : l ∈ Finset.Ico w.cursor (hi + 1) := by
      have := hmax k b hb
      exact Finset.mem_Ico.mpr ⟨hl, by omega⟩
    rw [← heq, List.mem_toFinset] at hmem
    exact BTreeMap.mem_iff.mpr (BTreeMap.mem_keys.mp hmem)

/-- **The end of the input.** In a settled window whose blocks all have the default size, the
flush agrees with the live loop, which a window of zero forces past the largest key, exactly when
no block before a block of the pool is missing. -/
theorem flushLikeLive_iff (hlaws : env.dec.LengthLaws) {c : Conf D} (h : Reachable env c)
    (hrecv : c.point = .recv)
    (hsize : ∀ {k : ℕ} {b : BlockState D}, c.window.pool[k]? = some b →
      b.blockSize = defaultBlockSize) :
    (∀ hi clk, c.window.pool.keys.getLast? = some hi → ∃ c',
      Machine.run (step env.unbuffered) { c with point := .drain }
        (List.replicate (hi + 1 - c.window.cursor) (.pass clk)) = some c' ∧
        c'.window = c.window.forced) ∧
    (FlushLikeLive c.window ↔ c.window.NoGap) := by
  have hopen : c.point ≠ .closed := by
    rw [hrecv]
    decide
  have hwf := h.wf hopen
  have hout : ∀ {k : ℕ} {b : BlockState D}, c.window.pool[k]? = some b →
      b.output.length = defaultBlockSize := by
    intro k b hb
    rw [(h.sized hlaws hopen hb).length_output, hsize hb]
  refine ⟨fun hi clk hhi => ?_, fun hlive => noGap_of_bytes_eq hwf hout hlive.bytes_eq,
    fun hgap => ?_⟩
  · have hwf' : ({ c with point := .drain } : Conf D).window.Wf := hwf
    obtain ⟨c', hrun, -, hw⟩ := run_forced hwf' rfl hhi clk
    exact ⟨c', hrun, hw⟩
  have hstdout := hgap.flush_stdout hwf
  refine ⟨by rw [Window.bytes, Window.bytes, hstdout], fun hpos k b hb => ?_⟩
  cases hlast : c.window.pool.keys.getLast? with
  | none =>
    rw [BTreeMap.getLast?_keys_eq_none.mp hlast k] at hb
    cases hb
  | some hi =>
    -- block `k` is piece `k - cursor` of what is written after the live bytes
    have hck := hwf.cursor_le_key hb
    have hfc := hwf.first_le
    have hkhi := (BTreeMap.getLast?_keys_eq_some.mp hlast).2 k b hb
    have hoff : (k - c.window.first) * defaultBlockSize
        = c.window.bytes.length + (k - c.window.cursor) * defaultBlockSize := by
      rw [hpos, ← Nat.add_mul]
      congr 1
      omega
    rw [Window.bytes, hstdout, c.window.forced_stdout hlast, List.flatMap_append, hoff]
    change slice (c.window.bytes ++ _) _ _ = _
    have hplace : c.window.cursor + 1 * (k - c.window.cursor) = k := by omega
    rw [slice_append_right, List.flatMap_def, slice_flatten (fun data hdata => ?_)
      (show k - c.window.cursor < _ by simp; omega)]
    · simp only [List.getElem_map, List.getElem_range', hplace, hb, emissionOf_some_data]
    · obtain ⟨e, he, rfl⟩ := List.mem_map.mp hdata
      obtain ⟨j, -, rfl⟩ := List.mem_map.mp he
      exact length_emissionOf hout j

/-- One packet of each of the given blocks of the default size. -/
def openBlocks (sbns : List UInt8) : List Action :=
  sbns.flatMap fun sbn =>
    [.event 0 (Reference.frame defaultBlockSymbols sbn 0 (Reference.flat sbn)), .pass (Clock.at 0)]

/-- A settled window with the given blocks of the default size in its pool. -/
lemma exists_openBlocks (sbns : List UInt8) (keys : List ℕ)
    (hobs : (runFrom (Reference.env 8) 0 (openBlocks sbns)).map (fun c =>
      (c.point, c.window.cursor, c.window.pool.keys)) = some (.recv, 0, keys))
    (hcheck : Machine.checkSteps (step (Reference.env 8)) (fun c a =>
      decide (AcceptsSize (Reference.env 8) defaultBlockSize c.window a)) (init 0)
      (openBlocks sbns) = true) :
    ∃ c : Conf Reference.Decoder, Reachable (Reference.env 8) c ∧ c.point = .recv ∧
      c.window.cursor = 0 ∧ c.window.pool.keys = keys ∧
      ∀ {k : ℕ} {b}, c.window.pool[k]? = some b → b.blockSize = defaultBlockSize := by
  obtain ⟨c, hc, hobs⟩ := exists_of_run_map hobs
  simp only [Prod.mk.injEq] at hobs
  have hsize := Machine.eachStep_of_decide hcheck
  exact ⟨c, ⟨0, _, hc⟩, hobs.1, hobs.2.1, hobs.2.2,
    fun hb => run_blockSize hsize hc (by rw [hobs.1]; decide) hb⟩

/-- Blocks 0 and 1 are open when the input ends. -/
theorem flushLikeLive_two_blocks : ∃ c : Conf Reference.Decoder,
    c.window.pool.keys = [0, 1] ∧ FlushLikeLive c.window := by
  obtain ⟨c, hc, hrecv, hcursor, hkeys, hsize⟩ :=
    exists_openBlocks [0, 1] [0, 1] (by decide +kernel) (by decide +kernel)
  refine ⟨c, hkeys, (flushLikeLive_iff Reference.decoder_lengthLaws hc hrecv hsize).2.mpr ?_⟩
  intro l k hl hlk hk
  rw [← Std.ExtTreeMap.mem_keys, hkeys] at hk ⊢
  simp only [List.mem_cons, List.not_mem_nil, or_false] at hk ⊢
  omega

/-- Blocks 0 and 2 are open when the input ends, and block 1 is missing. -/
theorem flushLikeLive_gap : ∃ c : Conf Reference.Decoder,
    Reachable (Reference.env 8) c ∧ c.point = .recv ∧ c.window.pool.keys = [0, 2] ∧
      (∀ {k : ℕ} {b}, c.window.pool[k]? = some b → b.blockSize = defaultBlockSize) ∧
      (flushRemaining c.window).bytes ≠ c.window.forced.bytes := by
  obtain ⟨c, hc, hrecv, hcursor, hkeys, hsize⟩ :=
    exists_openBlocks [0, 2] [0, 2] (by decide +kernel) (by decide +kernel)
  refine ⟨c, hc, hrecv, hkeys, hsize, fun hbytes => ?_⟩
  have hopen : c.point ≠ .closed := by
    rw [hrecv]
    decide
  have hgap := noGap_of_bytes_eq (hc.wf hopen) (fun {k b} hb => by
    rw [(hc.sized Reference.decoder_lengthLaws hopen hb).length_output, hsize hb]) hbytes
  have hmem : 1 ∈ c.window.pool := hgap 1 2 (by omega) (by decide) (by
    rw [← Std.ExtTreeMap.mem_keys, hkeys]
    decide)
  rw [← Std.ExtTreeMap.mem_keys, hkeys] at hmem
  revert hmem
  decide

end RaptorqTs
