import RaptorqTs.Dec.Steps

/-!
# The reorder window

The pool, the cursor and `highest_seen` are updated in different branches of the loop.
`Window.Wf` is what they all keep; `Window.Settled` is what the drain loop has reached when
it ends. Together they bound the pool by `max_in_flight`.
-/

namespace RaptorqTs

variable {D : Type} {env : Env D}

namespace Window

/-- The pool lies between the cursor and `highest_seen`, and the block that raised
`highest_seen` stays in the pool until the cursor passes it. -/
structure Wf (w : Window D) : Prop where
  idle : w.started = false → w = Window.init
  first_le : w.first ≤ w.cursor
  cursor_le_key : ∀ {k b}, w.pool[k]? = some b → w.cursor ≤ k
  key_le_highest : ∀ {k b}, w.pool[k]? = some b → k ≤ w.highestSeen
  highest_mem : w.started = true → w.cursor ≤ w.highestSeen →
    ∃ b, w.pool[w.highestSeen]? = some b

/-! ## Ingesting a packet -/

@[simp] lemma get_hold (w : Window D) (logical : ℕ) (b : BlockState D) (k : ℕ) :
    (w.hold logical b).pool[k]? = if logical = k then some b else w.pool[k]? :=
  BTreeMap.get_insert

@[simp] lemma hold_cursor (w : Window D) (logical : ℕ) (b : BlockState D) :
    (w.hold logical b).cursor = w.cursor := rfl

@[simp] lemma hold_first (w : Window D) (logical : ℕ) (b : BlockState D) :
    (w.hold logical b).first = w.first := rfl

@[simp] lemma hold_started (w : Window D) (logical : ℕ) (b : BlockState D) :
    (w.hold logical b).started = w.started := rfl

@[simp] lemma hold_stdout (w : Window D) (logical : ℕ) (b : BlockState D) :
    (w.hold logical b).stdout = w.stdout := rfl

/-- After a packet has been ingested, an entry of the pool is the packet's or was there before. -/
lemma get_of_get_hold {w : Window D} {sbnU8 : UInt8} {b b' : BlockState D} {k : ℕ}
    (hk : ((w.joined sbnU8).hold (w.route sbnU8) b).pool[k]? = some b') :
    (w.route sbnU8 = k ∧ b' = b) ∨ (w.route sbnU8 ≠ k ∧ w.pool[k]? = some b') := by
  have hcases := BTreeMap.get_of_get_insert hk
  rwa [joined_pool] at hcases

lemma hold_highestSeen (w : Window D) (logical : ℕ) (b : BlockState D) :
    (w.hold logical b).highestSeen = max w.highestSeen logical := by
  simp only [hold]
  split <;> omega

lemma get_init (k : ℕ) : (Window.init : Window D).pool[k]? = none :=
  Std.ExtTreeMap.getElem?_empty

lemma Wf.init : (Window.init : Window D).Wf where
  idle _ := rfl
  first_le := le_refl _
  cursor_le_key h := by rw [get_init] at h; cases h
  key_le_highest h := by rw [get_init] at h; cases h
  highest_mem h := by cases h

/-- Nothing is in the pool before the first accepted frame. -/
lemma Wf.pool_of_idle {w : Window D} (h : w.Wf) (hidle : w.started = false) (k : ℕ) :
    w.pool[k]? = none := by
  rw [h.idle hidle, get_init]

lemma Wf.hold {w : Window D} {logical : ℕ} {b : BlockState D} (h : w.Wf)
    (hstarted : w.started = true) (hle : w.cursor ≤ logical) : (w.hold logical b).Wf := by
  refine ⟨fun hidle => ?_, h.first_le, @fun k b' hk => ?_, @fun k b' hk => ?_, fun _ _ => ?_⟩
  · rw [hold_started, hstarted] at hidle
    cases hidle
  · rcases BTreeMap.get_of_get_insert hk with ⟨rfl, -⟩ | ⟨-, hbefore⟩
    · exact hle
    · exact h.cursor_le_key hbefore
  · rw [hold_highestSeen]
    rcases BTreeMap.get_of_get_insert hk with ⟨rfl, -⟩ | ⟨-, hbefore⟩
    · exact Nat.le_max_right _ _
    · exact le_trans (h.key_le_highest hbefore) (Nat.le_max_left _ _)
  · rw [hold_highestSeen, get_hold]
    -- the entry held is the highest, or the highest is still there
    by_cases hraise : w.highestSeen ≤ logical
    · rw [Nat.max_eq_right hraise, if_pos rfl]
      exact ⟨b, rfl⟩
    · rw [Nat.max_eq_left (by omega), if_neg (by omega)]
      exact h.highest_mem hstarted (by omega)

/-- The first frame joins the numbering at its own block. -/
lemma Wf.join_hold {w : Window D} {sbnU8 : UInt8} {b : BlockState D} (h : w.Wf)
    (hidle : w.started = false) : ((w.joined sbnU8).hold (w.route sbnU8) b).Wf := by
  -- the pool was empty, so the new entry is its only one
  have hget : ∀ k, ((w.joined sbnU8).hold (w.route sbnU8) b).pool[k]?
      = if sbnU8.toNat = k then some b else none := by
    intro k
    rw [get_hold, joined_pool, h.pool_of_idle hidle, route_of_idle hidle]
  have hkey : ∀ {k b'}, ((w.joined sbnU8).hold (w.route sbnU8) b).pool[k]? = some b' →
      sbnU8.toNat = k := by
    intro k b' hk
    by_contra hne
    rw [hget, if_neg hne] at hk
    cases hk
  have hhighest : ((w.joined sbnU8).hold (w.route sbnU8) b).highestSeen = sbnU8.toNat := by
    rw [hold_highestSeen, route_of_idle hidle, joined_of_idle hidle]
    exact Nat.max_self _
  refine ⟨fun hs => ?_, ?_, fun hk => ?_, fun hk => ?_, fun _ _ => ?_⟩
  · rw [hold_started, joined_started] at hs
    cases hs
  · rw [hold_first, hold_cursor, joined_of_idle hidle]
  · rw [hold_cursor, joined_of_idle hidle, ← hkey hk]
  · rw [hhighest, hkey hk]
  · exact ⟨b, by rw [hhighest, hget, if_pos rfl]⟩

lemma Wf.accept {w : Window D} {sbnU8 : UInt8} {b : BlockState D} (h : w.Wf)
    (hred : w.redundant sbnU8 = false) : ((w.joined sbnU8).hold (w.route sbnU8) b).Wf := by
  cases hstarted : w.started with
  | false => exact h.join_hold hstarted
  | true =>
    have hle := cursor_le_route hred
    rw [joined_of_started hstarted] at hle ⊢
    exact h.hold hstarted hle

lemma Wf.cursor_le_joined {w : Window D} (h : w.Wf) (sbnU8 : UInt8) :
    w.cursor ≤ (w.joined sbnU8).cursor := by
  cases hstarted : w.started with
  | false =>
    rw [h.idle hstarted]
    exact Nat.zero_le _
  | true => rw [joined_of_started hstarted]

lemma Wf.first_le_joined {w : Window D} (h : w.Wf) (sbnU8 : UInt8) :
    (w.joined sbnU8).first ≤ (w.joined sbnU8).cursor := by
  cases hstarted : w.started with
  | false => rw [joined_of_idle hstarted]
  | true =>
    rw [joined_of_started hstarted]
    exact h.first_le

/-- After a packet has been ingested, the cursor is at most `highest_seen`. -/
lemma cursor_le_accept {w : Window D} {sbnU8 : UInt8} {b : BlockState D}
    (hred : w.redundant sbnU8 = false) :
    ((w.joined sbnU8).hold (w.route sbnU8) b).cursor
      ≤ ((w.joined sbnU8).hold (w.route sbnU8) b).highestSeen := by
  rw [hold_cursor, hold_highestSeen]
  exact le_trans (cursor_le_route hred) (Nat.le_max_right _ _)

/-- Ingesting a packet writes nothing, and the first one moves the cursor with `first`. -/
lemma Wf.length_stdout_accept {w : Window D} (h : w.Wf) (sbnU8 : UInt8) (b : BlockState D)
    (hlen : w.stdout.length = w.cursor - w.first) :
    ((w.joined sbnU8).hold (w.route sbnU8) b).stdout.length =
      ((w.joined sbnU8).hold (w.route sbnU8) b).cursor -
        ((w.joined sbnU8).hold (w.route sbnU8) b).first := by
  rw [hold_stdout, joined_stdout, hold_cursor, hold_first]
  cases hstarted : w.started with
  | false =>
    have hempty : w.stdout = [] := by rw [h.idle hstarted]; rfl
    simp [joined_of_idle hstarted, hempty]
  | true => rw [joined_of_started hstarted, hlen]

/-! ## Emitting the head -/

@[simp] lemma advance_cursor (w : Window D) : w.advance.cursor = w.cursor + 1 := rfl
@[simp] lemma advance_started (w : Window D) : w.advance.started = w.started := rfl
@[simp] lemma advance_first (w : Window D) : w.advance.first = w.first := rfl
@[simp] lemma advance_highestSeen (w : Window D) : w.advance.highestSeen = w.highestSeen := rfl

lemma get_advance (w : Window D) (k : ℕ) :
    w.advance.pool[k]? = if w.cursor = k then none else w.pool[k]? :=
  BTreeMap.get_erase

lemma get_of_get_advance {w : Window D} {k : ℕ} {b : BlockState D}
    (h : w.advance.pool[k]? = some b) : w.cursor ≠ k ∧ w.pool[k]? = some b :=
  BTreeMap.get_of_get_erase h

/-- The cursor moves with each emission. -/
lemma Wf.length_stdout_advance {w : Window D} (h : w.Wf)
    (hlen : w.stdout.length = w.cursor - w.first) :
    w.advance.stdout.length = w.advance.cursor - w.advance.first := by
  have hle := h.first_le
  show (w.stdout ++ [emissionOf w.cursor w.pool[w.cursor]?]).length = w.cursor + 1 - w.first
  rw [List.length_append, List.length_singleton, hlen]
  omega

lemma Wf.advance {w : Window D} (h : w.Wf) (hstarted : w.started = true) : w.advance.Wf := by
  refine ⟨fun hidle => ?_, Nat.le_succ_of_le h.first_le, fun hk => ?_, fun hk => ?_,
    fun _ hle => ?_⟩
  · rw [advance_started, hstarted] at hidle
    cases hidle
  · obtain ⟨hne, hk⟩ := get_of_get_advance hk
    have hle := h.cursor_le_key hk
    rw [advance_cursor]
    omega
  · exact h.key_le_highest (get_of_get_advance hk).2
  · rw [advance_cursor, advance_highestSeen] at hle
    rw [advance_highestSeen, get_advance, if_neg (by omega)]
    exact h.highest_mem hstarted (by omega)

end Window

/-! ## The guards -/

/-- The window force looks at the largest key, so at any. -/
lemma shouldForce_iff_exists {w : Window D} : shouldForce env w = true ↔
    ∃ k b, w.pool[k]? = some b ∧ wrappingAdd w.cursor env.maxInFlight ≤ k := by
  unfold shouldForce
  cases hlast : w.pool.keys.getLast? with
  | none =>
    rw [BTreeMap.getLast?_keys_eq_none] at hlast
    simp [hlast]
  | some hi =>
    obtain ⟨⟨b, hb⟩, hmax⟩ := BTreeMap.getLast?_keys_eq_some.mp hlast
    simp only [decide_eq_true_eq]
    constructor
    · intro hle
      exact ⟨hi, b, hb, hle⟩
    · rintro ⟨k, b', hk, hle⟩
      exact le_trans hle (hmax k b' hk)

/-- The window force, when the sum does not overflow. -/
lemma shouldForce_eq_true {w : Window D} (hfit : w.cursor + env.maxInFlight < 2 ^ 64) :
    shouldForce env w = true ↔ ∃ k b, w.pool[k]? = some b ∧ w.cursor + env.maxInFlight ≤ k := by
  rw [shouldForce_iff_exists, wrappingAdd_of_lt hfit]

/-- `should_force` looks at the largest key, the zero arm also at `highest_seen`; in a
started window they agree. -/
lemma Window.Wf.shouldForce_iff {w : Window D} (h : w.Wf) (hstarted : w.started = true)
    (hfit : w.cursor + env.maxInFlight < 2 ^ 64) :
    shouldForce env w = true ↔ w.cursor + env.maxInFlight ≤ w.highestSeen := by
  rw [shouldForce_eq_true hfit]
  constructor
  · rintro ⟨k, b, hk, hle⟩
    exact le_trans hle (h.key_le_highest hk)
  · intro hle
    obtain ⟨b, hb⟩ := h.highest_mem hstarted (by omega)
    exact ⟨w.highestSeen, b, hb, hle⟩

lemma shouldForce_of_empty {w : Window D} (h : ∀ k : ℕ, w.pool[k]? = none) :
    shouldForce env w = false := by
  simp only [shouldForce, BTreeMap.getLast?_keys_eq_none.mpr h]

/-- Nothing is emitted before the first accepted frame. -/
lemma Window.Wf.started_of_mayAdvance {w : Window D} {t : Instant} (h : w.Wf)
    (hmay : mayAdvance env t w = true) : w.started = true := by
  by_contra hidle
  have hidle : w.started = false := by simpa using hidle
  simp [mayAdvance, h.pool_of_idle hidle, zeroGuard, hidle] at hmay

/-- Something is in the pool of a started window only. -/
lemma Window.Wf.started_of_get {w : Window D} (h : w.Wf) {k : ℕ} {b : BlockState D}
    (hk : w.pool[k]? = some b) : w.started = true := by
  by_contra hidle
  rw [h.pool_of_idle (by simpa using hidle)] at hk
  cases hk

/-- A forced window advances, whether its head is in the pool or not. -/
lemma mayAdvance_of_shouldForce {w : Window D} (t : Instant) (hstarted : w.started = true)
    (hforce : shouldForce env w = true) : mayAdvance env t w = true := by
  unfold mayAdvance
  cases w.pool[w.cursor]? with
  | some b => simp [hforce]
  | none => simp [zeroGuard, hstarted, hforce]

/-- The head that is emitted has been seen, or a later block has. -/
lemma Window.Wf.cursor_le_of_mayAdvance {w : Window D} {t : Instant} (h : w.Wf)
    (hfit : w.cursor + env.maxInFlight < 2 ^ 64) (hmay : mayAdvance env t w = true) :
    w.cursor ≤ w.highestSeen := by
  have hstarted := h.started_of_mayAdvance hmay
  cases hhead : w.pool[w.cursor]? with
  | some b => exact h.key_le_highest hhead
  | none =>
    simp only [mayAdvance, hhead, zeroGuard, hstarted, Bool.true_and, Bool.or_eq_true,
      decide_eq_true_eq, wrappingAdd_of_lt hfit, h.shouldForce_iff hstarted hfit] at hmay
    omega

/-- What holds when the drain loop has ended. -/
structure Settled (env : Env D) (w : Window D) : Prop where
  head_open : ∀ {b}, w.pool[w.cursor]? = some b → b.completed = none
  not_forced : shouldForce env w = false

lemma Settled.of_mayAdvance {w : Window D} {t : Instant} (h : w.Wf)
    (hmay : mayAdvance env t w = false) : Settled env w := by
  cases hhead : w.pool[w.cursor]? with
  | some b =>
    simp only [mayAdvance, hhead, Bool.or_eq_false_iff] at hmay
    refine ⟨fun hb => ?_, hmay.2⟩
    rw [hhead, Option.some.injEq] at hb
    subst hb
    simpa using hmay.1.1
  | none =>
    refine ⟨fun hb => (Option.some_ne_none _ (hb.symm.trans hhead)).elim, ?_⟩
    cases hstarted : w.started with
    | false => exact shouldForce_of_empty (h.pool_of_idle hstarted)
    | true =>
      simp only [mayAdvance, hhead, zeroGuard, hstarted, Bool.true_and,
        Bool.or_eq_false_iff] at hmay
      exact hmay.1

lemma Settled.init : Settled env Window.init where
  head_open h := by rw [Window.get_init] at h; cases h
  not_forced := shouldForce_of_empty Window.get_init

/-! ## Reachable windows -/

/-- The invariant of the loop. -/
lemma Reachable.wf_settled {c : Conf D} (h : Reachable env c) :
    (c.point ≠ .closed → c.window.Wf) ∧ (c.point = .recv → Settled env c.window) := by
  refine Reachable.window_induction (P := fun p w =>
    (p ≠ .closed → w.Wf) ∧ (p = .recv → Settled env w))
    ⟨fun _ => Window.Wf.init, fun _ => Settled.init⟩ ?_ h
  rintro p w a p' w' ⟨hwf, hsettled⟩ hm
  cases hm with
  | drop _ => exact ⟨hwf, hsettled⟩
  | ignore _ => exact ⟨fun _ => hwf (by decide), fun h => by cases h⟩
  | accept _ hred _ => exact ⟨fun _ => (hwf (by decide)).accept hred, fun h => by cases h⟩
  | advance hmay =>
    have hw := hwf (by decide)
    exact ⟨fun _ => hw.advance (hw.started_of_mayAdvance hmay), fun h => by cases h⟩
  | settle hmay =>
    have hw := hwf (by decide)
    exact ⟨fun _ => hw, fun _ => Settled.of_mayAdvance hw hmay⟩
  | flush => exact ⟨fun h => absurd rfl h, fun h => by cases h⟩

lemma Reachable.wf {c : Conf D} (h : Reachable env c) (hopen : c.point ≠ .closed) :
    c.window.Wf := h.wf_settled.1 hopen

lemma Reachable.settled {c : Conf D} (h : Reachable env c) (hrecv : c.point = .recv) :
    Settled env c.window := h.wf_settled.2 hrecv

/-- **Invariant rule** for the window of the running loop, which only ingesting a packet and
emitting the head can change. -/
theorem Reachable.open_induction {P : Window D → Prop} (hinit : P Window.init)
    (haccept : ∀ {w now oti pkt b}, w.Wf → P w →
      w.redundant pkt.payloadId.sourceBlockNumber = false →
      (w.entry env now (w.route pkt.payloadId.sourceBlockNumber)
        pkt.payloadId.sourceBlockNumber oti).ingest env.dec pkt = some b →
      P ((w.joined pkt.payloadId.sourceBlockNumber).hold
        (w.route pkt.payloadId.sourceBlockNumber) b))
    (hadvance : ∀ {w t}, w.Wf → P w → mayAdvance env t w = true → P w.advance) {c : Conf D}
    (h : Reachable env c) (hopen : c.point ≠ .closed) : P c.window := by
  have hP : c.point ≠ .closed → c.window.Wf ∧ P c.window := by
    refine Reachable.window_induction (P := fun p w => p ≠ .closed → w.Wf ∧ P w)
      (fun _ => ⟨Window.Wf.init, hinit⟩) ?_ h
    intro p w a p' w' hP hm
    cases hm with
    | drop _ => exact hP
    | ignore _ | settle _ => exact fun _ => hP (by decide)
    | accept _ hred hb =>
      obtain ⟨hwf, hw⟩ := hP (by decide)
      exact fun _ => ⟨hwf.accept hred, haccept hwf hw hred hb⟩
    | advance hmay =>
      obtain ⟨hwf, hw⟩ := hP (by decide)
      exact fun _ => ⟨hwf.advance (hwf.started_of_mayAdvance hmay), hadvance hwf hw hmay⟩
    | flush => exact fun h => absurd rfl h
  exact (hP hopen).2

/-- The cursor never passes the block after `highest_seen`, as long as the window's end can
be computed. The bound on the last cursor covers the earlier ones. -/
lemma Reachable.cursor_le {c : Conf D} (h : Reachable env c) (hopen : c.point ≠ .closed)
    (hfit : c.window.cursor + env.maxInFlight < 2 ^ 64) (hstarted : c.window.started = true) :
    c.window.cursor ≤ c.window.highestSeen + 1 := by
  have hP : c.window.cursor + env.maxInFlight < 2 ^ 64 → c.window.started = true →
      c.window.cursor ≤ c.window.highestSeen + 1 := by
    apply h.open_induction (P := fun w => w.cursor + env.maxInFlight < 2 ^ 64 →
      w.started = true → w.cursor ≤ w.highestSeen + 1) _ _ _ hopen
    · intro _ hstarted
      cases hstarted
    · intro w now oti pkt b _ _ hred _ _ _
      exact Nat.le_succ_of_le (Window.cursor_le_accept hred)
    · intro w t hwf _ hmay hfit _
      rw [Window.advance_cursor] at hfit ⊢
      have := hwf.cursor_le_of_mayAdvance (by omega) hmay
      rw [Window.advance_highestSeen]
      omega
  exact hP hfit hstarted

/-- A settled window holds no key past its end. A sum that wraps only forces more of them out. -/
lemma Settled.key_lt {w : Window D} (h : Settled env w) {k : ℕ} {b : BlockState D}
    (hk : w.pool[k]? = some b) : k < w.cursor + env.maxInFlight := by
  by_contra hlt
  have hwrap := wrappingAdd_le w.cursor env.maxInFlight
  have hforce : shouldForce env w = true := shouldForce_iff_exists.mpr ⟨k, b, hk, by omega⟩
  rw [h.not_forced] at hforce
  cases hforce

/-- **The reorder window.** Between events the pool lies between the cursor and
`highest_seen`, and in a started window the largest key is `highest_seen` unless the cursor
has passed it. All keys are less than `max_in_flight` ahead of the cursor, which bounds the
size of the pool. -/
theorem reorder_window {c : Conf D} (h : Reachable env c) (hrecv : c.point = .recv)
    (hfit : c.window.cursor + env.maxInFlight < 2 ^ 64) :
    (∀ k ∈ c.window.pool, c.window.cursor ≤ k ∧ k ≤ c.window.highestSeen) ∧
      (c.window.started = true → c.window.cursor ≤ c.window.highestSeen + 1) ∧
      (c.window.started = true → c.window.cursor ≤ c.window.highestSeen →
        c.window.highestSeen ∈ c.window.pool) ∧
      (c.window.started = true → (shouldForce env c.window = true ↔
        c.window.cursor + env.maxInFlight ≤ c.window.highestSeen)) ∧
      (∀ k ∈ c.window.pool, k < c.window.cursor + env.maxInFlight) ∧
      c.window.pool.size ≤ env.maxInFlight := by
  have hopen : c.point ≠ .closed := by
    rw [hrecv]
    decide
  have hwf := h.wf hopen
  have hsettled := h.settled hrecv
  refine ⟨fun k hk => ?_, h.cursor_le hopen hfit, fun hstarted hle => ?_,
    fun hstarted => hwf.shouldForce_iff hstarted hfit, fun k hk => ?_, ?_⟩
  · obtain ⟨b, hb⟩ := BTreeMap.mem_iff.mp hk
    exact ⟨hwf.cursor_le_key hb, hwf.key_le_highest hb⟩
  · exact BTreeMap.mem_iff.mpr (hwf.highest_mem hstarted hle)
  · obtain ⟨b, hb⟩ := BTreeMap.mem_iff.mp hk
    exact hsettled.key_lt hb
  · exact BTreeMap.size_le_of_keys_in fun k b hb =>
      ⟨hwf.cursor_le_key hb, hsettled.key_lt hb⟩

/-- The window after blocks 3 and 5 have been started with a window of 4. -/
theorem reorder_window_started :
    ∃ c : Conf Reference.Decoder, c.window.pool.keys = [3, 5] ∧ c.window.pool.size ≤ 4 := by
  have hrun : (runFrom (Reference.env 4) 0
      [.event 0 (Reference.frame 2 3 0 (Reference.flat 1)), .pass (Clock.at 0),
        .event 0 (Reference.frame 2 5 1 (Reference.flat 2)), .pass (Clock.at 0)]).map
      (fun c => (c.point, c.window.pool.keys, c.window.cursor)) = some (.recv, [3, 5], 3) := by
    decide +kernel
  obtain ⟨c, hc, hobs⟩ := exists_of_run_map hrun
  simp only [Prod.mk.injEq] at hobs
  have hfit : c.window.cursor + (Reference.env 4).maxInFlight < 2 ^ 64 := by
    rw [hobs.2.2]
    decide
  exact ⟨c, hobs.2.1, (reorder_window ⟨0, _, hc⟩ hobs.1 hfit).2.2.2.2.2⟩

/-- Before the first accepted frame the cursor equals `highest_seen`, but the pool is
empty, and the zero arm's second test is true when the window has size zero. -/
theorem reorder_window_idle :
    ∃ c : Conf Reference.Decoder, Reachable (Reference.env 0) c ∧ c.point = .recv ∧
      c.window.cursor + (Reference.env 0).maxInFlight < 2 ^ 64 ∧
      c.window.cursor ≤ c.window.highestSeen ∧ c.window.highestSeen ∉ c.window.pool ∧
      ¬ (shouldForce (Reference.env 0) c.window = true ↔
        c.window.cursor + (Reference.env 0).maxInFlight ≤ c.window.highestSeen) := by
  refine ⟨init 0, ⟨0, [], rfl⟩, rfl, by decide, by decide, ?_, ?_⟩
  · exact BTreeMap.not_mem_iff.mpr (Window.get_init _)
  · have hforce : shouldForce (Reference.env 0) (init (D := Reference.Decoder) 0).window = false :=
      shouldForce_of_empty Window.get_init
    rw [hforce]
    decide

end RaptorqTs
