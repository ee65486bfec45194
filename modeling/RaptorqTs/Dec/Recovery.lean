import RaptorqTs.Dec.Content

/-!
# Recovery

When the packets of each block become sufficient before the window moves past the block, the
decoder gives up on nothing: each block leaves the pool decoded, in its turn, and the output
is the blocks of the stream one after the other. The true index of a block and the number
the decoder unwraps are the same here, as the first packet delivered is one of block 0.
-/

namespace RaptorqTs

variable {D : Type}

/-! ## Deliveries -/

/-- The packets of block `l` became sufficient at some point of the delivery. -/
def Ready (code : FountainCode) (k l : ℕ) (os : List Origin) : Prop :=
  ∃ pre, pre <+: os ∧ code.Sufficient k (esisOf l pre).toFinset

/-- What is asked of the packets delivered, in their order: the first is one of block 0, and a
block is ready before any packet of a block `maxInFlight` later. -/
structure InTime (code : FountainCode) (k maxInFlight : ℕ) (os : List Origin) : Prop where
  first : ∀ o ∈ os.head?, o.block = 0
  timely : ∀ pre o post, os = pre ++ o :: post → ∀ l, l + maxInFlight ≤ o.block →
    Ready code k l pre

/-- What the encoder and the wire see to: the packets are those of `n` blocks, and none is half
an SBN period behind another. -/
structure Delivery (code : FountainCode) (k maxInFlight n : ℕ) (os : List Origin) : Prop extends
    InTime code k maxInFlight os where
  block_lt : ∀ o ∈ os, o.block < n
  esi_lt : ∀ o ∈ os, o.esi < 2 ^ 24
  lag : os.Pairwise fun o o' => o.block < o'.block + 128

section Delivery

variable {code : FountainCode} {k l maxInFlight n : ℕ} {os os' : List Origin} {o : Origin}

lemma Ready.mono (h : Ready code k l os) (hp : os <+: os') : Ready code k l os' := by
  obtain ⟨pre, hpre, hsuff⟩ := h
  exact ⟨pre, hpre.trans hp, hsuff⟩

/-- A packet of another block does not make a block ready. -/
lemma ready_concat_of_ne (hne : o.block ≠ l) :
    Ready code k l (os ++ [o]) ↔ Ready code k l os := by
  constructor
  · rintro ⟨pre, hpre, hsuff⟩
    rcases List.prefix_concat_iff.mp hpre with rfl | hpre
    · rw [esisOf_concat, if_neg hne, List.append_nil] at hsuff
      exact ⟨os, List.prefix_rfl, hsuff⟩
    · exact ⟨pre, hpre, hsuff⟩
  · intro h
    exact h.mono (List.prefix_append _ _)

/-- A packet of the block itself makes it ready if what is there then is sufficient. -/
lemma ready_concat_self : Ready code k o.block (os ++ [o]) ↔ Ready code k o.block os ∨
    code.Sufficient k (insert o.esi (esisOf o.block os).toFinset) := by
  constructor
  · rintro ⟨pre, hpre, hsuff⟩
    rcases List.prefix_concat_iff.mp hpre with rfl | hpre
    · rw [toFinset_esisOf_concat] at hsuff
      exact Or.inr hsuff
    · exact Or.inl ⟨pre, hpre, hsuff⟩
  · rintro (h | hsuff)
    · exact h.mono (List.prefix_append _ _)
    · exact ⟨os ++ [o], List.prefix_rfl, by rwa [toFinset_esisOf_concat]⟩

/-- A block without packets is not ready. -/
lemma not_ready_of_nil (hempty : ¬ code.Sufficient k ∅) (h : esisOf l os = []) :
    ¬ Ready code k l os := by
  rintro ⟨pre, ⟨post, rfl⟩, hsuff⟩
  have hnil : esisOf l pre = [] := by
    unfold esisOf at h ⊢
    rw [List.filter_append, List.map_append] at h
    exact (List.append_eq_nil_iff.mp h).1
  rw [hnil] at hsuff
  exact hempty hsuff

lemma InTime.nil : InTime code k maxInFlight [] where
  first o ho := by cases ho
  timely pre o post hcut := by simp at hcut

lemma InTime.of_append (h : InTime code k maxInFlight (os ++ os')) :
    InTime code k maxInFlight os where
  first o ho := by
    apply h.first
    cases os with
    | nil => cases ho
    | cons x xs => exact ho
  timely pre o post hcut := h.timely pre o (post ++ os') (by rw [hcut]; simp)

/-- Once a packet of a block has been delivered, all blocks `maxInFlight` before are ready. -/
lemma InTime.ready (h : InTime code k maxInFlight os) (ho : o ∈ os)
    (hl : l + maxInFlight ≤ o.block) : Ready code k l os := by
  obtain ⟨pre, post, rfl⟩ := List.append_of_mem ho
  exact (h.timely pre o post rfl l hl).mono (List.prefix_append _ _)

/-- What is heard before a packet that forces block `l` out. -/
def heardInTime (maxInFlight l : ℕ) (os : List Origin) : List Origin :=
  os.takeWhile fun o => o.block < l + maxInFlight

/-- It is heard before any such packet. -/
lemma heardInTime_initial {pre post : List Origin}
    (hcut : os = pre ++ o :: post) (hl : l + maxInFlight ≤ o.block) :
    heardInTime maxInFlight l os <+: pre := by
  subst hcut
  unfold heardInTime
  induction pre with
  | nil =>
    rw [List.nil_append, List.takeWhile_cons_of_neg (by simpa using hl)]
  | cons o' pre ih =>
    rw [List.cons_append, List.takeWhile_cons]
    split
    · exact (List.prefix_cons_inj o').mpr ih
    · exact List.nil_prefix

/-- It suffices that each block is ready with what is heard in time. -/
lemma inTime_of_heardInTime (hfirst : ∀ o ∈ os.head?, o.block = 0) (hn : ∀ o ∈ os, o.block < n)
    (hsuff : ∀ l < n, code.Sufficient k (esisOf l (heardInTime maxInFlight l os)).toFinset) :
    InTime code k maxInFlight os ∧ ∀ l < n, Ready code k l os := by
  refine ⟨⟨hfirst, fun pre o post hcut l hl => ?_⟩, fun l hl => ?_⟩
  · have ho : o ∈ os := by
      rw [hcut]
      exact List.mem_append_right _ (List.mem_cons_self ..)
    have hlt := hn o ho
    exact ⟨_, heardInTime_initial hcut hl, hsuff l (by omega)⟩
  · exact ⟨_, List.takeWhile_prefix _, hsuff l hl⟩

lemma Delivery.nil : Delivery code k maxInFlight n [] where
  toInTime := InTime.nil
  block_lt o ho := by cases ho
  esi_lt o ho := by cases ho
  lag := List.Pairwise.nil

lemma Delivery.of_append (h : Delivery code k maxInFlight n (os ++ os')) :
    Delivery code k maxInFlight n os where
  toInTime := h.toInTime.of_append
  block_lt o ho := h.block_lt o (List.mem_append_left _ ho)
  esi_lt o ho := h.esi_lt o (List.mem_append_left _ ho)
  lag := (List.pairwise_append.mp h.lag).1

end Delivery

/-! ## The invariant -/

variable {env : Env D} {S : Stream} {w : Window D} {os : List Origin}

/-- All blocks before the cursor were decoded, and a block that is still open has not become
ready. -/
structure Recovering (env : Env D) (S : Stream) (os : List Origin) (w : Window D) : Prop where
  content : Content env S 0 os w
  pending : ∀ {k : ℕ} {b}, w.pool[k]? = some b → b.completed = none → ¬ Ready S.code S.k k os
  output : w.stdout = (List.range w.cursor).map fun l => ⟨l, .decoded, S.block l⟩
  first : w.first = 0
  highest : w.started = true → ∃ o ∈ os, o.block = w.highestSeen
  cursor_le : w.started = true → w.cursor ≤ w.highestSeen + 1

namespace Recovering

lemma init : Recovering env S [] (Window.init : Window D) where
  content := Content.init
  pending h := by rw [Window.get_init] at h; cases h
  output := rfl
  first := rfl
  highest h := by cases h
  cursor_le h := by cases h

lemma trueCursor_eq (h : Recovering env S os w) : trueCursor 0 w = w.cursor := by
  rw [trueCursor, h.first, Nat.zero_add, Nat.sub_zero]

lemma collects (h : Recovering env S os w) {k : ℕ} {b : BlockState D} (hb : w.pool[k]? = some b) :
    b.Collects env.dec S k (esisOf k os) := by
  have hcollects := h.content.pool hb
  rwa [h.first, Nat.zero_add, Nat.sub_zero] at hcollects

lemma absent (h : Recovering env S os w) {k : ℕ} (hstarted : w.started = true)
    (hk : w.cursor ≤ k) (hnone : w.pool[k]? = none) : esisOf k os = [] := by
  have hesis := h.content.absent hstarted hk hnone
  rwa [h.first, Nat.zero_add, Nat.sub_zero] at hesis

/-- A head that is ready is decoded. -/
lemma head_of_ready (hempty : ¬ S.code.Sufficient S.k ∅) (h : Recovering env S os w)
    (hstarted : w.started = true) (hready : Ready S.code S.k w.cursor os) :
    ∃ b, w.pool[w.cursor]? = some b ∧ b.completed = some (S.block w.cursor) := by
  cases hb : w.pool[w.cursor]? with
  | none => exact absurd hready (not_ready_of_nil hempty (h.absent hstarted (le_refl _) hb))
  | some b =>
    cases hc : b.completed with
    | none => exact absurd hready (h.pending hb hc)
    | some data => exact ⟨b, rfl, by rw [hc, (h.collects hb).decoded data hc]⟩

/-- The next packet is within half an SBN period of the cursor: from above as the head is
still open, and from below by the bound on the lag. -/
lemma inReach (hempty : ¬ S.code.Sufficient S.k ∅) (hM : env.maxInFlight ≤ 128)
    (h : Recovering env S os w) (hsettled : Settled env w) {n : ℕ} {o : Origin}
    (hdel : Delivery S.code S.k env.maxInFlight n (os ++ [o])) : InReach 0 w o.block := by
  unfold InReach
  cases hstarted : w.started with
  | false =>
    rw [if_neg (by decide)]
    apply hdel.first
    rw [h.content.idle hstarted]
    rfl
  | true =>
    rw [if_pos rfl, h.trueCursor_eq]
    -- from below by the lag, and from above because a head that is ready is not left waiting
    refine ⟨Nat.zero_le _, ?_, ?_⟩
    · obtain ⟨o', ho', hhighest⟩ := h.highest hstarted
      have hlag := (List.pairwise_append.mp hdel.lag).2.2 o' ho' o (List.mem_singleton_self o)
      have := h.cursor_le hstarted
      omega
    · by_contra hfar
      have hready : Ready S.code S.k w.cursor os := hdel.timely os o [] rfl w.cursor (by omega)
      obtain ⟨b, hb, hc⟩ := h.head_of_ready hempty hstarted hready
      rw [hsettled.head_open hb] at hc
      cases hc

/-- Joining changes nothing: the first packet is one of block 0, where the cursor is. -/
lemma joined_cursor (hwf : w.Wf) {o : Origin} (hreach : InReach 0 w o.block) :
    (w.joined (sbnOf o.block)).cursor = w.cursor ∧
      (w.joined (sbnOf o.block)).highestSeen = w.highestSeen := by
  cases hstarted : w.started with
  | true => rw [Window.joined_of_started hstarted]; exact ⟨rfl, rfl⟩
  | false =>
    unfold InReach at hreach
    rw [hstarted, if_neg (by decide)] at hreach
    rw [Window.joined_of_idle hstarted, hwf.idle hstarted, hreach]
    exact ⟨rfl, rfl⟩

lemma joined_first (h : Recovering env S os w) {o : Origin} (hreach : InReach 0 w o.block) :
    (w.joined (sbnOf o.block)).first = 0 := by
  cases hstarted : w.started with
  | true => rw [Window.joined_of_started hstarted, h.first]
  | false =>
    unfold InReach at hreach
    rw [hstarted, if_neg (by decide)] at hreach
    rw [Window.joined_of_idle hstarted, hreach]
    rfl

/-- A packet is routed to the true index of its block. -/
lemma route_eq (hwf : w.Wf) (h : Recovering env S os w) {o : Origin}
    (hreach : InReach 0 w o.block) : w.route (sbnOf o.block) = o.block := by
  have hroute := (route_of_inReach hwf h.content.joined hreach).2.1
  rwa [h.joined_first hreach, Nat.zero_add, Nat.sub_zero] at hroute

/-- The entry a packet is ingested into has not become ready if it is open. -/
lemma entry_pending (hempty : ¬ S.code.Sufficient S.k ∅) (hwf : w.Wf) (h : Recovering env S os w)
    {o : Origin} (hreach : InReach 0 w o.block) (hred : w.redundant (sbnOf o.block) = false)
    (now : Instant)
    (hopen : (w.entry env now (w.route (sbnOf o.block)) (sbnOf o.block) S.oti).completed = none) :
    ¬ Ready S.code S.k o.block os := by
  rcases h.content.entry_cases hwf hreach hred now with ⟨b, hb, hentry, -⟩ | ⟨-, hnil⟩
  · rw [hentry] at hopen
    rw [h.route_eq hwf hreach] at hb
    exact h.pending hb hopen
  · exact not_ready_of_nil hempty hnil

/-- The entry a packet is ingested into holds the packets of its block. -/
lemma entry_collects (hS : S.Wf) (hwf : w.Wf) (h : Recovering env S os w) {o : Origin}
    (hreach : InReach 0 w o.block) (hred : w.redundant (sbnOf o.block) = false) (now : Instant) :
    (w.entry env now (w.route (sbnOf o.block)) (sbnOf o.block) S.oti).Collects env.dec S o.block
      (esisOf o.block os) :=
  h.content.entry hS hwf hreach hred now

/-- A block that is still open after a packet has not become ready with it: otherwise `decode`
would have returned it. -/
lemma not_ready_of_ingest (hS : S.Wf) (hdec : env.dec.Laws S.code S.oti S.k) {o : Origin}
    (hesi : o.esi < 2 ^ 24) {b b' : BlockState D}
    (hentry : b.Collects env.dec S o.block (esisOf o.block os))
    (hpending : b.completed = none → ¬ Ready S.code S.k o.block os)
    (hb : b.ingest env.dec (S.packet o) = some b') (hopen : b'.completed = none) :
    ¬ Ready S.code S.k o.block (os ++ [o]) := by
  rw [ready_concat_self]
  rcases BlockState.ingest_cases hb with ⟨hsome, rfl⟩ | ⟨hnone, r, d, hdecode, rfl⟩
  · rw [hopen] at hsome
    cases hsome
  · obtain ⟨r', d', hdecode', hsuff, -⟩ := hdec.decodes (sbnOf o.block) (S.block o.block)
      (hS.block_length _) (hentry.fed hnone) hesi
    have hr : r' = none := by
      have hsame := hdecode'.symm.trans hdecode
      simp only [Option.some.injEq, Prod.mk.injEq] at hsame
      rw [hsame.1]
      exact hopen
    rintro (hready | hnow)
    · exact hpending hnone hready
    · rw [hsuff hnow] at hr
      cases hr

/-- A packet of a block that has not been emitted is ingested into its block. -/
lemma accept (hS : S.Wf) (hdec : env.dec.Laws S.code S.oti S.k) (hwf : w.Wf)
    (h : Recovering env S os w) {o : Origin} (hesi : o.esi < 2 ^ 24)
    (hreach : InReach 0 w o.block) (hred : w.redundant (sbnOf o.block) = false) {now : Instant}
    {b : BlockState D}
    (hb : (w.entry env now (w.route (sbnOf o.block)) (sbnOf o.block) S.oti).ingest env.dec
      (S.packet o) = some b) :
    Recovering env S (os ++ [o])
      ((w.joined (sbnOf o.block)).hold (w.route (sbnOf o.block)) b) := by
  have hentry := h.entry_collects hS hwf hreach hred now
  have hroute := h.route_eq hwf hreach
  obtain ⟨hcursor, hhighest⟩ := joined_cursor hwf hreach
  have hlate : w.cursor ≤ o.block := by
    rw [← h.trueCursor_eq]
    exact (redundant_of_inReach hwf h.content.joined hreach).mp hred
  have hnever : env.dec.NeverWrong S.code (sbnOf o.block) S.oti S.k (S.block o.block) :=
    hdec.neverWrong _ _ (hS.block_length _)
  refine ⟨h.content.accept hwf hreach (hentry.ingest hS hnever hb), fun {k b'} hk hopen => ?_,
    ?_, h.joined_first hreach, fun _ => ?_, fun _ => ?_⟩
  · -- a packet can only have made its own block ready
    rcases Window.get_of_get_hold hk with ⟨hok, rfl⟩ | ⟨hok, hbefore⟩
    · rw [← hok, hroute]
      exact not_ready_of_ingest hS hdec hesi hentry
        (h.entry_pending hdec.not_sufficient_empty hwf hreach hred now) hb hopen
    · rw [hroute] at hok
      rw [ready_concat_of_ne hok]
      exact h.pending hbefore hopen
  · rw [Window.hold_stdout, Window.joined_stdout, Window.hold_cursor, hcursor, h.output]
  · rw [Window.hold_highestSeen, hhighest, hroute]
    cases hstarted : w.started with
    | true =>
      obtain ⟨o', ho', hblock⟩ := h.highest hstarted
      rcases le_total w.highestSeen o.block with hle | hle
      · exact ⟨o, List.mem_append_right _ (List.mem_singleton_self o), (Nat.max_eq_right hle).symm⟩
      · exact ⟨o', List.mem_append_left _ ho', by rw [hblock, Nat.max_eq_left hle]⟩
    | false =>
      refine ⟨o, List.mem_append_right _ (List.mem_singleton_self o), ?_⟩
      rw [hwf.idle hstarted]
      exact (Nat.zero_max _).symm
  · rw [Window.hold_cursor, Window.hold_highestSeen, hcursor, hroute]
    omega

/-- A packet of a block that has been emitted is dropped. -/
lemma late (hwf : w.Wf) (h : Recovering env S os w) {o : Origin} (hstarted : w.started = true)
    (hlate : o.block < w.cursor) : Recovering env S (os ++ [o]) w := by
  refine ⟨h.content.late hwf hstarted (by rwa [h.trueCursor_eq]), fun {k b} hb hopen => ?_,
    h.output, h.first, fun hs => ?_, h.cursor_le⟩
  · have := hwf.cursor_le_key hb
    rw [ready_concat_of_ne (by omega)]
    exact h.pending hb hopen
  · obtain ⟨o', ho', hblock⟩ := h.highest hs
    exact ⟨o', List.mem_append_left _ ho', hblock⟩

/-- A decoded head is emitted. -/
lemma advance (hwf : w.Wf) (h : Recovering env S os w) {b : BlockState D}
    (hb : w.pool[w.cursor]? = some b) (hc : b.completed = some (S.block w.cursor)) :
    Recovering env S os w.advance where
  content := h.content.advance
  pending hk := h.pending (Window.get_of_get_advance hk).2
  output := by
    have hemission : emissionOf w.cursor (some b) = ⟨w.cursor, .decoded, S.block w.cursor⟩ := by
      simp only [emissionOf, hc]
    rw [Window.advance_cursor, List.range_succ, List.map_append, List.map_singleton, ← hemission,
      ← hb, ← h.output]
    rfl
  first := h.first
  highest := h.highest
  cursor_le _ := by
    rw [Window.advance_cursor, Window.advance_highestSeen]
    have := hwf.key_le_highest hb
    omega

/-- When no block has timed out, the drain loop only emits heads that are decoded: by the
time the window forces a head out, it is ready. -/
lemma head_of_mayAdvance (hempty : ¬ S.code.Sufficient S.k ∅) (hwf : w.Wf)
    (h : Recovering env S os w) {n : ℕ} (hdel : Delivery S.code S.k env.maxInFlight n os)
    (hfit : n + env.maxInFlight < 2 ^ 64) {t : Instant}
    (hfresh : ∀ (k : ℕ) b, w.pool[k]? = some b → elapsed t b.firstSeen < env.timeout)
    (hmay : mayAdvance env t w = true) :
    ∃ b, w.pool[w.cursor]? = some b ∧ b.completed = some (S.block w.cursor) := by
  have hstarted := hwf.started_of_mayAdvance hmay
  obtain ⟨o, ho, hblock⟩ := h.highest hstarted
  have hn := hdel.block_lt o ho
  have hcursor := h.cursor_le hstarted
  have hsum : w.cursor + env.maxInFlight < 2 ^ 64 := by omega
  -- a forced window has seen a packet `maxInFlight` blocks ahead of the head
  have hforced (hforce : w.cursor + env.maxInFlight ≤ w.highestSeen) :
      ∃ b, w.pool[w.cursor]? = some b ∧ b.completed = some (S.block w.cursor) :=
    h.head_of_ready hempty hstarted (hdel.ready ho (by rw [hblock]; exact hforce))
  cases hb : w.pool[w.cursor]? with
  | some b =>
    cases hc : b.completed with
    | some data => exact ⟨b, rfl, by rw [hc, (h.collects hb).decoded data hc]⟩
    | none =>
      have hlt := hfresh w.cursor b hb
      simp only [mayAdvance, hb, hc, Option.isSome_none, Bool.false_or, Bool.or_eq_true,
        decide_eq_true_eq] at hmay
      rw [← hb]
      exact hforced ((hwf.shouldForce_iff hstarted hsum).mp (hmay.resolve_left (by omega)))
  | none =>
    simp only [mayAdvance, hb, zeroGuard, hstarted, Bool.true_and, Bool.or_eq_true,
      decide_eq_true_eq, wrappingAdd_of_lt hsum, hwf.shouldForce_iff hstarted hsum, or_self] at hmay
    rw [← hb]
    exact hforced hmay

end Recovering

/-! ## Runs -/

/-- An action delivers the packet with the origin it is annotated with, and no other. -/
def Carries (env : Env D) (S : Stream) : TaggedAction → Prop
  | (.event _ ev, tag) => dataFrame env ev = tag.map fun o => (S.oti, S.packet o)
  | (.pass _, tag) | (.disconnect, tag) => tag = none

/-- No block of the pool has reached the timeout in a pass of the drain loop. -/
def Fresh (env : Env D) (w : Window D) : Action → Prop
  | .pass clk => ∀ (k : ℕ) b, w.pool[k]? = some b → elapsed clk.guard b.firstSeen < env.timeout
  | .event _ _ | .disconnect => True

/-- No block times out when the guard reads the clock at its zero. -/
lemma fresh_of_guard_zero (htimeout : 0 < env.timeout) {a : Action}
    (hzero : ∀ clk, a = .pass clk → clk.guard = 0) : Fresh env w a := by
  cases a with
  | event now ev => trivial
  | disconnect => trivial
  | pass clk =>
    intro k b _
    rw [hzero clk rfl, elapsed, Nat.zero_sub]
    exact htimeout

/-- One step of a run that recovers. -/
lemma Recovering.moves (hS : S.Wf) (hdec : env.dec.Laws S.code S.oti S.k)
    (hM : env.maxInFlight ≤ 128) {n : ℕ} (hfit : n + env.maxInFlight < 2 ^ 64) {p p' : Point}
    {w' : Window D} {x : TaggedAction} (hwf : w.Wf) (hsettled : p = .recv → Settled env w)
    (h : Recovering env S os w) (hcarries : Carries env S x) (hfresh : Fresh env w x.1)
    (hdel : Delivery S.code S.k env.maxInFlight n (os ++ x.2.toList)) (hm : Moves env p w x.1 p' w')
    (hopen : p' ≠ .closed) : Recovering env S (os ++ x.2.toList) w' := by
  obtain ⟨a, tag⟩ := x
  have hempty := hdec.not_sufficient_empty
  simp only at hm hfresh
  cases hm with
  | @drop _ now ev hdrop =>
    have hframe : dataFrame env ev = tag.map fun o => (S.oti, S.packet o) := hcarries
    cases tag with
    | none => simp [dropped, hframe] at hdrop
    | some o =>
      -- the OTI is sane, so the packet was dropped as a late one
      have hreach := h.inReach hempty hM (hsettled rfl) hdel
      have hred : w.redundant (sbnOf o.block) = true := by
        have hsane : saneFrame env ev = some (S.oti, S.packet o) :=
          saneFrame_eq_some.mpr ⟨hframe, hS.oti_sane⟩
        by_contra hacc
        simp [dropped, acceptedBlock, hframe, hsane, Stream.packet_sbn, hacc] at hdrop
      apply h.late hwf (Window.started_of_redundant hred)
      by_contra hle
      have hacc := (redundant_of_inReach hwf h.content.joined hreach).mpr
        (by rw [h.trueCursor_eq]; omega)
      rw [hred] at hacc
      cases hacc
  | @ignore _ now ev hev =>
    have hframe : dataFrame env ev = tag.map fun o => (S.oti, S.packet o) := hcarries
    rw [hev] at hframe
    cases tag with
    | none => simpa using h
    | some o => cases hframe
  | @accept _ now ev oti pkt b hev hred hb =>
    have hframe : dataFrame env ev = tag.map fun o => (S.oti, S.packet o) := hcarries
    rw [(saneFrame_eq_some.mp hev).1] at hframe
    cases tag with
    | none => cases hframe
    | some o =>
      simp only [Option.map_some, Option.some.injEq, Prod.mk.injEq] at hframe
      obtain ⟨rfl, rfl⟩ := hframe
      exact h.accept hS hdec hwf
        (hdel.esi_lt o (List.mem_append_right _ (List.mem_singleton_self o)))
        (h.inReach hempty hM (hsettled rfl) hdel) hred hb
  | @advance _ clk hmay =>
    obtain rfl : tag = none := hcarries
    rw [Option.toList_none, List.append_nil] at hdel ⊢
    obtain ⟨b, hb, hc⟩ := h.head_of_mayAdvance hempty hwf hdel hfit hfresh hmay
    exact h.advance hwf hb hc
  | settle _ =>
    obtain rfl : tag = none := hcarries
    simpa using h
  | flush => exact absurd rfl hopen

/-! ## Recovery -/

/-- The bytes of the frame that an action delivers. -/
def frameBytes : Action → Option Bytes
  | .event _ (.frame bytes) => some bytes
  | .event _ .tick | .pass _ | .disconnect => none

lemma frameBytes_eq_some {a : Action} {bytes : Bytes} :
    frameBytes a = some bytes ↔ ∃ now, a = .event now (.frame bytes) := by
  constructor
  · intro h
    cases a with
    | event now ev =>
      cases ev with
      | tick => simp [frameBytes] at h
      | frame bytes' =>
        rw [frameBytes, Option.some.injEq] at h
        exact ⟨now, by rw [h]⟩
    | pass clk => simp [frameBytes] at h
    | disconnect => simp [frameBytes] at h
  · rintro ⟨now, rfl⟩
    rfl

def Action.isEvent : Action → Bool
  | .event _ _ => true
  | .pass _ | .disconnect => false

/-- A run on some frames, in which no block reaches the timeout. -/
structure FreshRun (env : Env D) (now : Instant) (frames : List WireFrame) (acts : List Action)
    (c : Conf D) : Prop where
  frames_eq : acts.filterMap frameBytes = frames.map WireFrame.bytes
  fresh : Machine.EachStep (step env) (init now) (fun c a => Fresh env c.window a) acts
  run_eq : runFrom env now acts = some c

/-- Each frame is parsed as the packet it carries, or as no data frame if it carries none. -/
def Parses (env : Env D) (S : Stream) (frames : List WireFrame) : Prop :=
  ∀ f ∈ frames, dataFrame env (.frame f.bytes) = f.origin.map fun o => (S.oti, S.packet o)

lemma Parses.of_append {frames frames' : List WireFrame} (h : Parses env S (frames ++ frames')) :
    Parses env S frames :=
  fun f hf => h f (List.mem_append_left _ hf)

/-- The last action of a run delivers the last of the frames, or none. -/
lemma exists_carried {acts : List Action} {a : Action} {frames : List WireFrame}
    (hparse : Parses env S frames)
    (hframes : (acts ++ [a]).filterMap frameBytes = frames.map WireFrame.bytes) :
    ∃ (earlier last : List WireFrame) (tag : Option Origin), frames = earlier ++ last ∧
      origins frames = origins earlier ++ tag.toList ∧
      acts.filterMap frameBytes = earlier.map WireFrame.bytes ∧ Carries env S (a, tag) := by
  rw [List.filterMap_append] at hframes
  cases ha : frameBytes a with
  | none =>
    refine ⟨frames, [], none, by simp, by simp, ?_, ?_⟩
    · simpa [ha] using hframes
    · cases a with
      | event now ev =>
        cases ev with
        | tick => rfl
        | frame bytes => cases ha
      | pass clk => rfl
      | disconnect => rfl
  | some bytes =>
    have hlast : acts.filterMap frameBytes ++ [bytes] = frames.map WireFrame.bytes := by
      simpa [ha] using hframes
    -- the action delivers the last of the frames
    rcases List.eq_nil_or_concat' frames with rfl | ⟨earlier, f, rfl⟩
    · simp at hlast
    · rw [List.map_append] at hlast
      obtain ⟨hearlier, hf⟩ := List.append_inj' hlast rfl
      obtain rfl := List.singleton_inj.mp hf
      refine ⟨earlier, [f], f.origin, rfl, origins_concat earlier f, hearlier, ?_⟩
      obtain ⟨now, rfl⟩ := frameBytes_eq_some.mp ha
      exact hparse f (List.mem_append_right _ (List.mem_singleton_self f))

section FreshRun

variable {n : ℕ} {now : Instant} {frames : List WireFrame} {acts : List Action} {c : Conf D}

/-- **No block is given up**, in any run that has been delivered each block in time. -/
theorem FreshRun.recovering (hS : S.Wf) (hdec : env.dec.Laws S.code S.oti S.k)
    (hM : env.maxInFlight ≤ 128) (hfit : n + env.maxInFlight < 2 ^ 64)
    (hparse : Parses env S frames)
    (hdel : Delivery S.code S.k env.maxInFlight n (origins frames))
    (h : FreshRun env now frames acts c) (hopen : c.point ≠ .closed) :
    Recovering env S (origins frames) c.window := by
  refine Machine.run_induction_of (P := fun acts (c : Conf D) => ∀ frames, Parses env S frames →
    Delivery S.code S.k env.maxInFlight n (origins frames) →
    acts.filterMap frameBytes = frames.map WireFrame.bytes → c.point ≠ .closed →
    Recovering env S (origins frames) c.window) ?_ ?_ h.fresh h.run_eq frames hparse hdel
    h.frames_eq hopen
  · intro frames _ _ hframes _
    obtain rfl : frames = [] := by simpa using hframes
    exact Recovering.init
  · intro acts c a c' hrun _ ih hfresh hstep frames hparse hdel hframes hopen'
    obtain ⟨earlier, last, tag, rfl, horigins, hearlier, hcarries⟩ :=
      exists_carried hparse hframes
    have hopen := step_open hstep
    have hreach : Reachable env c := ⟨now, acts, hrun⟩
    rw [horigins] at hdel ⊢
    have hrec := ih earlier hparse.of_append hdel.of_append hearlier hopen
    exact hrec.moves hS hdec hM hfit (hreach.wf hopen) (fun hrecv => hreach.settled hrecv)
      hcarries hfresh hdel (step_moves hstep) hopen'

/-- The next packet does not make the FEC decoder panic. -/
lemma Recovering.exists_ingest (hS : S.Wf) (hdec : env.dec.Laws S.code S.oti S.k) (hwf : w.Wf)
    (h : Recovering env S os w) {o : Origin} (hesi : o.esi < 2 ^ 24)
    (hreach : InReach 0 w o.block) (hred : w.redundant (sbnOf o.block) = false) (now : Instant) :
    ∃ b, (w.entry env now (w.route (sbnOf o.block)) (sbnOf o.block) S.oti).ingest env.dec
      (S.packet o) = some b := by
  apply BlockState.exists_ingest
  intro hopen
  have hentry := h.entry_collects hS hwf hreach hred now
  obtain ⟨r, d, hdecode, -⟩ := hdec.decodes (sbnOf o.block) (S.block o.block)
    (hS.block_length _) (hentry.fed hopen) hesi
  exact ⟨(r, d), hdecode⟩

/-- The next frame is handled. -/
theorem FreshRun.exists_step (hS : S.Wf) (hdec : env.dec.Laws S.code S.oti S.k)
    (hM : env.maxInFlight ≤ 128) (hfit : n + env.maxInFlight < 2 ^ 64) {f : WireFrame}
    (hparse : Parses env S (frames ++ [f]))
    (hdel : Delivery S.code S.k env.maxInFlight n (origins (frames ++ [f])))
    (h : FreshRun env now frames acts c) (hrecv : c.point = .recv) (t : Instant) :
    ∃ c', step env c (.event t (.frame f.bytes)) = some c' := by
  rw [origins_concat] at hdel
  have hopen : c.point ≠ .closed := by rw [hrecv]; decide
  have hreach : Reachable env c := ⟨now, acts, h.run_eq⟩
  have hrec := h.recovering hS hdec hM hfit hparse.of_append hdel.of_append hopen
  have hf := hparse f (List.mem_append_right _ (List.mem_singleton_self f))
  apply exists_step_event hrecv
  intro oti pkt hsane hred
  rw [(saneFrame_eq_some.mp hsane).1] at hf
  cases htag : f.origin with
  | none => rw [htag] at hf; cases hf
  | some o =>
    rw [htag] at hf hdel
    simp only [Option.map_some, Option.some.injEq, Prod.mk.injEq] at hf
    obtain ⟨rfl, rfl⟩ := hf
    exact hrec.exists_ingest hS hdec (hreach.wf hopen)
      (hdel.esi_lt o (List.mem_append_right _ (List.mem_singleton_self o)))
      (hrec.inReach hdec.not_sufficient_empty hM (hreach.settled hrecv) hdel) hred t

lemma Recovering.highest_lt (h : Recovering env S os w)
    (hdel : Delivery S.code S.k env.maxInFlight n os) (hstarted : w.started = true) :
    w.highestSeen < n := by
  obtain ⟨o, ho, hblock⟩ := h.highest hstarted
  rw [← hblock]
  exact hdel.block_lt o ho

lemma Recovering.cursor_le_of_delivery (hwf : w.Wf) (h : Recovering env S os w)
    (hdel : Delivery S.code S.k env.maxInFlight n os) : w.cursor ≤ n := by
  cases hstarted : w.started with
  | false =>
    rw [hwf.idle hstarted]
    exact Nat.zero_le n
  | true =>
    have := h.cursor_le hstarted
    have := h.highest_lt hdel hstarted
    omega

/-- When all blocks have become ready, all have been emitted. -/
lemma Recovering.finished (hempty : ¬ S.code.Sufficient S.k ∅) (hwf : w.Wf)
    (hsettled : Settled env w) (h : Recovering env S os w)
    (hdel : Delivery S.code S.k env.maxInFlight n os)
    (hready : ∀ l < n, Ready S.code S.k l os) : w.cursor = n ∧ w.pool.keys = [] := by
  have hle := h.cursor_le_of_delivery hwf hdel
  have hcursor : w.cursor = n := by
    by_contra hne
    -- otherwise the head is ready, and a settled window has no decoded head
    have hhead := hready w.cursor (by omega)
    have hstarted : w.started = true := by
      by_contra hidle
      rw [h.content.idle (by simpa using hidle)] at hhead
      exact not_ready_of_nil hempty rfl hhead
    obtain ⟨b, hb, hc⟩ := h.head_of_ready hempty hstarted hhead
    rw [hsettled.head_open hb] at hc
    cases hc
  refine ⟨hcursor, List.getLast?_eq_none_iff.mp (BTreeMap.getLast?_keys_eq_none.mpr fun k => ?_)⟩
  cases hb : w.pool[k]? with
  | none => rfl
  | some b =>
    have := hwf.cursor_le_key hb
    have := hwf.key_le_highest hb
    have := h.highest_lt hdel (hwf.started_of_get hb)
    omega

/-- The input has ended at the head of the outer loop. -/
lemma FreshRun.before_end (h : FreshRun env now frames acts c) (hclosed : c.point = .closed) :
    ∃ acts' m, FreshRun env now frames acts' m ∧ m.point = .recv ∧
      c.window = flushRemaining m.window := by
  rcases List.eq_nil_or_concat' acts with rfl | ⟨acts', a, rfl⟩
  · obtain rfl : init now = c := Option.some.inj h.run_eq
    cases hclosed
  · obtain ⟨m, hm, hstep⟩ := Machine.run_concat_eq_some.mp h.run_eq
    have hframes := h.frames_eq
    cases a with
    | event t ev =>
      rcases step_event hstep with ⟨-, hpoint, -⟩ | ⟨-, hpoint⟩ <;> rw [hclosed] at hpoint <;>
        cases hpoint
    | pass clk =>
      rcases (step_pass hstep).2 with ⟨-, hpoint, -⟩ | ⟨-, hpoint, -⟩ <;>
        rw [hclosed] at hpoint <;> cases hpoint
    | disconnect =>
      obtain ⟨hrecv, hw⟩ := step_disconnect hstep
      have hnone : frameBytes .disconnect = none := rfl
      rw [List.filterMap_append] at hframes
      exact ⟨acts', m, ⟨by simpa [hnone] using hframes, h.fresh.of_append, hm⟩, hrecv, hw⟩

/-- **Recovery.** When the input has ended, every block has been written, decoded, in its
place. -/
theorem FreshRun.recovered (hS : S.Wf) (hdec : env.dec.Laws S.code S.oti S.k)
    (hM : env.maxInFlight ≤ 128) (hfit : n + env.maxInFlight < 2 ^ 64)
    (hparse : Parses env S frames)
    (hdel : Delivery S.code S.k env.maxInFlight n (origins frames))
    (hready : ∀ l < n, Ready S.code S.k l (origins frames)) (h : FreshRun env now frames acts c)
    (hclosed : c.point = .closed) :
    c.window.stdout = (List.range n).map fun l => ⟨l, .decoded, S.block l⟩ := by
  obtain ⟨acts', m, hm, hrecv, hw⟩ := h.before_end hclosed
  have hopen : m.point ≠ .closed := by rw [hrecv]; decide
  have hreach : Reachable env m := ⟨now, acts', hm.run_eq⟩
  have hrec := hm.recovering hS hdec hM hfit hparse hdel hopen
  obtain ⟨hcursor, hkeys⟩ := hrec.finished hdec.not_sufficient_empty (hreach.wf hopen)
    (hreach.settled hrecv) hdel hready
  rw [hw, flushRemaining, hkeys, List.foldl_nil, hrec.output, hcursor]

end FreshRun

/-! ## The length of a run -/

/-- Each event leads to at most one run of the drain loop, and each pass of it but the last
moves the cursor. -/
lemma length_run_le {now : Instant} {acts : List Action} {c : Conf D}
    (h : runFrom env now acts = some c) (hopen : c.point ≠ .closed) :
    acts.length + (if c.point = .drain then 1 else 0) ≤
      2 * acts.countP Action.isEvent + c.window.cursor := by
  refine Machine.run_induction (P := fun acts (c : Conf D) => c.point ≠ .closed →
    acts.length + (if c.point = .drain then 1 else 0) ≤
      2 * acts.countP Action.isEvent + c.window.cursor) (fun _ => le_refl _) ?_ h hopen
  intro acts c a c' hrun ih hstep hopen'
  have hopen := step_open hstep
  have hbound := ih hopen
  have hwf := (show Reachable env c from ⟨now, acts, hrun⟩).wf hopen
  rw [List.length_append, List.countP_append, List.countP_singleton, List.length_singleton]
  have hm := step_moves hstep
  -- an event is charged for the pass that ends the drain loop, an emission for itself
  generalize c.point = p, c.window = w, c'.point = p', c'.window = w' at hm hbound hwf hopen'
  cases hm with
  | drop _ => simp [Action.isEvent] at hbound ⊢; omega
  | ignore _ => simp [Action.isEvent] at hbound ⊢; omega
  | @accept _ _ _ _ pkt _ _ _ _ =>
    have hcursor := hwf.cursor_le_joined pkt.payloadId.sourceBlockNumber
    simp [Action.isEvent] at hbound ⊢
    omega
  | advance _ => simp [Action.isEvent] at hbound ⊢; omega
  | settle _ => simp [Action.isEvent] at hbound ⊢; omega
  | flush => exact absurd rfl hopen'

end RaptorqTs
