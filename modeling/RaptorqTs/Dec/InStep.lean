import RaptorqTs.Dec.Order
import RaptorqTs.Dec.TuneIn

/-!
# Getting in step with a stream

The decoder has heard anything whatsoever, say an encoder before its restart or the stream before a
fade, and now it hears a stream in time. The number that it unwraps an SBN to depends on where its
cursor stands, blocks that are still open may be fed with the packets of other blocks, and packets
may fall behind the cursor. But the first packet that is taken at the cursor or ahead of it fixes
the numbering, and from 64 blocks after it on the pool holds what is heard.
-/

namespace RaptorqTs

variable {D : Type} {env : Env D} {S : Stream} {j n B : ℕ} {os : List Origin} {o : Origin}
  {w : Window D}

/-- What is heard of a stream from a packet of block `j` on: packets of the blocks before `n`, none
64 or more blocks behind another, and each block after `j` is ready before a packet `ahead` blocks
later. Of the blocks up to `j` any packets may be missing. -/
structure Hears (code : FountainCode) (k ahead j n : ℕ) (os : List Origin) : Prop where
  head : ∀ o ∈ os.head?, o.block = j
  block_lt : ∀ o ∈ os, o.block < n
  esi_lt : ∀ o ∈ os, o.esi < 2 ^ 24
  lag : os.Pairwise fun o o' => o.block < o'.block + 64
  ready : ∀ pre o post, os = pre ++ o :: post → ∀ l, j < l → l + ahead ≤ o.block →
    Ready code k l pre

namespace Hears

variable {code : FountainCode} {k ahead l : ℕ} {os' : List Origin}

lemma of_append (h : Hears code k ahead j n (os ++ os')) : Hears code k ahead j n os where
  head o ho := by
    apply h.head
    rw [List.head?_append, ho]
    rfl
  block_lt o ho := h.block_lt o (List.mem_append_left _ ho)
  esi_lt o ho := h.esi_lt o (List.mem_append_left _ ho)
  lag := (List.pairwise_append.mp h.lag).1
  ready pre o post hcut := h.ready pre o (post ++ os') (by rw [hcut]; simp)

/-- The first packet heard is of block `j`. -/
lemma exists_first (h : Hears code k ahead j n os) (hne : os ≠ []) : ∃ o ∈ os, o.block = j :=
  ⟨_, List.head_mem hne, h.head _ (List.head?_eq_some_head hne)⟩

/-- The next packet is less than 64 blocks behind. -/
lemma lag_concat (h : Hears code k ahead j n (os ++ [o])) {o' : Origin} (ho' : o' ∈ os) :
    o'.block < o.block + 64 :=
  (List.pairwise_append.mp h.lag).2.2 o' ho' o (List.mem_singleton_self o)

/-- A block has been heard of when the next packet is one of a later block. -/
lemma exists_heard (hempty : ¬ code.Sufficient k ∅) (h : Hears code k ahead j n (os ++ [o]))
    (hjl : j < l) (hl : l + ahead ≤ o.block) : ∃ o' ∈ os, o'.block = l := by
  by_contra hnone
  refine not_ready_of_nil hempty ?_ (h.ready os o [] rfl l hjl hl)
  rw [esisOf, List.map_eq_nil_iff, List.filter_eq_nil_iff]
  intro o' ho' hblock
  exact hnone ⟨o', ho', of_decide_eq_true hblock⟩

end Hears

/-- In a pass of the drain loop no block of the pool that is numbered from `B` on has reached the
timeout. -/
def FreshFrom (env : Env D) (B : ℕ) (w : Window D) : Action → Prop
  | .pass clk => ∀ (k : ℕ) b, B ≤ k → w.pool[k]? = some b →
    elapsed clk.guard b.firstSeen < env.timeout
  | .event _ _ | .disconnect => True

/-- When the next packet is waited for, nothing has been seen `max_in_flight` blocks ahead. -/
lemma Settled.highestSeen_lt (hwf : w.Wf) (h : Settled env w) (hstarted : w.started = true)
    (hM : 1 ≤ env.maxInFlight) : w.highestSeen < w.cursor + env.maxInFlight := by
  by_cases hle : w.cursor ≤ w.highestSeen
  · obtain ⟨b, hb⟩ := hwf.highest_mem hstarted hle
    exact h.key_lt hb
  · omega

/-! ## Routing -/

/-- Where a packet is routed, by the number of its block before the clamp. -/
lemma route_eq_max (hstarted : w.started = true) (t : ℕ) :
    ∃ v : ℤ, w.cursor ≤ v + 128 ∧ v ≤ w.cursor + 127 ∧ v % 256 = (t : ℤ) % 256 ∧
      (w.route (sbnOf t) : ℤ) = max v 0 := by
  obtain ⟨diff, hlo, hhi, hmod, hroute⟩ := unwrapSbn_spec w.cursor (sbnOf t)
  rw [toNat_sbnOf] at hmod
  refine ⟨w.cursor + diff, by omega, by omega, by omega, ?_⟩
  rw [Window.route_of_started hstarted, hroute]
  omega

/-- A packet is dropped as redundant when its block is behind the cursor, and then only the clamp
can bring it into the pool, as a packet of block 0. -/
lemma redundant_iff (hstarted : w.started = true) {t : ℕ} {v : ℤ}
    (hroute : (w.route (sbnOf t) : ℤ) = max v 0) :
    w.redundant (sbnOf t) = true ↔ v < w.cursor ∧ w.cursor ≠ 0 := by
  rw [Window.redundant, Window.joined_of_started hstarted, decide_eq_true_eq]
  omega

/-- A packet that is behind the cursor and is taken nevertheless goes into block 0. -/
lemma route_eq_zero_of_clamped (hstarted : w.started = true) {t : ℕ} {v : ℤ}
    (hroute : (w.route (sbnOf t) : ℤ) = max v 0) (hlt : v < w.cursor)
    (hred : w.redundant (sbnOf t) = false) : w.route (sbnOf t) = 0 := by
  have hzero : w.cursor = 0 := by
    by_contra hpos
    rw [(redundant_iff hstarted hroute).mpr ⟨hlt, hpos⟩] at hred
    simp at hred
  omega

/-- The packet is dropped as redundant, or it is ingested. -/
def Handles (env : Env D) (S : Stream) (w : Window D) (o : Origin) (w' : Window D) : Prop :=
  (w.redundant (sbnOf o.block) = true ∧ w' = w) ∨
    (w.redundant (sbnOf o.block) = false ∧ ∃ now b,
      (w.entry env now (w.route (sbnOf o.block)) (sbnOf o.block) S.oti).ingest env.dec
        (S.packet o) = some b ∧
      w' = (w.joined (sbnOf o.block)).hold (w.route (sbnOf o.block)) b)

/-- What a step does that delivers the packet it is annotated with. -/
lemma Moves.carried (hS : S.Wf) {p p' : Point} {w w' : Window D} {a : Action}
    {tag : Option Origin} (hcarries : Carries env S (a, tag)) (hm : Moves env p w a p' w') :
    (∃ o, tag = some o ∧ p = .recv ∧ Handles env S w o w') ∨
      (tag = none ∧ (w' = w ∨ p' = .closed ∨
        ∃ clk, a = .pass clk ∧ mayAdvance env clk.guard w = true ∧ w' = w.advance)) := by
  cases hm with
  | @drop _ now ev hdrop =>
    have hframe : dataFrame env ev = tag.map fun o => (S.oti, S.packet o) := hcarries
    cases tag with
    | none => simp [dropped, hframe] at hdrop
    | some o =>
      have hsane : saneFrame env ev = some (S.oti, S.packet o) :=
        saneFrame_eq_some.mpr ⟨hframe, hS.oti_sane⟩
      refine Or.inl ⟨o, rfl, rfl, Or.inl ⟨?_, rfl⟩⟩
      by_contra hacc
      simp [dropped, acceptedBlock, hsane, Stream.packet_sbn, hacc] at hdrop
  | @ignore _ now ev hev =>
    have hframe : dataFrame env ev = tag.map fun o => (S.oti, S.packet o) := hcarries
    rw [hev] at hframe
    cases tag with
    | none => exact Or.inr ⟨rfl, Or.inl rfl⟩
    | some o => simp at hframe
  | @accept _ now ev oti pkt b hev hred hb =>
    have hframe : dataFrame env ev = tag.map fun o => (S.oti, S.packet o) := hcarries
    rw [(saneFrame_eq_some.mp hev).1] at hframe
    cases tag with
    | none => simp at hframe
    | some o =>
      simp only [Option.map_some, Option.some.injEq, Prod.mk.injEq] at hframe
      obtain ⟨rfl, rfl⟩ := hframe
      exact Or.inl ⟨o, rfl, rfl, Or.inr ⟨hred, now, b, hb, rfl⟩⟩
  | @advance _ clk hmay =>
    obtain rfl : tag = none := hcarries
    exact Or.inr ⟨rfl, Or.inr (Or.inr ⟨clk, rfl, hmay, rfl⟩)⟩
  | settle _ =>
    obtain rfl : tag = none := hcarries
    exact Or.inr ⟨rfl, Or.inl rfl⟩
  | flush =>
    obtain rfl : tag = none := hcarries
    exact Or.inr ⟨rfl, Or.inr (Or.inl rfl)⟩

/-- The end of the input is seen at the head of the outer loop. -/
lemma exists_before_end {c₀ c : Conf D} {acts : List Action} (hopen : c₀.point ≠ .closed)
    (hrun : Machine.run (step env) c₀ acts = some c) (hclosed : c.point = .closed) :
    ∃ acts' m, acts = acts' ++ [.disconnect] ∧ Machine.run (step env) c₀ acts' = some m ∧
      m.point = .recv ∧ c.window = flushRemaining m.window := by
  rcases List.eq_nil_or_concat' acts with rfl | ⟨acts', a, rfl⟩
  · obtain rfl : c₀ = c := Option.some.inj hrun
    exact absurd hclosed hopen
  · obtain ⟨m, hm, hstep⟩ := Machine.run_concat_eq_some.mp hrun
    cases a with
    | event t ev =>
      rcases step_event hstep with ⟨-, hpoint, -⟩ | ⟨-, hpoint⟩
      · simp [hpoint] at hclosed
      · simp [hpoint] at hclosed
    | pass clk =>
      rcases (step_pass hstep).2 with ⟨-, hpoint, -⟩ | ⟨-, hpoint, -⟩
      · simp [hpoint] at hclosed
      · simp [hpoint] at hclosed
    | disconnect =>
      obtain ⟨hrecv, hw⟩ := step_disconnect hstep
      exact ⟨acts', m, rfl, hm, hrecv, hw⟩

/-! ## Before the numbering is fixed -/

/-- No packet heard has been taken at the cursor or ahead of it: what is in the pool was there
before, numbered below `B`, and all packets heard are behind the cursor. -/
structure Behind (env : Env D) (j B : ℕ) (os : List Origin) (w : Window D) : Prop where
  started : w.started = true
  key_lt : ∀ {k : ℕ} {b}, w.pool[k]? = some b → k < B
  highest_lt : w.highestSeen < B
  cursor_le : w.cursor ≤ B
  le_cursor : B ≤ w.cursor + env.maxInFlight
  written_lt : ∀ e ∈ w.stdout, e.sbn < w.cursor
  heard_lt : os ≠ [] → ∃ shift : ℤ, shift % 256 = 0 ∧
    (B : ℤ) ≤ j + shift + 128 + env.maxInFlight ∧ ∀ o ∈ os, o.block + shift < w.cursor

namespace Behind

lemma advance (h : Behind env j B os w) (hwf : w.Wf) (hfit : w.cursor + env.maxInFlight < 2 ^ 64)
    {t : Instant} (hmay : mayAdvance env t w = true) : Behind env j B os w.advance where
  started := h.started
  key_lt hk := h.key_lt (Window.get_of_get_advance hk).2
  highest_lt := h.highest_lt
  cursor_le := by
    have hle := hwf.cursor_le_of_mayAdvance hfit hmay
    have hlt := h.highest_lt
    rw [Window.advance_cursor]
    omega
  le_cursor := by
    have hle := h.le_cursor
    rw [Window.advance_cursor]
    omega
  written_lt e he := by
    rw [Window.advance_cursor]
    rcases List.mem_append.mp he with hold | hnew
    · exact (h.written_lt e hold).trans (Nat.lt_succ_self _)
    · rw [List.mem_singleton.mp hnew, emissionOf_sbn]
      exact Nat.lt_succ_self _
  heard_lt hne := by
    obtain ⟨shift, hmod, hB, hlt⟩ := h.heard_lt hne
    refine ⟨shift, hmod, hB, fun o ho => (hlt o ho).trans ?_⟩
    rw [Window.advance_cursor]
    omega

/-- Another packet behind the cursor. -/
lemma late (h : Behind env j B os w) (hheard : ∃ shift : ℤ, shift % 256 = 0 ∧
      (B : ℤ) ≤ j + shift + 128 + env.maxInFlight ∧
        ∀ o' ∈ os ++ [o], o'.block + shift < w.cursor) :
    Behind env j B (os ++ [o]) w :=
  { h with heard_lt := fun _ => hheard }

/-- What the clamp puts into block 0 is numbered below `B`. -/
lemma clamp (h : Behind env j B os w) (b : BlockState D) : Behind env j B os (w.hold 0 b) := by
  have hlt := h.highest_lt
  refine { h with key_lt := ?_, highest_lt := ?_ }
  · intro k b' hk
    rw [Window.get_hold] at hk
    by_cases hzero : 0 = k
    · omega
    · rw [if_neg hzero] at hk
      exact h.key_lt hk
  · rw [Window.hold_highestSeen]
    omega

/-- The next packet is behind the cursor too, or the numbering is fixed by it. -/
lemma locate (hempty : ¬ S.code.Sufficient S.k ∅) (hM : 1 ≤ env.maxInFlight)
    (hM' : env.maxInFlight ≤ 32) (h : Behind env j B os w)
    (hhears : Hears S.code S.k env.maxInFlight j n (os ++ [o])) :
    (∃ v : ℤ, (w.route (sbnOf o.block) : ℤ) = max v 0 ∧ v < w.cursor ∧
        ∃ shift : ℤ, shift % 256 = 0 ∧ (B : ℤ) ≤ j + shift + 128 + env.maxInFlight ∧
          ∀ o' ∈ os ++ [o], o'.block + shift < w.cursor) ∨
      (w.cursor ≤ w.route (sbnOf o.block) ∧ w.route (sbnOf o.block) ≤ w.cursor + 127 ∧
        w.route (sbnOf o.block) % 256 = o.block % 256 ∧
        o.block ≤ j + 2 * env.maxInFlight + 127) := by
  have hleB := h.cursor_le
  have hBle := h.le_cursor
  obtain ⟨v, hlo, hhi, hmod, hroute⟩ := route_eq_max h.started o.block
  rcases eq_or_ne os [] with rfl | hne
  · obtain rfl : o.block = j := hhears.head o rfl
    by_cases hv : v < w.cursor
    · refine Or.inl ⟨v, hroute, hv, v - o.block, by omega, by omega, fun o' ho' => ?_⟩
      rw [List.mem_singleton.mp ho']
      omega
    · exact Or.inr ⟨by omega, by omega, by omega, by omega⟩
  · obtain ⟨shift, hshift, hB, hlt⟩ := h.heard_lt hne
    obtain ⟨first, hfirst, hj⟩ := hhears.of_append.exists_first hne
    have hlag := hhears.lag_concat hfirst
    have hfirstLt := hlt first hfirst
    -- the block before it that has been heard of is behind the cursor
    have hnear : o.block + shift < w.cursor + env.maxInFlight := by
      by_cases hjl : j < o.block - env.maxInFlight
      · obtain ⟨o', ho', hblock⟩ := hhears.exists_heard hempty hjl (by omega)
        have hlt' := hlt o' ho'
        omega
      · omega
    -- so either it is counted as the packets before it, or it seems one period further on
    have hcount : v = o.block + shift ∨ v = o.block + shift + 256 := by omega
    rcases hcount with hv | hv
    · by_cases hbehind : v < w.cursor
      · refine Or.inl ⟨v, hroute, hbehind, shift, hshift, hB, fun o' ho' => ?_⟩
        rcases List.mem_append.mp ho' with hold | hnew
        · exact hlt o' hold
        · rw [List.mem_singleton.mp hnew]
          omega
      · exact Or.inr ⟨by omega, by omega, by omega, by omega⟩
    · exact Or.inr ⟨by omega, by omega, by omega, by omega⟩

end Behind

/-! ## With the numbering fixed -/

/-- The packets of block `t` are routed to the block number `t + shift`; the first one was of block
`base`. From 64 blocks after it on, the pool holds what has been heard, and what has been written
is the stream. -/
structure InStep (env : Env D) (S : Stream) (j B base : ℕ) (shift : ℤ) (os : List Origin)
    (w : Window D) : Prop where
  started : w.started = true
  shift_mod : shift % 256 = 0
  heard_base : ∃ o ∈ os, o.block = base
  start_lt : j < base + 64
  base_le : base ≤ j + 2 * env.maxInFlight + 127
  le_key : (B : ℤ) ≤ base + shift + env.maxInFlight
  key_le : base + shift ≤ (B : ℤ) + 127
  cursor_le : w.cursor ≤ w.highestSeen + 1
  base_le_highest : base + shift ≤ w.highestSeen
  heard_le : ∀ o ∈ os, base + 64 ≤ o.block → o.block + shift ≤ w.highestSeen
  highest : w.highestSeen < B ∨ ∃ o ∈ os, o.block + shift = w.highestSeen
  pool : ∀ {t k : ℕ} {b}, base + 64 ≤ t → (k : ℤ) = t + shift → w.pool[k]? = some b →
    b.Collects env.dec S t (esisOf t os) ∧ esisOf t os ≠ [] ∧
      (b.completed.isSome = true ↔ S.code.Sufficient S.k (esisOf t os).toFinset)
  absent : ∀ {t k : ℕ}, base + 64 ≤ t → (k : ℤ) = t + shift → w.cursor ≤ k →
    w.pool[k]? = none → esisOf t os = []
  written : ∀ e ∈ w.stdout, ∀ t : ℕ, base + 64 ≤ t → (e.sbn : ℤ) = t + shift →
    e = ⟨e.sbn, .decoded, S.block t⟩

/-- The packet that fixes the numbering. -/
lemma Behind.accept (hM' : env.maxInFlight ≤ 32) (h : Behind env j B os w)
    (hhears : Hears S.code S.k env.maxInFlight j n (os ++ [o]))
    (hle : w.cursor ≤ w.route (sbnOf o.block))
    (hnear : w.route (sbnOf o.block) ≤ w.cursor + 127)
    (hmod : w.route (sbnOf o.block) % 256 = o.block % 256)
    (hbase : o.block ≤ j + 2 * env.maxInFlight + 127) (b : BlockState D) :
    InStep env S j B o.block (w.route (sbnOf o.block) - o.block) (os ++ [o])
      (w.hold (w.route (sbnOf o.block)) b) := by
  have hcursor := h.cursor_le
  have hBle := h.le_cursor
  have hhighest := h.highest_lt
  have hblock : ∀ o' ∈ os ++ [o], o'.block < o.block + 64 := by
    intro o' ho'
    rcases List.mem_append.mp ho' with hold | hnew
    · exact hhears.lag_concat hold
    · rw [List.mem_singleton.mp hnew]
      omega
  obtain ⟨first, hfirst, hj⟩ := hhears.exists_first (List.concat_ne_nil o os)
  have hstart := hblock first hfirst
  have hself : o ∈ os ++ [o] := List.mem_append_right _ (List.mem_singleton_self o)
  refine ⟨h.started, by omega, ⟨o, hself, rfl⟩, by omega, hbase, by omega, by omega, ?_, ?_,
    fun o' ho' hfar => ?_, ?_, fun {t k b'} ht hk hb => ?_, fun {t k} ht _ _ _ => ?_,
    fun e he t ht hsbn => ?_⟩
  · rw [Window.hold_cursor, Window.hold_highestSeen]
    omega
  · rw [Window.hold_highestSeen]
    omega
  · have hlt := hblock o' ho'
    omega
  · rw [Window.hold_highestSeen]
    rcases Nat.lt_or_ge w.highestSeen (w.route (sbnOf o.block)) with hlt | hge
    · exact Or.inr ⟨o, hself, by omega⟩
    · exact Or.inl (by omega)
  · -- what is in the pool is behind the blocks that count
    rw [Window.get_hold] at hb
    by_cases hkr : w.route (sbnOf o.block) = k
    · omega
    · rw [if_neg hkr] at hb
      have hlt := h.key_lt hb
      omega
  · rw [esisOf, List.map_eq_nil_iff, List.filter_eq_nil_iff]
    intro o' ho' heq
    have hlt := hblock o' ho'
    have heq := of_decide_eq_true heq
    omega
  · have hlt := h.written_lt e he
    omega

namespace InStep

variable {base : ℕ} {shift : ℤ}

/-- The next packet is within half a period of the cursor. -/
lemma near (hempty : ¬ S.code.Sufficient S.k ∅) (hM : 1 ≤ env.maxInFlight)
    (hM' : env.maxInFlight ≤ 32) (h : InStep env S j B base shift os w)
    (hhighest : w.highestSeen < w.cursor + env.maxInFlight)
    (hhears : Hears S.code S.k env.maxInFlight j n (os ++ [o])) :
    w.cursor ≤ o.block + shift + 128 ∧ o.block + shift ≤ w.cursor + 127 := by
  have hcursor := h.cursor_le
  have hkey := h.le_key
  have hbase := h.base_le_highest
  have hstart := h.start_lt
  constructor
  · rcases h.highest with hlt | ⟨o', ho', heq⟩
    · obtain ⟨o', ho', heq⟩ := h.heard_base
      have hlag := hhears.lag_concat ho'
      omega
    · have hlag := hhears.lag_concat ho'
      omega
  · by_contra hfar
    -- a block ahead of the window would have been heard of
    obtain ⟨l, hl⟩ : ∃ l : ℕ, (l : ℤ) = w.cursor + 128 - env.maxInFlight - shift :=
      ⟨(w.cursor + 128 - env.maxInFlight - shift).toNat, by omega⟩
    obtain ⟨o', ho', heq⟩ := @Hears.exists_heard _ _ _ _ _ _ _ l hempty hhears (by omega) (by omega)
    have hle := h.heard_le o' ho' (by omega)
    omega

/-- A packet behind the cursor counts for nothing. -/
lemma late (hwf : w.Wf) (h : InStep env S j B base shift os w)
    (hlate : o.block + shift < w.cursor) : InStep env S j B base shift (os ++ [o]) w := by
  have hcursor := h.cursor_le
  have hsame : ∀ {t k : ℕ}, (k : ℤ) = t + shift → w.cursor ≤ k →
      esisOf t (os ++ [o]) = esisOf t os := by
    intro t k hk hle
    rw [esisOf_concat, if_neg (by omega), List.append_nil]
  refine { h with heard_base := ?_, heard_le := ?_, highest := ?_, pool := ?_, absent := ?_ }
  · obtain ⟨o', ho', heq⟩ := h.heard_base
    exact ⟨o', List.mem_append_left _ ho', heq⟩
  · intro o' ho' hfar
    rcases List.mem_append.mp ho' with hold | hnew
    · exact h.heard_le o' hold hfar
    · rw [List.mem_singleton.mp hnew]
      omega
  · refine h.highest.imp_right ?_
    rintro ⟨o', ho', heq⟩
    exact ⟨o', List.mem_append_left _ ho', heq⟩
  · intro t k b ht hk hb
    rw [hsame hk (hwf.cursor_le_key hb)]
    exact h.pool ht hk hb
  · intro t k ht hk hle hnone
    rw [hsame hk hle]
    exact h.absent ht hk hle hnone

/-- Nor does what the clamp puts into block 0. -/
lemma clamp (h : InStep env S j B base shift os w) (hB : env.maxInFlight ≤ B) (b : BlockState D) :
    InStep env S j B base shift os (w.hold 0 b) := by
  have hkey := h.le_key
  have hhighest : (w.hold 0 b).highestSeen = w.highestSeen := by
    rw [Window.hold_highestSeen, Nat.max_zero]
  have hget : ∀ {t k : ℕ}, base + 64 ≤ t → (k : ℤ) = t + shift →
      (w.hold 0 b).pool[k]? = w.pool[k]? := by
    intro t k ht hk
    rw [Window.get_hold, if_neg (by omega)]
  refine { h with cursor_le := ?_, base_le_highest := ?_, heard_le := ?_, highest := ?_,
                  pool := ?_, absent := ?_ }
  · rw [hhighest]
    exact h.cursor_le
  · rw [hhighest]
    exact h.base_le_highest
  · rw [hhighest]
    exact h.heard_le
  · rw [hhighest]
    exact h.highest
  · intro t k b' ht hk hb
    rw [hget ht hk] at hb
    exact h.pool ht hk hb
  · intro t k ht hk hle hnone
    rw [hget ht hk] at hnone
    exact h.absent ht hk hle hnone

/-- The entry that a packet is ingested into. -/
lemma entry (hS : S.Wf) (hempty : ¬ S.code.Sufficient S.k ∅)
    (h : InStep env S j B base shift os w) (hfar : base + 64 ≤ o.block)
    (hroute : (w.route (sbnOf o.block) : ℤ) = o.block + shift)
    (hle : w.cursor ≤ w.route (sbnOf o.block)) (now : Instant) :
    (w.entry env now (w.route (sbnOf o.block)) (sbnOf o.block) S.oti).Collects env.dec S o.block
        (esisOf o.block os) ∧
      ((w.entry env now (w.route (sbnOf o.block)) (sbnOf o.block) S.oti).completed.isSome = true ↔
        S.code.Sufficient S.k (esisOf o.block os).toFinset) := by
  cases hb : w.pool[w.route (sbnOf o.block)]? with
  | some b =>
    obtain ⟨hcollects, -, hiff⟩ := h.pool hfar hroute hb
    rw [Window.entry_of_get hb]
    exact ⟨hcollects, hiff⟩
  | none =>
    rw [Window.entry_of_absent hb, h.absent hfar hroute hle hb]
    exact ⟨BlockState.collects_new hS o.block now, by simp [BlockState.new, hempty]⟩

/-- A packet at the cursor or ahead of it. -/
lemma accept (hS : S.Wf) (hdec : env.dec.Laws S.code S.oti S.k) (hmono : S.code.Monotone S.k)
    (h : InStep env S j B base shift os w) (hesi : o.esi < 2 ^ 24)
    (hroute : (w.route (sbnOf o.block) : ℤ) = o.block + shift)
    (hle : w.cursor ≤ w.route (sbnOf o.block)) {now : Instant} {b : BlockState D}
    (hb : (w.entry env now (w.route (sbnOf o.block)) (sbnOf o.block) S.oti).ingest env.dec
      (S.packet o) = some b) :
    InStep env S j B base shift (os ++ [o]) (w.hold (w.route (sbnOf o.block)) b) := by
  have hcursor := h.cursor_le
  have hhighest := Window.hold_highestSeen w (w.route (sbnOf o.block)) b
  have hself : o ∈ os ++ [o] := List.mem_append_right _ (List.mem_singleton_self o)
  have hother : ∀ {t k : ℕ}, (k : ℤ) = t + shift → w.route (sbnOf o.block) ≠ k →
      esisOf t (os ++ [o]) = esisOf t os := by
    intro t k hk hkr
    rw [esisOf_concat, if_neg (by omega), List.append_nil]
  refine { h with heard_base := ?_, cursor_le := ?_, base_le_highest := ?_, heard_le := ?_,
                  highest := ?_, pool := ?_, absent := ?_ }
  · obtain ⟨o', ho', heq⟩ := h.heard_base
    exact ⟨o', List.mem_append_left _ ho', heq⟩
  · rw [Window.hold_cursor, hhighest]
    omega
  · have hbase := h.base_le_highest
    rw [hhighest]
    omega
  · intro o' ho' hfar
    rw [hhighest]
    rcases List.mem_append.mp ho' with hold | hnew
    · have hle' := h.heard_le o' hold hfar
      omega
    · rw [List.mem_singleton.mp hnew]
      omega
  · rw [hhighest]
    rcases Nat.lt_or_ge w.highestSeen (w.route (sbnOf o.block)) with hlt | hge
    · exact Or.inr ⟨o, hself, by omega⟩
    · rw [Nat.max_eq_left hge]
      refine h.highest.imp_right ?_
      rintro ⟨o', ho', heq⟩
      exact ⟨o', List.mem_append_left _ ho', heq⟩
  · intro t k b' ht hk hget
    rw [Window.get_hold] at hget
    by_cases hkr : w.route (sbnOf o.block) = k
    · obtain rfl : t = o.block := by omega
      rw [if_pos hkr, Option.some.injEq] at hget
      subst hget
      obtain ⟨hcollects, hiff⟩ := h.entry hS hdec.not_sufficient_empty ht hroute hle now
      have hnever : env.dec.NeverWrong S.code (sbnOf o.block) S.oti S.k (S.block o.block) :=
        hdec.neverWrong _ _ (hS.block_length _)
      have hcompleted := Heard.ingest_completed_iff hS hdec hmono hesi hcollects hiff hb
      rw [esisOf_concat, if_pos rfl] at hcompleted ⊢
      exact ⟨hcollects.ingest hS hnever hb, by simp, hcompleted⟩
    · rw [if_neg hkr] at hget
      rw [hother hk hkr]
      exact h.pool ht hk hget
  · intro t k ht hk hck hnone
    rw [Window.get_hold] at hnone
    by_cases hkr : w.route (sbnOf o.block) = k
    · simp [hkr] at hnone
    · rw [if_neg hkr] at hnone
      rw [hother hk hkr]
      exact h.absent ht hk hck hnone

/-- A block of the stream that is forced out has been heard in time. -/
lemma sufficient_of_forced (hmono : S.code.Monotone S.k) (h : InStep env S j B base shift os w)
    (hhears : Hears S.code S.k env.maxInFlight j n os) {t : ℕ} (ht : base + 64 ≤ t)
    (hhead : (w.cursor : ℤ) = t + shift)
    (hforced : w.cursor + env.maxInFlight ≤ w.highestSeen) :
    S.code.Sufficient S.k (esisOf t os).toFinset := by
  have hkey := h.le_key
  have hstart := h.start_lt
  rcases h.highest with hlt | ⟨o, ho, heq⟩
  · omega
  · obtain ⟨pre, post, rfl⟩ := List.append_of_mem ho
    exact (hhears.ready pre o post rfl t (by omega) (by omega)).sufficient hmono
      (List.prefix_append _ _)

/-- What has been heard of the head is sufficient when it is emitted. -/
lemma sufficient_of_mayAdvance (hmono : S.code.Monotone S.k) (hM' : env.maxInFlight ≤ 64)
    (hwf : w.Wf) (h : InStep env S j B base shift os w)
    (hfit : w.cursor + env.maxInFlight < 2 ^ 64)
    (hhears : Hears S.code S.k env.maxInFlight j n os) {clk : Clock}
    (hfresh : FreshFrom env B w (.pass clk)) (hmay : mayAdvance env clk.guard w = true) {t : ℕ}
    (ht : base + 64 ≤ t) (hhead : (w.cursor : ℤ) = t + shift) :
    S.code.Sufficient S.k (esisOf t os).toFinset := by
  have hkey := h.le_key
  have hforce : shouldForce env w = true → S.code.Sufficient S.k (esisOf t os).toFinset := by
    intro hforce
    exact h.sufficient_of_forced hmono hhears ht hhead
      ((hwf.shouldForce_iff h.started hfit).mp hforce)
  unfold mayAdvance at hmay
  cases hb : w.pool[w.cursor]? with
  | some b =>
    have hlt := hfresh w.cursor b (by omega) hb
    simp only [hb, Bool.or_eq_true, decide_eq_true_eq, Nat.not_le.mpr hlt, or_false] at hmay
    rcases hmay with hcompleted | hforced
    · exact (h.pool ht hhead hb).2.2.mp hcompleted
    · exact hforce hforced
  | none =>
    simp only [hb, zeroGuard, h.started, Bool.true_and, Bool.or_eq_true, decide_eq_true_eq,
      wrappingAdd_of_lt hfit] at hmay
    rcases hmay with hforced | hforced
    · exact hforce hforced
    · exact h.sufficient_of_forced hmono hhears ht hhead hforced

/-- A block of which enough has been heard is written decoded. -/
lemma emission_eq (hempty : ¬ S.code.Sufficient S.k ∅) (h : InStep env S j B base shift os w)
    {t k : ℕ} (ht : base + 64 ≤ t) (hk : (k : ℤ) = t + shift) (hle : w.cursor ≤ k)
    (hsuff : S.code.Sufficient S.k (esisOf t os).toFinset) :
    emissionOf k w.pool[k]? = ⟨k, .decoded, S.block t⟩ := by
  cases hb : w.pool[k]? with
  | none =>
    rw [h.absent ht hk hle hb] at hsuff
    exact absurd hsuff hempty
  | some b =>
    obtain ⟨hcollects, -, hiff⟩ := h.pool ht hk hb
    obtain ⟨data, hdata⟩ := Option.isSome_iff_exists.mp (hiff.mpr hsuff)
    rw [← hcollects.decoded data hdata]
    simp only [emissionOf, hdata]

/-- The drain loop emits the head. -/
lemma advance (hmono : S.code.Monotone S.k) (hempty : ¬ S.code.Sufficient S.k ∅)
    (hM' : env.maxInFlight ≤ 64) (hwf : w.Wf) (h : InStep env S j B base shift os w)
    (hfit : w.cursor + env.maxInFlight < 2 ^ 64)
    (hhears : Hears S.code S.k env.maxInFlight j n os) {clk : Clock}
    (hfresh : FreshFrom env B w (.pass clk)) (hmay : mayAdvance env clk.guard w = true) :
    InStep env S j B base shift os w.advance := by
  refine { h with cursor_le := ?_, pool := ?_, absent := ?_, written := ?_ }
  · have hle := hwf.cursor_le_of_mayAdvance hfit hmay
    rw [Window.advance_cursor]
    exact Nat.succ_le_succ hle
  · intro t k b ht hk hb
    exact h.pool ht hk (Window.get_of_get_advance hb).2
  · intro t k ht hk hle hnone
    rw [Window.advance_cursor] at hle
    rw [Window.get_advance, if_neg (by omega)] at hnone
    exact h.absent ht hk (by omega) hnone
  · intro e he t ht hsbn
    rcases List.mem_append.mp he with hold | hnew
    · exact h.written e hold t ht hsbn
    · obtain rfl := List.mem_singleton.mp hnew
      rw [emissionOf_sbn] at hsbn ⊢
      exact h.emission_eq hempty ht hsbn (Nat.le_refl _)
        (h.sufficient_of_mayAdvance hmono hM' hwf hfit hhears hfresh hmay ht hsbn)

end InStep

/-! ## Both -/

/-- The numbering is fixed, or no packet heard has been taken. -/
def Regaining (env : Env D) (S : Stream) (j B : ℕ) (os : List Origin) (w : Window D) : Prop :=
  Behind env j B os w ∨ ∃ base shift, InStep env S j B base shift os w

namespace Regaining

lemma le_window (h : Regaining env S j B os w) (hn : ∀ o ∈ os, o.block < n) :
    w.cursor ≤ n + B + 128 := by
  rcases h with hbehind | ⟨base, shift, hstep⟩
  · have hle := hbehind.cursor_le
    omega
  · have hle := hstep.cursor_le
    have hkey := hstep.key_le
    rcases hstep.highest with hlt | ⟨o, ho, heq⟩
    · omega
    · have hlt := hn o ho
      omega

/-- A packet is delivered, and dropped or ingested. -/
lemma hear (hS : S.Wf) (hdec : env.dec.Laws S.code S.oti S.k) (hmono : S.code.Monotone S.k)
    (hM : 1 ≤ env.maxInFlight) (hM' : env.maxInFlight ≤ 32) (hB : env.maxInFlight ≤ B)
    (hwf : w.Wf) (hsettled : Settled env w) (hfit : w.cursor + env.maxInFlight < 2 ^ 64)
    (h : Regaining env S j B os w) (hhears : Hears S.code S.k env.maxInFlight j n (os ++ [o]))
    {w' : Window D} (hw : Handles env S w o w') : Regaining env S j B (os ++ [o]) w' := by
  have hempty := hdec.not_sufficient_empty
  have hesi := hhears.esi_lt o (List.mem_append_right _ (List.mem_singleton_self o))
  rcases h with hbehind | ⟨base, shift, hstep⟩
  · rcases hbehind.locate hempty hM hM' hhears with
      ⟨v, hroute, hlt, hheard⟩ | ⟨hle, hnear, hmod, hbase⟩
    · refine Or.inl ?_
      rcases hw with ⟨-, rfl⟩ | ⟨hred, now, b, -, rfl⟩
      · exact hbehind.late hheard
      · rw [Window.joined_of_started hbehind.started,
          route_eq_zero_of_clamped hbehind.started hroute hlt hred]
        exact (hbehind.late hheard).clamp b
    · right
      rcases hw with ⟨hred, -⟩ | ⟨-, now, b, -, rfl⟩
      · rw [Window.redundant, Window.joined_of_started hbehind.started, decide_eq_true_eq] at hred
        omega
      · rw [Window.joined_of_started hbehind.started]
        exact ⟨_, _, hbehind.accept hM' hhears hle hnear hmod hbase b⟩
  · refine Or.inr ⟨base, shift, ?_⟩
    obtain ⟨v, hlo, hhi, hmod, hroute⟩ := route_eq_max hstep.started o.block
    obtain ⟨hlo', hhi'⟩ := hstep.near hempty hM hM'
      (hsettled.highestSeen_lt hwf hstep.started hM) hhears
    have hshift := hstep.shift_mod
    obtain rfl : v = o.block + shift := by omega
    by_cases hlt : o.block + shift < w.cursor
    · rcases hw with ⟨-, rfl⟩ | ⟨hred, now, b, -, rfl⟩
      · exact hstep.late hwf hlt
      · rw [Window.joined_of_started hstep.started,
          route_eq_zero_of_clamped hstep.started hroute hlt hred]
        exact (hstep.late hwf hlt).clamp hB b
    · rcases hw with ⟨hred, -⟩ | ⟨-, now, b, hb, rfl⟩
      · exact absurd ((redundant_iff hstep.started hroute).mp hred).1 hlt
      · rw [Window.joined_of_started hstep.started]
        exact hstep.accept hS hdec hmono hesi (by omega) (by omega) hb

/-- One step of such a run. -/
lemma moves (hS : S.Wf) (hdec : env.dec.Laws S.code S.oti S.k) (hmono : S.code.Monotone S.k)
    (hM : 1 ≤ env.maxInFlight) (hM' : env.maxInFlight ≤ 32) (hB : env.maxInFlight ≤ B)
    {p p' : Point} (hwf : w.Wf) (hsettled : p = .recv → Settled env w)
    (hfit : w.cursor + env.maxInFlight < 2 ^ 64) (h : Regaining env S j B os w) {a : Action}
    {tag : Option Origin} (hcarries : Carries env S (a, tag)) (hfresh : FreshFrom env B w a)
    (hhears : Hears S.code S.k env.maxInFlight j n (os ++ tag.toList)) {w' : Window D}
    (hm : Moves env p w a p' w') (hopen : p' ≠ .closed) :
    Regaining env S j B (os ++ tag.toList) w' := by
  rcases hm.carried hS hcarries with ⟨o, rfl, rfl, hw⟩ |
    ⟨rfl, rfl | hclosed | ⟨clk, rfl, hmay, rfl⟩⟩
  · exact h.hear hS hdec hmono hM hM' hB hwf (hsettled rfl) hfit hhears hw
  · rwa [Option.toList_none, List.append_nil]
  · exact absurd hclosed hopen
  · rw [Option.toList_none, List.append_nil] at hhears ⊢
    rcases h with hbehind | ⟨base, shift, hstep⟩
    · exact Or.inl (hbehind.advance hwf hfit hmay)
    · exact Or.inr ⟨base, shift, hstep.advance hmono hdec.not_sufficient_empty (by omega) hwf hfit
        hhears hfresh hmay⟩

end Regaining

end RaptorqTs
