import RaptorqTs.Dec.Pool
import RaptorqTs.Dec.Routing
import RaptorqTs.Stream

/-!
# Genuine packets

Runs in which every data frame is a packet of the encoder. A frame on the wire has only the
low byte of its block's index, so the events of such a run carry their origin, the index of
the block and the ESI, as an annotation; the program does not see it. As long as the origins
stay within half a period of the cursor, each pool entry collects packets of one block only,
and holds what the annotations say it has been fed.
-/

namespace RaptorqTs

variable {D : Type}

/-! ## Annotated runs -/

/-- An action, with the origin of the packet it delivers. -/
abbrev TaggedAction : Type := Action × Option Origin

/-- `step`, which does not see the annotation. -/
def taggedStep (env : Env D) (c : Conf D) (x : TaggedAction) : Option (Conf D) := step env c x.1

/-- The true index of the block at the cursor, when the block joined at has index `j`. -/
def trueCursor (j : ℕ) (w : Window D) : ℕ := j + (w.cursor - w.first)

/-- The first data frame belongs to block `j`, no frame to a block before, and each to a block
within half a period of the cursor. -/
def InReach (j : ℕ) (w : Window D) (l : ℕ) : Prop :=
  if w.started then j ≤ l ∧ trueCursor j w ≤ l + 128 ∧ l ≤ trueCursor j w + 127 else l = j

instance (j : ℕ) (w : Window D) (l : ℕ) : Decidable (InReach j w l) :=
  inferInstanceAs (Decidable (if w.started = true then j ≤ l ∧ trueCursor j w ≤ l + 128 ∧
    l ≤ trueCursor j w + 127 else l = j))

/-- The data frame of an event, if it carries one, is the stream's packet it is annotated
with, and the packet is in reach. -/
def Genuine (env : Env D) (S : Stream) (j : ℕ) (w : Window D) : TaggedAction → Prop
  | (.event _ ev, tag) => ∀ f ∈ dataFrame env ev, ∃ o ∈ tag,
    f = (S.oti, S.packet o) ∧ InReach j w o.block
  | (.pass _, _) | (.disconnect, _) => True

instance (env : Env D) (S : Stream) (j : ℕ) (w : Window D) :
    (x : TaggedAction) → Decidable (Genuine env S j w x)
  | (.event _ ev, tag) => inferInstanceAs (Decidable (∀ f ∈ dataFrame env ev, ∃ o ∈ tag,
    f = (S.oti, S.packet o) ∧ InReach j w o.block))
  | (.pass _, _) | (.disconnect, _) => inferInstanceAs (Decidable True)

/-- Runs fed with genuine packets only. -/
abbrev GenuineRun (env : Env D) (S : Stream) (j : ℕ) (now : Instant) (xs : List TaggedAction) :
    Prop :=
  Machine.EachStep (taggedStep env) (init now) (fun c x => Genuine env S j c.window x) xs

/-- The origin of the frame that an action delivers, if it is accepted. -/
def originsOf (env : Env D) (w : Window D) : TaggedAction → List Origin
  | (.event _ ev, some o) => if (acceptedBlock env w ev).isSome then [o] else []
  | _ => []

/-- The origins of the frames accepted in a run. -/
def acceptedOrigins (env : Env D) (now : Instant) (xs : List TaggedAction) : List Origin :=
  Machine.trace (taggedStep env) (fun c x => originsOf env c.window x) (init now) xs

/-! ## One block -/

/-- The block state holds what the packets of block `l` with the given ESIs make of it. -/
structure BlockState.Collects (dec : SourceBlockDecoder D) (S : Stream) (l : ℕ) (esis : List ℕ)
    (b : BlockState D) : Prop where
  k_eq : b.k = S.k
  blockSize_eq : b.blockSize = S.blockSize
  shape : b.Shape
  decoded : ∀ data, b.completed = some data → data = S.block l
  fed : b.completed = none → dec.Fed S.code (sbnOf l) S.oti S.k (S.block l) esis b.decoder
  stored : b.completed = none → ∀ i, b.sourceSymbols.lookup i =
    if i < S.k ∧ i ∈ esis then some (S.sourceSymbol l i) else none

namespace BlockState

variable {dec : SourceBlockDecoder D} {S : Stream} {l : ℕ} {esis : List ℕ} {b b' : BlockState D}

lemma collects_new (hS : S.Wf) (l : ℕ) (now : Instant) :
    (new dec (sbnOf l) S.oti now).Collects dec S l [] where
  k_eq := by
    have hk : S.oti.transferLength / S.oti.symbolSize = S.k :=
      Nat.mul_div_cancel _ symbolSize_pos
    have hle := hS.k_le
    simp only [new, hk]
    exact Nat.mod_eq_of_lt (lt_of_le_of_lt hle (by decide))
  blockSize_eq := rfl
  shape := shape_new hS.oti_sane _ _
  decoded data h := by cases h
  fed _ := .new
  stored _ i := by
    rw [if_neg (by simp)]
    exact AList.lookup_empty i

/-- Ingesting a packet of the block. -/
lemma Collects.ingest (hS : S.Wf)
    (hdec : dec.NeverWrong S.code (sbnOf l) S.oti S.k (S.block l))
    (h : b.Collects dec S l esis) {e : ℕ} (hi : b.ingest dec (S.packet ⟨l, e⟩) = some b') :
    b'.Collects dec S l (esis ++ [e]) := by
  have hlen : (S.packet ⟨l, e⟩).data.length = symbolSize :=
    hS.code_laws.symbol_length hS.k_pos (hS.block_length l)
  have hshape := h.shape.ingest hlen hi
  rcases ingest_cases hi with ⟨hsome, rfl⟩ | ⟨hnone, r, d, hdecode, rfl⟩
  · have hopen : b'.completed ≠ none := by
      rw [← Option.isSome_iff_ne_none]
      exact hsome
    exact ⟨h.k_eq, h.blockSize_eq, h.shape, h.decoded, fun hc => absurd hc hopen,
      fun hc => absurd hc hopen⟩
  · refine ⟨by simpa using h.k_eq, by simpa using h.blockSize_eq, hshape, ?_, ?_, ?_⟩
    · rintro data rfl
      exact hdec (h.fed hnone) hdecode
    · rintro rfl
      exact .feed (h.fed hnone) hdecode
    · intro _ i
      change (b.note (S.packet ⟨l, e⟩)).sourceSymbols.lookup i = _
      rw [lookup_note, h.stored hnone, h.k_eq]
      change (if i < S.k ∧ i ∈ esis then some (S.sourceSymbol l i) else none).or
        (if e = i ∧ i < S.k then some (S.code.symbol S.k (S.block l) e) else none) = _
      -- the first symbol stored wins, and all copies of a source symbol are the same
      by_cases hik : i < S.k
      · by_cases hmem : i ∈ esis
        · simp [hik, hmem]
        · by_cases hei : e = i
          · subst hei
            rw [if_neg (by simp [hmem]), if_pos ⟨rfl, hik⟩, if_pos (by simp [hik]),
              hS.code_laws.systematic (hS.block_length l) hik]
            rfl
          · have hne : i ≠ e := fun h => hei h.symm
            simp [hmem, hei, hne]
      · simp [hik]

end BlockState

/-! ## Routing by origin -/

variable {env : Env D} {S : Stream} {j : ℕ} {w : Window D}

/-- The numbering was joined at the SBN of block `j`. -/
def JoinedAt (j : ℕ) (w : Window D) : Prop := w.started = true → w.first % 256 = j % 256

/-- A packet in reach is routed to its own block, counted from the first. -/
lemma route_of_inReach (hwf : w.Wf) (hj : JoinedAt j w) {l : ℕ} (hreach : InReach j w l) :
    j ≤ l ∧ w.route (sbnOf l) = (w.joined (sbnOf l)).first + (l - j) ∧
      JoinedAt j (w.joined (sbnOf l)) := by
  unfold InReach at hreach
  cases hstarted : w.started with
  | false =>
    rw [hstarted, if_neg (by decide)] at hreach
    subst hreach
    rw [Window.route_of_idle hstarted, Window.joined_of_idle hstarted]
    exact ⟨le_refl _, by simp, fun _ => by simp⟩
  | true =>
    rw [hstarted, if_pos rfl] at hreach
    obtain ⟨hjl, hlo, hhi⟩ := hreach
    have hmod := hj hstarted
    have hfirst := hwf.first_le
    rw [Window.route_of_started hstarted, Window.joined_of_started hstarted]
    refine ⟨hjl, ?_, hj⟩
    -- `first` and `j` agree modulo 256, so the SBN is also that of the index counted from `first`
    have hsbn : sbnOf l = sbnOf (w.first + (l - j)) := by
      apply UInt8.toNat_inj.mp
      rw [toNat_sbnOf, toNat_sbnOf]
      omega
    unfold trueCursor at hlo hhi
    rw [hsbn, unwrapSbn_sbnOf (by omega) (by omega)]

/-- A packet in reach is dropped exactly when its block has been emitted. -/
lemma redundant_of_inReach (hwf : w.Wf) (hj : JoinedAt j w) {l : ℕ} (hreach : InReach j w l) :
    w.redundant (sbnOf l) = false ↔ trueCursor j w ≤ l := by
  obtain ⟨hjl, hroute, -⟩ := route_of_inReach hwf hj hreach
  rw [Window.redundant, hroute, decide_eq_false_iff_not]
  unfold trueCursor
  cases hstarted : w.started with
  | false =>
    rw [hwf.idle hstarted, Window.joined_of_idle rfl]
    simp [Window.init, hjl]
  | true =>
    have := hwf.first_le
    rw [Window.joined_of_started hstarted]
    omega

/-! ## All blocks -/

/-- Every pool entry holds what the accepted packets of its block make of it, and a block of
which a packet was accepted is in the pool until it is emitted. -/
structure Content (env : Env D) (S : Stream) (j : ℕ) (os : List Origin) (w : Window D) : Prop where
  joined : JoinedAt j w
  idle : w.started = false → os = []
  pool : ∀ {k : ℕ} {b}, w.pool[k]? = some b →
    b.Collects env.dec S (j + (k - w.first)) (esisOf (j + (k - w.first)) os)
  absent : ∀ {k : ℕ}, w.started = true → w.cursor ≤ k → w.pool[k]? = none →
    esisOf (j + (k - w.first)) os = []

namespace Content

variable {os : List Origin}

lemma init : Content env S j [] (Window.init : Window D) where
  joined h := by cases h
  idle _ := rfl
  pool h := by rw [Window.get_init] at h; cases h
  absent h := by cases h

/-- The entry a packet is ingested into is that of the pool, or nothing has been collected of its
block and it is new. -/
lemma entry_cases (hwf : w.Wf) (h : Content env S j os w) {l : ℕ} (hreach : InReach j w l)
    (hred : w.redundant (sbnOf l) = false) (now : Instant) :
    (∃ b, w.pool[w.route (sbnOf l)]? = some b ∧
        w.entry env now (w.route (sbnOf l)) (sbnOf l) S.oti = b ∧
          j + (w.route (sbnOf l) - w.first) = l) ∨
      (w.entry env now (w.route (sbnOf l)) (sbnOf l) S.oti =
          BlockState.new env.dec (sbnOf l) S.oti now ∧ esisOf l os = []) := by
  obtain ⟨hjl, hroute, -⟩ := route_of_inReach hwf h.joined hreach
  have hle := Window.cursor_le_route hred
  cases hstarted : w.started with
  | false =>
    refine Or.inr ⟨Window.entry_of_absent (hwf.pool_of_idle hstarted _), ?_⟩
    rw [h.idle hstarted]
    rfl
  | true =>
    rw [Window.joined_of_started hstarted] at hroute hle
    have hindex : j + (w.route (sbnOf l) - w.first) = l := by omega
    cases hb : w.pool[w.route (sbnOf l)]? with
    | some b => exact Or.inl ⟨b, rfl, Window.entry_of_get hb, hindex⟩
    | none =>
      have habsent := h.absent hstarted hle hb
      rw [hindex] at habsent
      exact Or.inr ⟨Window.entry_of_absent hb, habsent⟩

/-- The pool entry a packet is ingested into, new or not. -/
lemma entry (hS : S.Wf) (hwf : w.Wf) (h : Content env S j os w) {l : ℕ}
    (hreach : InReach j w l) (hred : w.redundant (sbnOf l) = false) (now : Instant) :
    (w.entry env now (w.route (sbnOf l)) (sbnOf l) S.oti).Collects env.dec S l (esisOf l os) := by
  rcases h.entry_cases hwf hreach hred now with ⟨b, hb, hentry, hindex⟩ | ⟨hentry, hnil⟩
  · have hpool := h.pool hb
    rw [hindex] at hpool
    rw [hentry]
    exact hpool
  · rw [hentry, hnil]
    exact BlockState.collects_new hS l now

/-- After a packet has been ingested, an entry of the pool is that of the packet's block, or it
was there before and nothing new has been collected for it. -/
lemma get_of_accept (hwf : w.Wf) (h : Content env S j os w) {o : Origin}
    (hreach : InReach j w o.block) {b b' : BlockState D} {k : ℕ}
    (hk : ((w.joined (sbnOf o.block)).hold (w.route (sbnOf o.block)) b).pool[k]? = some b') :
    (j + (k - (w.joined (sbnOf o.block)).first) = o.block ∧ b' = b) ∨
      (w.pool[k]? = some b' ∧ (w.joined (sbnOf o.block)).first = w.first ∧
        esisOf (j + (k - w.first)) (os ++ [o]) = esisOf (j + (k - w.first)) os) := by
  obtain ⟨hjl, hroute, -⟩ := route_of_inReach hwf h.joined hreach
  rcases Window.get_of_get_hold hk with ⟨hkr, rfl⟩ | ⟨hkr, hbefore⟩
  · exact Or.inl ⟨by omega, rfl⟩
  · have hstarted := hwf.started_of_get hbefore
    have hck := hwf.cursor_le_key hbefore
    have hfirst := hwf.first_le
    rw [Window.joined_of_started hstarted] at hroute ⊢
    refine Or.inr ⟨hbefore, rfl, ?_⟩
    rw [esisOf_concat, if_neg (by omega), List.append_nil]

lemma accept (hwf : w.Wf) (h : Content env S j os w) {o : Origin}
    (hreach : InReach j w o.block) {b : BlockState D}
    (hb : b.Collects env.dec S o.block (esisOf o.block os ++ [o.esi])) :
    Content env S j (os ++ [o])
      ((w.joined (sbnOf o.block)).hold (w.route (sbnOf o.block)) b) := by
  obtain ⟨hjl, hroute, hjoined⟩ := route_of_inReach hwf h.joined hreach
  refine ⟨fun hs => hjoined hs, fun hs => ?_, fun {k b'} hk => ?_, fun {k} _ hk hnone => ?_⟩
  · rw [Window.hold_started, Window.joined_started] at hs
    cases hs
  · rw [Window.hold_first]
    rcases h.get_of_accept hwf hreach hk with ⟨hindex, rfl⟩ | ⟨hbefore, hfirst, hesis⟩
    · rw [hindex, esisOf_concat, if_pos rfl]
      exact hb
    · rw [hfirst, hesis]
      exact h.pool hbefore
  · rw [Window.get_hold, Window.joined_pool] at hnone
    rw [Window.hold_cursor] at hk
    rw [Window.hold_first]
    by_cases hkr : w.route (sbnOf o.block) = k
    · rw [if_pos hkr] at hnone
      cases hnone
    · rw [if_neg hkr] at hnone
      -- other blocks than the packet's have collected nothing new
      have hfirst := hwf.first_le_joined (sbnOf o.block)
      rw [esisOf_concat, if_neg (by omega), List.append_nil]
      cases hstarted : w.started with
      | false => rw [h.idle hstarted]; rfl
      | true =>
        rw [Window.joined_of_started hstarted] at hk ⊢
        exact h.absent hstarted hk hnone

/-- A packet of a block that has been emitted changes nothing. -/
lemma late (hwf : w.Wf) (h : Content env S j os w) {o : Origin} (hstarted : w.started = true)
    (hlate : o.block < trueCursor j w) : Content env S j (os ++ [o]) w := by
  have hfirst := hwf.first_le
  unfold trueCursor at hlate
  have hsame : ∀ {k : ℕ}, w.cursor ≤ k →
      esisOf (j + (k - w.first)) (os ++ [o]) = esisOf (j + (k - w.first)) os := by
    intro k hk
    rw [esisOf_concat, if_neg (by omega), List.append_nil]
  refine ⟨h.joined, fun hidle => ?_, fun {k b} hb => ?_, fun {k} hs hk hnone => ?_⟩
  · rw [hstarted] at hidle
    cases hidle
  · rw [hsame (hwf.cursor_le_key hb)]
    exact h.pool hb
  · rw [hsame hk]
    exact h.absent hs hk hnone

lemma advance (h : Content env S j os w) : Content env S j os w.advance where
  joined := h.joined
  idle := h.idle
  pool hk := h.pool (Window.get_of_get_advance hk).2
  absent hs hk hnone := by
    rw [Window.advance_cursor] at hk
    rw [Window.get_advance, if_neg (by omega)] at hnone
    exact h.absent hs (by omega) hnone

end Content

/-! ## Steps of a genuine run -/

/-- What a step of a genuine run does: a packet in reach goes to its own block, and nothing
else puts anything into the pool. -/
lemma Moves.genuine {p p' : Point} {w w' : Window D} {x : TaggedAction}
    (hg : Genuine env S j w x) (hm : Moves env p w x.1 p' w') :
    (∃ (now : Instant) (o : Origin) (b : BlockState D),
        originsOf env w x = [o] ∧ InReach j w o.block ∧
        w.redundant (sbnOf o.block) = false ∧
        (w.entry env now (w.route (sbnOf o.block)) (sbnOf o.block) S.oti).ingest env.dec
          (S.packet o) = some b ∧
        p' = .drain ∧ w' = (w.joined (sbnOf o.block)).hold (w.route (sbnOf o.block)) b) ∨
      (originsOf env w x = [] ∧
        ((w' = w ∧ p' ≠ .closed) ∨ p' = .closed ∨
          ∃ clk : Clock, mayAdvance env clk.guard w = true ∧ p' = .drain ∧ w' = w.advance)) := by
  obtain ⟨a, tag⟩ := x
  simp only at hm
  cases hm with
  | @drop _ now ev hdrop =>
    refine Or.inr ⟨?_, Or.inl ⟨rfl, by decide⟩⟩
    have hnone : (acceptedBlock env w ev).isSome = false := by
      simpa using (Bool.and_eq_true_iff.mp hdrop).2
    cases tag <;> simp [originsOf, hnone]
  | ignore hev =>
    refine Or.inr ⟨?_, Or.inl ⟨rfl, by decide⟩⟩
    cases tag <;> simp [originsOf, acceptedBlock, saneFrame, hev]
  | @accept _ now ev oti pkt b hev hred hb =>
    obtain ⟨o, ho, hf, hreach⟩ := hg (oti, pkt) (saneFrame_eq_some.mp hev).1
    obtain ⟨rfl, rfl⟩ := Prod.mk.inj hf
    obtain rfl : tag = some o := ho
    rw [Stream.packet_sbn] at hred hb
    refine Or.inl ⟨now, o, b, ?_, hreach, hred, hb, rfl, rfl⟩
    have hacc : (acceptedBlock env w ev).isSome = true := by
      simp [acceptedBlock, hev, Stream.packet_sbn, hred]
    simp [originsOf, hacc]
  | @advance _ clk hmay =>
    exact Or.inr ⟨by cases tag <;> rfl, Or.inr (Or.inr ⟨clk, hmay, rfl, rfl⟩)⟩
  | settle _ => exact Or.inr ⟨by cases tag <;> rfl, Or.inl ⟨rfl, by decide⟩⟩
  | flush => exact Or.inr ⟨by cases tag <;> rfl, Or.inr (Or.inl rfl)⟩

/-- The annotations make no difference to the run. -/
lemma run_tagged (c : Conf D) (xs : List TaggedAction) :
    Machine.run (taggedStep env) c xs = Machine.run (step env) c (xs.map Prod.fst) := by
  induction xs generalizing c with
  | nil => rfl
  | cons x xs ih =>
    rw [List.map_cons, Machine.run_cons, Machine.run_cons]
    congr 1
    funext c'
    exact ih c'

lemma Reachable.of_tagged {now : Instant} {xs : List TaggedAction} {c : Conf D}
    (h : Machine.run (taggedStep env) (init now) xs = some c) : Reachable env c :=
  ⟨now, xs.map Prod.fst, by rw [runFrom, ← run_tagged, h]⟩

/-- **Induction over a genuine run**, on the origins accepted and the window. -/
theorem run_genuine_induction {P : List Origin → Window D → Prop} (hinit : P [] Window.init)
    (haccept : ∀ {os w now o b}, w.Wf → P os w → InReach j w o.block →
      w.redundant (sbnOf o.block) = false →
      (w.entry env now (w.route (sbnOf o.block)) (sbnOf o.block) S.oti).ingest env.dec
        (S.packet o) = some b →
      P (os ++ [o]) ((w.joined (sbnOf o.block)).hold (w.route (sbnOf o.block)) b))
    (hadvance : ∀ {os w t}, w.Wf → P os w → mayAdvance env t w = true → P os w.advance)
    {now : Instant} {xs : List TaggedAction} {c : Conf D} (hgen : GenuineRun env S j now xs)
    (h : Machine.run (taggedStep env) (init now) xs = some c) (hopen : c.point ≠ .closed) :
    P (acceptedOrigins env now xs) c.window := by
  refine Machine.run_induction_of (P := fun xs (c : Conf D) => c.point ≠ .closed →
    P (acceptedOrigins env now xs) c.window) ?_ ?_ hgen h hopen
  · intro _
    exact hinit
  · intro xs c x c' hrun _ hP hg hstep hopen'
    have hopen := step_open hstep
    have hwf := (Reachable.of_tagged hrun).wf hopen
    have horigins : acceptedOrigins env now (xs ++ [x])
        = acceptedOrigins env now xs ++ originsOf env c.window x :=
      Machine.trace_concat x hrun
    -- a packet accepted, nothing, the end of the input, or an emission
    rw [horigins]
    rcases (step_moves hstep).genuine hg with
      ⟨now', o, b, ho, hreach, hred, hb, -, hw⟩ | ⟨ho, ⟨hw, -⟩ | hclosed | ⟨clk, hmay, -, hw⟩⟩
    · rw [ho, hw]
      exact haccept hwf (hP hopen) hreach hred hb
    · rw [ho, hw, List.append_nil]
      exact hP hopen
    · exact absurd hclosed hopen'
    · rw [ho, hw, List.append_nil]
      exact hadvance hwf (hP hopen) hmay

/-- **Each block is collected from its own packets**, in every genuine run. -/
theorem run_content (hS : S.Wf)
    (hdec : ∀ l, env.dec.NeverWrong S.code (sbnOf l) S.oti S.k (S.block l)) {now : Instant}
    {xs : List TaggedAction} {c : Conf D} (hgen : GenuineRun env S j now xs)
    (h : Machine.run (taggedStep env) (init now) xs = some c) (hopen : c.point ≠ .closed) :
    Content env S j (acceptedOrigins env now xs) c.window := by
  apply run_genuine_induction Content.init _ _ hgen h hopen
  · intro os w now o b hwf hcontent hreach hred hb
    exact hcontent.accept hwf hreach
      ((hcontent.entry hS hwf hreach hred now).ingest hS (hdec o.block) hb)
  · intro os w t _ hcontent _
    exact hcontent.advance

/-! ## What is written -/

/-- The bytes written for block `l`: each symbol is the block's or zeros, and it is the
block's if it is among the given ESIs. -/
structure Faithful (S : Stream) (l : ℕ) (esis : List ℕ) (data : Bytes) : Prop where
  length_eq : data.length = S.blockSize
  symbol : ∀ i < S.k, slice data (i * symbolSize) symbolSize = S.sourceSymbol l i ∨
    slice data (i * symbolSize) symbolSize = List.replicate symbolSize 0
  delivered : ∀ i < S.k, i ∈ esis → slice data (i * symbolSize) symbolSize = S.sourceSymbol l i

/-- The output of a block that has collected some packets. -/
lemma BlockState.Collects.faithful {dec : SourceBlockDecoder D} (hS : S.Wf) {l : ℕ}
    {esis : List ℕ} {b : BlockState D} (h : b.Collects dec S l esis) :
    Faithful S l esis b.output := by
  unfold BlockState.output
  cases hc : b.completed with
  | some data =>
    simp only
    rw [h.decoded data hc]
    exact ⟨hS.block_length l, fun i _ => Or.inl rfl, fun i _ _ => rfl⟩
  | none =>
    simp only
    refine ⟨by rw [h.shape.length_bestEffort, h.blockSize_eq], fun i hi => ?_, fun i hi hmem => ?_⟩
    · rw [h.shape.slice_bestEffort (by rw [h.k_eq]; exact hi), h.stored hc]
      by_cases hmem : i < S.k ∧ i ∈ esis
      · exact Or.inl (by rw [if_pos hmem]; rfl)
      · exact Or.inr (by rw [if_neg hmem]; rfl)
    · rw [h.shape.slice_bestEffort (by rw [h.k_eq]; exact hi), h.stored hc, if_pos ⟨hi, hmem⟩]
      rfl

/-- A zero block stands for a block of which nothing was accepted. -/
lemma faithful_zeros (l : ℕ) : Faithful S l [] (List.replicate S.blockSize 0) where
  length_eq := List.length_replicate ..
  symbol i hi := Or.inr (slice_replicate (Reference.fit_symbol hi))
  delivered i _ hmem := by cases hmem

/-- The output up to the cursor, block by block. -/
structure Output (S : Stream) (j : ℕ) (os : List Origin) (w : Window D) : Prop where
  length_eq : w.stdout.length = w.cursor - w.first
  faithful : ∀ {n e}, w.stdout[n]? = some e → Faithful S (j + n) (esisOf (j + n) os) e.data

namespace Output

variable {os : List Origin}

lemma init : Output S j [] (Window.init : Window D) where
  length_eq := rfl
  faithful h := by cases h

/-- A packet is accepted for a block that has not been emitted. -/
lemma accept (hwf : w.Wf) (hj : JoinedAt j w) (h : Output S j os w) {o : Origin}
    (hreach : InReach j w o.block) (hred : w.redundant (sbnOf o.block) = false)
    (b : BlockState D) :
    Output S j (os ++ [o]) ((w.joined (sbnOf o.block)).hold (w.route (sbnOf o.block)) b) := by
  have hlate := (redundant_of_inReach hwf hj hreach).mp hred
  refine ⟨hwf.length_stdout_accept _ _ h.length_eq, fun {n e} hn => ?_⟩
  rw [Window.hold_stdout, Window.joined_stdout] at hn
  have hlt := (List.getElem?_eq_some_iff.mp hn).1
  have hlen := h.length_eq
  have hne : o.block ≠ j + n := by
    unfold trueCursor at hlate
    omega
  rw [esisOf_concat, if_neg hne, List.append_nil]
  exact h.faithful hn

/-- The head is written from what it has collected, or as zeros. -/
lemma advance (hS : S.Wf) (hk : S.k = defaultBlockSymbols) (hwf : w.Wf)
    (hstarted : w.started = true) (hcontent : Content env S j os w) (h : Output S j os w) :
    Output S j os w.advance := by
  refine ⟨hwf.length_stdout_advance h.length_eq, fun {n e} hn => ?_⟩
  simp only [Window.advance] at hn
  rw [List.getElem?_append] at hn
  by_cases hlt : n < w.stdout.length
  · rw [if_pos hlt] at hn
    exact h.faithful hn
  · -- the emission that is new
    rw [if_neg hlt, List.getElem?_singleton] at hn
    simp only [Option.ite_none_right_eq_some, Option.some.injEq] at hn
    obtain ⟨hn, rfl⟩ := hn
    have hlen := h.length_eq
    have hindex : n = w.cursor - w.first := by omega
    subst hindex
    cases hb : w.pool[w.cursor]? with
    | some b =>
      rw [emissionOf_some_data]
      exact (hcontent.pool hb).faithful hS
    | none =>
      rw [hcontent.absent hstarted (le_refl _) hb]
      have hsize : defaultBlockSize = S.blockSize := by
        rw [Stream.blockSize, hk, defaultBlockSize]
      simp only [emissionOf, hsize]
      exact faithful_zeros _

end Output

/-- The output of a genuine run with blocks of the default size. -/
lemma run_output (hS : S.Wf) (hk : S.k = defaultBlockSymbols)
    (hdec : ∀ l, env.dec.NeverWrong S.code (sbnOf l) S.oti S.k (S.block l)) {now : Instant}
    {xs : List TaggedAction} {c : Conf D} (hgen : GenuineRun env S j now xs)
    (h : Machine.run (taggedStep env) (init now) xs = some c) (hopen : c.point ≠ .closed) :
    Output S j (acceptedOrigins env now xs) c.window := by
  have hboth : Content env S j (acceptedOrigins env now xs) c.window ∧
      Output S j (acceptedOrigins env now xs) c.window := by
    apply run_genuine_induction (P := fun os w => Content env S j os w ∧ Output S j os w)
      ⟨Content.init, Output.init⟩ _ _ hgen h hopen
    · intro os w now o b hwf hw hreach hred hb
      obtain ⟨hcontent, houtput⟩ := hw
      refine ⟨hcontent.accept hwf hreach ?_, houtput.accept hwf hcontent.joined hreach hred b⟩
      exact (hcontent.entry hS hwf hreach hred now).ingest hS (hdec o.block) hb
    · intro os w t hwf hw hmay
      obtain ⟨hcontent, houtput⟩ := hw
      exact ⟨hcontent.advance,
        houtput.advance hS hk hwf (hwf.started_of_mayAdvance hmay) hcontent⟩
  exact hboth.2

/-- Source symbol `i` of block `l` was delivered in a run, when block `l` had not been
emitted. -/
def Delivered (env : Env D) (j : ℕ) (now : Instant) (xs : List TaggedAction) (l i : ℕ) : Prop :=
  ∃ pre t ev post c, xs = pre ++ (.event t ev, some ⟨l, i⟩) :: post ∧
    Machine.run (taggedStep env) (init now) pre = some c ∧ (dataFrame env ev).isSome = true ∧
    trueCursor j c.window ≤ l

/-- A packet delivered in time is accepted. -/
lemma Delivered.mem_acceptedOrigins (hS : S.Wf) {now : Instant} {xs : List TaggedAction}
    {c : Conf D} (hdec : ∀ l, env.dec.NeverWrong S.code (sbnOf l) S.oti S.k (S.block l))
    (hgen : GenuineRun env S j now xs)
    (h : Machine.run (taggedStep env) (init now) xs = some c) {l i : ℕ}
    (hd : Delivered env j now xs l i) : ⟨l, i⟩ ∈ acceptedOrigins env now xs := by
  obtain ⟨pre, t, ev, post, m, rfl, hm, hdata, hlate⟩ := hd
  obtain ⟨f, hf⟩ := Option.isSome_iff_exists.mp hdata
  obtain ⟨o, ho, hfo, hreach⟩ := hgen pre _ post m rfl hm f hf
  obtain rfl : (⟨l, i⟩ : Origin) = o := Option.some.inj ho
  subst hfo
  obtain ⟨m', hstep, -⟩ := Machine.exists_step_of_run h hm
  have hopen := step_open hstep
  have hcontent := run_content hS hdec hgen.of_append hm hopen
  have hred := (redundant_of_inReach ((Reachable.of_tagged hm).wf hopen) hcontent.joined
    hreach).mpr hlate
  have hsane : saneFrame env ev = some (S.oti, S.packet ⟨l, i⟩) :=
    saneFrame_eq_some.mpr ⟨hf, hS.oti_sane⟩
  refine Machine.mem_trace_of_cut hm ?_
  simp [originsOf, acceptedBlock, hsane, Stream.packet_sbn, hred]

/-- **No wrong or displaced bytes.** In every genuine run with blocks of the default size, the
live loop has written `(c - j) * defaultBlockSize` bytes, for `c` the true index at the
cursor. In the place of each block `l` from `j` on and before `c`, each symbol is that
symbol of the block or zeros, and it is the block's whenever it was delivered before the
block was emitted. -/
theorem content_of_genuine_run (hS : S.Wf) (hk : S.k = defaultBlockSymbols)
    (hdec : ∀ l, env.dec.NeverWrong S.code (sbnOf l) S.oti S.k (S.block l)) {now : Instant}
    {xs : List TaggedAction} {c : Conf D} (hgen : GenuineRun env S j now xs)
    (h : Machine.run (taggedStep env) (init now) xs = some c) (hopen : c.point ≠ .closed) :
    c.window.bytes.length = (trueCursor j c.window - j) * defaultBlockSize ∧
      ∀ l, j ≤ l → l < trueCursor j c.window → ∀ i < S.k,
        (slice c.window.bytes ((l - j) * defaultBlockSize + i * symbolSize) symbolSize
            = S.sourceSymbol l i ∨
          slice c.window.bytes ((l - j) * defaultBlockSize + i * symbolSize) symbolSize
            = List.replicate symbolSize 0) ∧
        (Delivered env j now xs l i →
          slice c.window.bytes ((l - j) * defaultBlockSize + i * symbolSize) symbolSize
            = S.sourceSymbol l i) := by
  have hout := run_output hS hk hdec hgen h hopen
  have hsize : S.blockSize = defaultBlockSize := by rw [Stream.blockSize, hk, defaultBlockSize]
  have hlengths : ∀ data ∈ c.window.stdout.map Emission.data, data.length = defaultBlockSize := by
    intro data hdata
    obtain ⟨e, he, rfl⟩ := List.mem_map.mp hdata
    obtain ⟨n, hn⟩ := List.mem_iff_getElem?.mp he
    rw [(hout.faithful hn).length_eq, hsize]
  have hbytes : c.window.bytes = (c.window.stdout.map Emission.data).flatten := rfl
  have hcount : trueCursor j c.window - j = c.window.stdout.length := by
    rw [hout.length_eq, trueCursor, Nat.add_sub_cancel_left]
  refine ⟨?_, fun l hjl hlc i hi => ?_⟩
  · rw [hbytes, hcount, length_flatten_of_length hlengths, List.length_map]
  · -- the slice lies in the emission with index `l - j`
    have hn : l - j < c.window.stdout.length := by omega
    have hslice : slice c.window.bytes ((l - j) * defaultBlockSize + i * symbolSize) symbolSize
        = slice (c.window.stdout[l - j].data) (i * symbolSize) symbolSize := by
      have hfit : i * symbolSize + symbolSize ≤ defaultBlockSize := by
        rw [defaultBlockSize, ← hk]
        exact Reference.fit_symbol hi
      rw [← slice_slice hfit, hbytes,
        slice_flatten hlengths (by simpa using hn), List.getElem_map]
    have hfaithful := hout.faithful (List.getElem?_eq_getElem hn)
    rw [show j + (l - j) = l by omega] at hfaithful
    rw [hslice]
    exact ⟨hfaithful.symbol i hi, fun hd => hfaithful.delivered i hi
      (mem_esisOf.mpr (hd.mem_acceptedOrigins hS hdec hgen h))⟩

namespace Reference

/-- The frame of a packet of the stream, annotated with its origin. -/
def arrival (k : ℕ) (now : Instant) (o : Origin) : TaggedAction :=
  (.event now (otiFrame (stream k).oti (sbnOf o.block) o.esi ((stream k).packet o).data), some o)

end Reference

/-- One packet of a block of the default size arrives, and the block is emitted when its
timeout has passed. -/
def loneSymbol : List TaggedAction :=
  [Reference.arrival defaultBlockSymbols 0 ⟨0, 0⟩, (.pass (Clock.at 0), none),
    (.event 700000000 .tick, none), (.pass (Clock.at 700000000), none)]

/-- The symbol that has arrived is on the output. -/
theorem content_of_lone_symbol : ∃ c : Conf Reference.Decoder,
    Machine.run (taggedStep (Reference.env 8)) (init 0) loneSymbol = some c ∧
      c.window.bytes.length = defaultBlockSize ∧
      slice c.window.bytes 0 symbolSize = (Reference.stream defaultBlockSymbols).sourceSymbol 0 0 := by
  have hobs : (Machine.run (taggedStep (Reference.env 8)) (init 0) loneSymbol).map (fun c =>
      (c.point, c.window.cursor, c.window.first)) = some (.drain, 1, 0) := by
    decide +kernel
  obtain ⟨c, hc, hobs⟩ := Option.map_eq_some_iff.mp hobs
  simp only [Prod.mk.injEq] at hobs
  have hgen : GenuineRun (Reference.env 8) (Reference.stream defaultBlockSymbols) 0 0 loneSymbol :=
    Machine.eachStep_of_decide (by decide +kernel)
  have hcursor : trueCursor 0 c.window = 1 := by rw [trueCursor, hobs.2.1, hobs.2.2]
  have h := content_of_genuine_run (Reference.stream_wf (by decide) (by decide)) rfl
    (Reference.stream_neverWrong _) hgen hc (by rw [hobs.1]; decide)
  rw [hcursor] at h
  refine ⟨c, hc, by simpa using h.1, ?_⟩
  have hslice := (h.2 0 (le_refl _) (by decide) 0 (by decide)).2
    ⟨[], 0, _, _, init 0, rfl, rfl, by decide +kernel, by decide⟩
  rwa [Nat.sub_self, Nat.zero_mul, Nat.zero_mul, Nat.add_zero] at hslice

end RaptorqTs
