import RaptorqTs.Common.WireTheorems
import RaptorqTs.Dec.Window

/-!
# The blocks in the pool, and the end of the input

A fact about a block that holds when the block is created, and that ingesting a packet
keeps, holds of every block in the pool (`run_pool`). Lengths are the first use: what a
block puts on the output has the length its OTI announced. The second half of the file says
what `flush_remaining` does with the pool.
-/

namespace RaptorqTs

variable {D : Type} {env : Env D}

/-! ## The pool rule -/

/-- `G` holds of the frame that an action delivers, if it is accepted. -/
def AcceptsOnly (env : Env D) (G : Window D → ObjectTransmissionInformation → EncodingPacket → Prop)
    (w : Window D) : Action → Prop
  | .event _ ev => ∀ f ∈ saneFrame env ev,
    w.redundant f.2.payloadId.sourceBlockNumber = false → G w f.1 f.2
  | .pass _ | .disconnect => True

instance {G : Window D → ObjectTransmissionInformation → EncodingPacket → Prop}
    [∀ w oti pkt, Decidable (G w oti pkt)] (w : Window D) :
    (a : Action) → Decidable (AcceptsOnly env G w a)
  | .event _ ev => inferInstanceAs (Decidable (∀ f ∈ saneFrame env ev,
    w.redundant f.2.payloadId.sourceBlockNumber = false → G w f.1 f.2))
  | .pass _ | .disconnect => inferInstanceAs (Decidable True)

/-- **Pool rule.** `Q k b` holds of every binding of the pool, if a frame that satisfies `G`
creates a block with `Q` and keeps `Q` of the block it is ingested into. -/
theorem run_pool {G : Window D → ObjectTransmissionInformation → EncodingPacket → Prop}
    {Q : ℕ → BlockState D → Prop}
    (hnew : ∀ {w ev oti pkt} now, G w oti pkt → saneFrame env ev = some (oti, pkt) →
      Q (w.route pkt.payloadId.sourceBlockNumber)
        (BlockState.new env.dec pkt.payloadId.sourceBlockNumber oti now))
    (hingest : ∀ {w ev oti pkt b b'}, G w oti pkt → saneFrame env ev = some (oti, pkt) →
      Q (w.route pkt.payloadId.sourceBlockNumber) b → b.ingest env.dec pkt = some b' →
      Q (w.route pkt.payloadId.sourceBlockNumber) b')
    {now : Instant} {acts : List Action} {c : Conf D}
    (hG : Machine.EachStep (step env) (init now) (fun c a => AcceptsOnly env G c.window a) acts)
    (h : runFrom env now acts = some c) (hopen : c.point ≠ .closed) {k : ℕ} {b : BlockState D}
    (hk : c.window.pool[k]? = some b) : Q k b := by
  have hP : c.point ≠ .closed → ∀ (k : ℕ) b, c.window.pool[k]? = some b → Q k b := by
    refine run_window_induction (P := fun _ p w => p ≠ .closed →
      ∀ (k : ℕ) b, w.pool[k]? = some b → Q k b) ?_ ?_ hG h
    · intro _ k b hk
      rw [Window.get_init] at hk
      cases hk
    · intro acts p w a p' w' hP hGa hm
      cases hm with
      | drop _ => exact hP
      | ignore _ => exact fun _ => hP (by decide)
      | @accept w now ev oti pkt b' hev hred hb =>
        intro _ k b hk
        have hpool := hP (by decide)
        have hacc := hGa (oti, pkt) hev hred
        rcases Window.get_of_get_hold hk with ⟨rfl, rfl⟩ | ⟨-, hbefore⟩
        · -- the entry is new or was in the pool
          cases hold : w.pool[w.route pkt.payloadId.sourceBlockNumber]? with
          | none =>
            rw [Window.entry_of_absent hold] at hb
            exact hingest hacc hev (hnew now hacc hev) hb
          | some b₀ =>
            rw [Window.entry_of_get hold] at hb
            exact hingest hacc hev (hpool _ b₀ hold) hb
        · exact hpool k b hbefore
      | advance _ => exact fun _ k b hk => hP (by decide) k b (Window.get_of_get_advance hk).2
      | settle _ => exact fun _ => hP (by decide)
      | flush => exact fun h => absurd rfl h
  exact hP hopen k b hk

/-- The pool rule for a fact that no frame can break. -/
theorem Reachable.pool {Q : BlockState D → Prop}
    (hnew : ∀ {ev oti pkt} now, saneFrame env ev = some (oti, pkt) →
      Q (BlockState.new env.dec pkt.payloadId.sourceBlockNumber oti now))
    (hingest : ∀ {ev oti pkt b b'}, saneFrame env ev = some (oti, pkt) → Q b →
      b.ingest env.dec pkt = some b' → Q b')
    {c : Conf D} (h : Reachable env c) (hopen : c.point ≠ .closed) {k : ℕ} {b : BlockState D}
    (hk : c.window.pool[k]? = some b) : Q b := by
  obtain ⟨now, acts, hrun⟩ := h
  refine run_pool (G := fun _ _ _ => True) (Q := fun _ b => Q b) (fun now _ hev => hnew now hev)
    (fun _ hev hQ hb => hingest hev hQ hb) ?_ hrun hopen hk
  intro _ a _ _ _ _
  cases a with
  | event _ _ => exact fun _ _ _ => trivial
  | pass _ | disconnect => trivial

/-! ## Lengths -/

/-- The symbol of a parsed frame has the wire's size. -/
lemma saneFrame_data_length {ev : Event} {oti : ObjectTransmissionInformation}
    {pkt : EncodingPacket} (h : saneFrame env ev = some (oti, pkt)) :
    pkt.data.length = symbolSize := by
  have hdata := (saneFrame_eq_some.mp h).1
  unfold dataFrame at hdata
  split at hdata
  · cases hdata
  · split at hdata
    · rename_i hparse
      simp only [Option.some.injEq, Prod.mk.injEq] at hdata
      obtain ⟨-, rfl⟩ := hdata
      exact parsePacket_symbol_length hparse
    · cases hdata

/-- The lengths of a block agree with its OTI: the stored symbols', the decoder's, and the
decoded block's. -/
structure BlockState.Sized (dec : SourceBlockDecoder D) (b : BlockState D) : Prop where
  shape : b.Shape
  blockLength : dec.blockLength b.decoder = b.blockSize
  completed : ∀ {data}, b.completed = some data → data.length = b.blockSize

namespace BlockState

variable {dec : SourceBlockDecoder D} {b b' : BlockState D}

lemma sized_new (hlaws : dec.LengthLaws) {oti : ObjectTransmissionInformation}
    (hsane : otiIsSane oti = true) (sbn : UInt8) (now : Instant) :
    (new dec sbn oti now).Sized dec where
  shape := shape_new hsane sbn now
  blockLength := hlaws.new_blockLength _ _ _
  completed h := by cases h

lemma Sized.ingest (hlaws : dec.LengthLaws) (h : b.Sized dec) {p : EncodingPacket}
    (hp : p.data.length = symbolSize) (hi : b.ingest dec p = some b') : b'.Sized dec := by
  have hshape := h.shape.ingest hp hi
  rcases ingest_cases hi with ⟨-, rfl⟩ | ⟨-, r, d, hdecode, rfl⟩
  · exact h
  · refine ⟨hshape, ?_, fun {data} hr => ?_⟩
    · simpa [h.blockLength] using hlaws.decode_blockLength hdecode
    · change r = some data at hr
      subst hr
      simpa [h.blockLength] using hlaws.decode_length hdecode

/-- A block puts as many bytes on the output as its OTI announced. -/
lemma Sized.length_output (h : b.Sized dec) : b.output.length = b.blockSize := by
  unfold output
  cases hc : b.completed with
  | some data => exact h.completed hc
  | none => exact h.shape.length_bestEffort

end BlockState

lemma Reachable.sized (hlaws : env.dec.LengthLaws) {c : Conf D} (h : Reachable env c)
    (hopen : c.point ≠ .closed) {k : ℕ} {b : BlockState D} (hk : c.window.pool[k]? = some b) :
    b.Sized env.dec :=
  h.pool (Q := BlockState.Sized env.dec)
    (fun now hev => BlockState.sized_new hlaws (saneFrame_eq_some.mp hev).2 _ now)
    (fun hev hb hi => hb.ingest hlaws (saneFrame_data_length hev) hi) hopen hk

/-! ## Several blocks at once -/

/-- The window after the head has gone to the output `n` times. -/
def Window.advanceN (w : Window D) : ℕ → Window D
  | 0 => w
  | n + 1 => (w.advanceN n).advance

namespace Window

variable (w : Window D)

@[simp] lemma advanceN_cursor (n : ℕ) : (w.advanceN n).cursor = w.cursor + n := by
  induction n with
  | zero => rfl
  | succ n ih => rw [advanceN, advance_cursor, ih, Nat.add_assoc]

@[simp] lemma advanceN_started (n : ℕ) : (w.advanceN n).started = w.started := by
  induction n with
  | zero => rfl
  | succ n ih => rw [advanceN, advance_started, ih]

@[simp] lemma advanceN_highestSeen (n : ℕ) : (w.advanceN n).highestSeen = w.highestSeen := by
  induction n with
  | zero => rfl
  | succ n ih => rw [advanceN, advance_highestSeen, ih]

lemma advance_advanceN (n : ℕ) : w.advance.advanceN n = w.advanceN (n + 1) := by
  induction n with
  | zero => rfl
  | succ n ih => rw [advanceN, ih]; rfl

lemma get_advanceN (n k : ℕ) :
    (w.advanceN n).pool[k]? = if w.cursor ≤ k ∧ k < w.cursor + n then none else w.pool[k]? := by
  induction n with
  | zero =>
    rw [if_neg (by omega)]
    rfl
  | succ n ih =>
    rw [advanceN, get_advance, advanceN_cursor, ih]
    by_cases hk : w.cursor + n = k
    · rw [if_pos hk, if_pos (by omega)]
    · rw [if_neg hk]
      by_cases hlt : w.cursor ≤ k ∧ k < w.cursor + n
      · rw [if_pos hlt, if_pos (by omega)]
      · rw [if_neg hlt, if_neg (by omega)]

/-- The blocks leave in order, each with its entry in the pool. -/
lemma advanceN_stdout (n : ℕ) : (w.advanceN n).stdout =
    w.stdout ++ (List.range' w.cursor n).map fun k => emissionOf k w.pool[k]? := by
  induction n with
  | zero => simp [advanceN]
  | succ n ih =>
    have hhead : (w.advanceN n).pool[w.cursor + n]? = w.pool[w.cursor + n]? := by
      rw [get_advanceN, if_neg (by omega)]
    simp only [advanceN, advance, advanceN_cursor, hhead, ih, List.range'_concat,
      List.map_append, List.map_cons, List.map_nil, List.append_assoc, Nat.one_mul]

end Window

/-! ## `flush_remaining` -/

lemma catchUp_eq (cursor k : ℕ) : catchUp cursor k = max cursor k := by
  induction hn : k - cursor generalizing cursor with
  | zero =>
    rw [catchUp, if_neg (by omega)]
    omega
  | succ n ih =>
    rw [catchUp, if_pos (by omega), ih (cursor + 1) (by omega)]
    omega

/-- One turn of the flush emits its key's entry. -/
lemma flushKey_of_mem {w : Window D} {k : ℕ} {b : BlockState D} (hk : w.pool[k]? = some b) :
    flushKey w k = { w.remove k with
      cursor := k + 1
      stdout := w.stdout ++ [emissionOf k (some b)] } := by
  simp only [flushKey, hk]
  cases hc : b.completed <;> simp only [emissionOf, hc, Window.remove]

/-- The flush emits the entries of the given keys in order. The induction is on the list of
keys; a turn removes only its own. -/
lemma foldl_flushKey {keys : List ℕ} {w : Window D} (hnodup : keys.Nodup)
    (hmem : ∀ k ∈ keys, ∃ b, w.pool[k]? = some b) :
    (keys.foldl flushKey w).stdout =
      w.stdout ++ keys.map fun k => emissionOf k w.pool[k]? := by
  induction keys generalizing w with
  | nil => simp
  | cons k keys ih =>
    obtain ⟨hnotin, hnodup⟩ := List.nodup_cons.mp hnodup
    obtain ⟨b, hb⟩ := hmem k (List.mem_cons_self ..)
    have hget : ∀ j ∈ keys, (flushKey w k).pool[j]? = w.pool[j]? := by
      intro j hj
      rw [flushKey_of_mem hb]
      exact BTreeMap.get_erase_ne fun hkj => hnotin (hkj ▸ hj)
    have hmem' : ∀ j ∈ keys, ∃ b', (flushKey w k).pool[j]? = some b' := by
      intro j hj
      rw [hget j hj]
      exact hmem j (List.mem_cons_of_mem _ hj)
    have hmap : keys.map (fun j => emissionOf j (flushKey w k).pool[j]?)
        = keys.map fun j => emissionOf j w.pool[j]? :=
      List.map_congr_left fun j hj => by rw [hget j hj]
    rw [List.foldl_cons, ih hnodup hmem', hmap, flushKey_of_mem hb, List.map_cons, hb,
      List.append_assoc, List.singleton_append]

/-- **The flush.** What is left in the pool goes to the output in the order of the keys. -/
theorem flushRemaining_stdout (w : Window D) : (flushRemaining w).stdout =
    w.stdout ++ w.pool.keys.map fun k => emissionOf k w.pool[k]? :=
  foldl_flushKey Std.ExtTreeMap.nodup_keys fun _ hk => BTreeMap.mem_keys.mp hk

end RaptorqTs
