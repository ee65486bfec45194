import RaptorqTs.Lib.Frontier
import RaptorqTs.Dec.Content
import RaptorqTs.Dec.Determinism

/-!
# What the decoder plays out

The purpose of the decoder on genuine packets, without its pool: it remembers the packets heard,
and a cursor over the blocks of the stream. The block at the cursor is played as soon as the
packets heard of it are sufficient, or when a packet has been heard of a block `max_in_flight`
later. What is played for a block is the block, or its source symbols heard over zeros. The loop
of `run_decoder` does just this as long as no block times out.
-/

namespace RaptorqTs

/-! ## The abstract player -/

section Player

variable (S : Stream)

/-- Block `i` does not hold up the player any longer. -/
def Passes (maxInFlight : ℕ) (os : List Origin) (i : ℕ) : Prop :=
  S.code.Sufficient S.k (esisOf i os).toFinset ∨ ∃ o ∈ os, i + maxInFlight ≤ o.block

/-- The source symbols of block `l` with the given ESIs, over zeros. -/
def patched (l : ℕ) (esis : List ℕ) : Bytes :=
  (List.range S.k).flatMap fun i =>
    if i ∈ esis then S.sourceSymbol l i else List.replicate symbolSize 0

open Classical in
/-- What is played for block `i`. -/
noncomputable def played (os : List Origin) (i : ℕ) : EmitKind × Bytes :=
  if esisOf i os = [] then (.zero, List.replicate defaultBlockSize 0)
  else if S.code.Sufficient S.k (esisOf i os).toFinset then (.decoded, S.block i)
  else (.bestEffort, patched S i (esisOf i os))

/-- The block `i`, as it is written; the numbering starts at the SBN of block `j`. -/
noncomputable def playedAs (j : ℕ) (os : List Origin) (i : ℕ) : Emission where
  sbn := j % 256 + (i - j)
  kind := (played S os i).1
  data := (played S os i).2

/-- The player has heard the packets `os`, starting at block `j`, has played `out`, and the cursor
is at block `c`. It hears a packet only when it is held up. -/
inductive Plays (maxInFlight j : ℕ) : List Origin → ℕ → List Emission → Prop
  | start : Plays maxInFlight j [] j []
  | hear {os c out} (o : Origin) (h : Plays maxInFlight j os c out)
      (hheld : ¬ Passes S maxInFlight os c) : Plays maxInFlight j (os ++ [o]) c out
  | play {os c out} (h : Plays maxInFlight j os c out) (hpass : Passes S maxInFlight os c) :
      Plays maxInFlight j os (c + 1) (out ++ [playedAs S j os c])

end Player

section Player

variable {S : Stream} {maxInFlight j c i l : ℕ} {os os' r : List Origin} {out : List Emission}

lemma Passes.mono (hmono : S.code.Monotone S.k) (hsub : os ⊆ os')
    (h : Passes S maxInFlight os i) : Passes S maxInFlight os' i := by
  rcases h with hsuff | ⟨o, ho, hle⟩
  · left
    apply hmono _ _ _ hsuff
    intro e he
    rw [List.mem_toFinset, mem_esisOf] at he ⊢
    exact hsub he
  · exact Or.inr ⟨o, hsub ho, hle⟩

/-! ### Only the set of packets matters -/

lemma toFinset_esisOf_congr (hmem : ∀ o, o ∈ os ↔ o ∈ os') (i : ℕ) :
    (esisOf i os).toFinset = (esisOf i os').toFinset := by
  ext e
  rw [List.mem_toFinset, List.mem_toFinset, mem_esisOf, mem_esisOf, hmem]

lemma passes_congr (hmem : ∀ o, o ∈ os ↔ o ∈ os') (i : ℕ) :
    Passes S maxInFlight os i ↔ Passes S maxInFlight os' i := by
  unfold Passes
  rw [toFinset_esisOf_congr hmem]
  simp only [hmem]

lemma patched_congr {esis esis' : List ℕ} (h : ∀ e, e ∈ esis ↔ e ∈ esis') :
    patched S l esis = patched S l esis' := by
  unfold patched
  simp only [h]

lemma played_congr (hmem : ∀ o, o ∈ os ↔ o ∈ os') (i : ℕ) : played S os i = played S os' i := by
  have hset := toFinset_esisOf_congr hmem i
  have hnil : esisOf i os = [] ↔ esisOf i os' = [] := by
    rw [← List.toFinset_eq_empty_iff, ← List.toFinset_eq_empty_iff, hset]
  have hpatched : patched S i (esisOf i os) = patched S i (esisOf i os') := by
    apply patched_congr
    intro e
    rw [mem_esisOf, mem_esisOf, hmem]
  unfold played
  rw [hset, hpatched]
  simp only [hnil]

lemma playedAs_congr (hmem : ∀ o, o ∈ os ↔ o ∈ os') (i : ℕ) :
    playedAs S j os i = playedAs S j os' i := by
  unfold playedAs
  rw [played_congr hmem]

/-- Packets of other blocks do not change what is played for a block. -/
lemma esisOf_append_of_ne (h : ∀ o ∈ r, o.block ≠ i) : esisOf i (os ++ r) = esisOf i os := by
  rw [esisOf_append]
  suffices hnil : esisOf i r = [] by rw [hnil, List.append_nil]
  unfold esisOf
  rw [List.filter_eq_nil_iff.mpr, List.map_nil]
  intro o ho
  simpa using h o ho

lemma playedAs_append_of_ne (h : ∀ o ∈ r, o.block ≠ i) :
    playedAs S j (os ++ r) i = playedAs S j os i := by
  unfold playedAs played
  rw [esisOf_append_of_ne h]

/-- A block that has been decoded is played the same, whatever else is heard. -/
lemma playedAs_of_sufficient (hempty : ¬ S.code.Sufficient S.k ∅)
    (hsuff : S.code.Sufficient S.k (esisOf i os).toFinset) :
    playedAs S j os i = ⟨j % 256 + (i - j), .decoded, S.block i⟩ := by
  have hne : esisOf i os ≠ [] := by
    intro hnil
    rw [hnil] at hsuff
    exact hempty hsuff
  unfold playedAs played
  rw [if_neg hne, if_pos hsuff]

/-! ### The cursor -/

/-- What has been played since the last packet. -/
lemma Plays.of_concat {o : Origin} (h : Plays S maxInFlight j (os ++ [o]) c out) :
    ∃ c₁ out₁, Plays S maxInFlight j os c₁ out₁ ∧ ¬ Passes S maxInFlight os c₁ ∧ c₁ ≤ c ∧
      (∀ i, c₁ ≤ i → i < c → Passes S maxInFlight (os ++ [o]) i) ∧
      out = out₁ ++ (List.range' c₁ (c - c₁)).map (playedAs S j (os ++ [o])) := by
  generalize hos : os ++ [o] = all at h
  induction h with
  | start => simp at hos
  | hear o' h hheld _ =>
    obtain ⟨rfl, -⟩ := List.append_inj' hos rfl
    refine ⟨_, _, h, hheld, le_rfl, fun i hi hlt => ?_, by simp⟩
    omega
  | @play all c out h hpass ih =>
    obtain ⟨c₁, out₁, h₁, hheld, hle, hpassed, hout⟩ := ih hos
    refine ⟨c₁, out₁, h₁, hheld, by omega, fun i hi hlt => ?_, ?_⟩
    · by_cases hic : i = c
      · rw [hic]
        exact hpass
      · exact hpassed i hi (by omega)
    · have hrange : List.range' c₁ (c + 1 - c₁) = List.range' c₁ (c - c₁) ++ [c] := by
        rw [Nat.succ_sub hle, List.range'_concat, Nat.one_mul, Nat.add_sub_cancel' hle]
      rw [hrange, List.map_append, List.map_singleton, hout, List.append_assoc]

/-- **Absorption.** After packets of one block, in whatever order and however often, the player
has played what it would have played after hearing them all at once. -/
theorem Plays.of_append (hmono : S.code.Monotone S.k) (hempty : ¬ S.code.Sufficient S.k ∅)
    (hM : 1 ≤ maxInFlight) (hr : ∀ o ∈ r, o.block = l)
    (h : Plays S maxInFlight j (os ++ r) c out) (hheld : ¬ Passes S maxInFlight (os ++ r) c) :
    ∃ c₀ out₀, Plays S maxInFlight j os c₀ out₀ ∧ ¬ Passes S maxInFlight os c₀ ∧
      Frontier (Passes S maxInFlight (os ++ r)) c₀ c ∧
      out = out₀ ++ (List.range' c₀ (c - c₀)).map (playedAs S j (os ++ r)) := by
  induction r using List.reverseRecOn generalizing c out with
  | nil =>
    rw [List.append_nil] at h hheld ⊢
    exact ⟨c, out, h, hheld, Frontier.refl hheld, by simp⟩
  | append_singleton r o ih =>
    rw [← List.append_assoc] at h hheld ⊢
    obtain ⟨c₁, out₁, h₁, hheld₁, hle₁, hpassed₁, hout₁⟩ := h.of_concat
    obtain ⟨c₀, out₀, h₀, hheld₀, hfront, hout₀⟩ :=
      ih (fun o' ho' => hr o' (List.mem_append_left _ ho')) h₁ hheld₁
    have hle₀ := hfront.le
    have hmore : ∀ i, Passes S maxInFlight (os ++ r) i → Passes S maxInFlight (os ++ r ++ [o]) i :=
      fun i => Passes.mono hmono (List.subset_append_left _ _)
    refine ⟨c₀, out₀, h₀, hheld₀, hfront.trans hmore ⟨hle₁, hpassed₁, hheld⟩, ?_⟩
    -- what was played before the last packet is played the same after it
    have hsame : (List.range' c₀ (c₁ - c₀)).map (playedAs S j (os ++ r)) =
        (List.range' c₀ (c₁ - c₀)).map (playedAs S j (os ++ r ++ [o])) := by
      apply List.map_congr_left
      intro i hi
      rw [List.mem_range'_1] at hi
      by_cases hil : i = l
      · rcases hfront.passed i hi.1 (by omega) with hsuff | ⟨o', ho', hahead⟩
        · have hsuff' : S.code.Sufficient S.k (esisOf i (os ++ r ++ [o])).toFinset := by
            apply hmono _ _ _ hsuff
            intro e he
            rw [List.mem_toFinset, mem_esisOf] at he ⊢
            exact List.mem_append_left _ he
          rw [playedAs_of_sufficient hempty hsuff, playedAs_of_sufficient hempty hsuff']
        · -- a block is not forced out by its own packets, nor by what was heard before
          rcases List.mem_append.mp ho' with hold | hnew
          · exact absurd (Or.inr ⟨o', hold, by omega⟩) hheld₀
          · have hblock := hr o' (List.mem_append_left _ hnew)
            omega
      · symm
        apply playedAs_append_of_ne
        intro o' ho'
        rw [hr o' (List.mem_append_right _ ho')]
        exact fun heq => hil heq.symm
    have hsplit : List.range' c₀ (c - c₀) =
        List.range' c₀ (c₁ - c₀) ++ List.range' c₁ (c - c₁) := by
      have hlen : c - c₀ = (c₁ - c₀) + (c - c₁) := by omega
      rw [hlen, ← List.range'_append_1, Nat.add_sub_cancel' hle₀]
    rw [hout₁, hout₀, hsame, hsplit, List.map_append, List.append_assoc]

/-! ### Order and repetition -/

/-- The two deliveries are made of the same runs of packets of one block each, in any order and
any number of copies within a run. -/
inductive SameRuns : List Origin → List Origin → Prop
  | nil : SameRuns [] []
  | run {os os' r r' l} (h : SameRuns os os') (hr : ∀ o ∈ r, o.block = l)
      (hr' : ∀ o ∈ r', o.block = l) (hmem : ∀ o, o ∈ r ↔ o ∈ r') : SameRuns (os ++ r) (os' ++ r')

lemma SameRuns.mem (h : SameRuns os os') (o : Origin) : o ∈ os ↔ o ∈ os' := by
  induction h with
  | nil => exact Iff.rfl
  | run _ _ _ hmem ih => rw [List.mem_append, List.mem_append, ih, hmem]

/-- Without packets nothing is played. -/
lemma Plays.of_nil (hempty : ¬ S.code.Sufficient S.k ∅) (h : Plays S maxInFlight j [] c out) :
    c = j ∧ out = [] := by
  generalize hos : ([] : List Origin) = os at h
  induction h with
  | start => exact ⟨rfl, rfl⟩
  | hear o h hheld _ => simp at hos
  | play h hpass _ =>
    rw [← hos] at hpass
    rcases hpass with hsuff | ⟨o, ho, -⟩
    · exact absurd hsuff hempty
    · simp at ho

/-- **Order and repetition within the runs do not matter.** -/
theorem Plays.of_sameRuns (hmono : S.code.Monotone S.k) (hempty : ¬ S.code.Sufficient S.k ∅)
    (hM : 1 ≤ maxInFlight) (hsame : SameRuns os os') {c' : ℕ} {out' : List Emission}
    (h : Plays S maxInFlight j os c out) (hheld : ¬ Passes S maxInFlight os c)
    (h' : Plays S maxInFlight j os' c' out') (hheld' : ¬ Passes S maxInFlight os' c') :
    c = c' ∧ out = out' := by
  induction hsame generalizing c c' out out' with
  | nil =>
    obtain ⟨rfl, rfl⟩ := h.of_nil hempty
    obtain ⟨rfl, rfl⟩ := h'.of_nil hempty
    exact ⟨rfl, rfl⟩
  | @run os os' r r' l hruns hr hr' hmem ih =>
    obtain ⟨c₀, out₀, h₀, hheld₀, hfront, hout⟩ := h.of_append hmono hempty hM hr hheld
    obtain ⟨c₀', out₀', h₀', hheld₀', hfront', hout'⟩ :=
      h'.of_append hmono hempty hM hr' hheld'
    obtain ⟨rfl, rfl⟩ := ih h₀ hheld₀ h₀' hheld₀'
    have hall : ∀ o, o ∈ os ++ r ↔ o ∈ os' ++ r' := (SameRuns.run hruns hr hr' hmem).mem
    obtain rfl : c = c' := hfront.unique (hfront'.congr fun i => (passes_congr hall i).symm)
    refine ⟨rfl, ?_⟩
    rw [hout, hout', List.map_congr_left fun i _ => playedAs_congr hall i]

end Player

/-! ## The pool remembers what has been heard -/

variable {D : Type} {env : Env D} {S : Stream} {j : ℕ} {os : List Origin} {w : Window D}

/-- The window after the packets `os` have been heard: what a pool entry collects is what has
been heard of its block, and it is completed as soon as that is sufficient. -/
structure Heard (env : Env D) (S : Stream) (j : ℕ) (os : List Origin) (w : Window D) : Prop where
  content : Content env S j os w
  present : ∀ {k : ℕ} {b}, w.pool[k]? = some b → esisOf (j + (k - w.first)) os ≠ []
  completed_iff : ∀ {k : ℕ} {b}, w.pool[k]? = some b → (b.completed.isSome = true ↔
    S.code.Sufficient S.k (esisOf (j + (k - w.first)) os).toFinset)
  first_eq : w.started = true → w.first = j % 256
  reached : w.started = true → ∀ i, w.first + i ≤ w.highestSeen ↔ ∃ o ∈ os, j + i ≤ o.block

/-- The symbols that an open block holds are those heard. -/
lemma BlockState.Collects.bestEffort_eq {dec : SourceBlockDecoder D} {l : ℕ} {esis : List ℕ}
    {b : BlockState D} (h : b.Collects dec S l esis) (hopen : b.completed = none) :
    b.bestEffort = patched S l esis := by
  have hlen : b.bestEffort.length = S.k * symbolSize := by
    rw [h.shape.length_bestEffort, h.blockSize_eq]
    rfl
  rw [← Reference.flatMap_slice hlen]
  unfold patched
  apply List.flatMap_congr
  intro i hi
  rw [List.mem_range] at hi
  rw [h.shape.slice_bestEffort (by rw [h.k_eq]; exact hi), h.stored hopen]
  by_cases hmem : i ∈ esis
  · rw [if_pos ⟨hi, hmem⟩, if_pos hmem]
    rfl
  · rw [if_neg (fun hand => hmem hand.2), if_neg hmem]
    rfl

namespace Heard

lemma init : Heard env S j [] (Window.init : Window D) where
  content := Content.init
  present h := by simp [Window.get_init] at h
  completed_iff h := by simp [Window.get_init] at h
  first_eq h := by simp [Window.init] at h
  reached h := by simp [Window.init] at h

/-- What is written for a block that has not been written yet. -/
lemma emission_eq (hwf : w.Wf) (h : Heard env S j os w) (hstarted : w.started = true) {k : ℕ}
    (hk : w.cursor ≤ k) : emissionOf k w.pool[k]? = playedAs S j os (j + (k - w.first)) := by
  have hsbn : k = j % 256 + (j + (k - w.first) - j) := by
    have hle := hwf.first_le
    rw [← h.first_eq hstarted]
    omega
  unfold playedAs played
  cases hb : w.pool[k]? with
  | none =>
    rw [if_pos (h.content.absent hstarted hk hb), ← hsbn]
    rfl
  | some b =>
    rw [if_neg (h.present hb), ← hsbn]
    have hcollects := h.content.pool hb
    cases hc : b.completed with
    | some data =>
      rw [if_pos ((h.completed_iff hb).mp (by rw [hc]; rfl)), ← hcollects.decoded data hc]
      simp only [emissionOf, hc]
    | none =>
      rw [if_neg, ← hcollects.bestEffort_eq hc]
      · simp only [emissionOf, hc]
      · rw [← h.completed_iff hb, hc]
        simp

/-- The guards of the drain loop are those of the player. -/
lemma ripe_iff (hempty : ¬ S.code.Sufficient S.k ∅) (hwf : w.Wf) (h : Heard env S j os w)
    (hfit : w.cursor + env.maxInFlight < 2 ^ 64) :
    ripe env w = true ↔ Passes S env.maxInFlight os (trueCursor j w) := by
  cases hstarted : w.started with
  | false =>
    have hnone := hwf.pool_of_idle hstarted w.cursor
    rw [h.content.idle hstarted]
    unfold ripe zeroGuard
    rw [hnone, hstarted]
    constructor
    · intro hfalse
      simp at hfalse
    · rintro (hsuff | ⟨o, ho, -⟩)
      · exact absurd hsuff hempty
      · simp at ho
  | true =>
    have hforce : shouldForce env w = true ↔
        ∃ o ∈ os, trueCursor j w + env.maxInFlight ≤ o.block := by
      have hle := hwf.first_le
      have hsum : w.cursor + env.maxInFlight =
          w.first + (w.cursor - w.first + env.maxInFlight) := by
        omega
      rw [hwf.shouldForce_iff hstarted hfit, hsum, h.reached hstarted]
      unfold trueCursor
      simp only [Nat.add_assoc]
    unfold ripe zeroGuard Passes
    cases hb : w.pool[w.cursor]? with
    | none =>
      have habsent : esisOf (trueCursor j w) os = [] := h.content.absent hstarted le_rfl hb
      have hsecond : decide (wrappingAdd w.cursor env.maxInFlight ≤ w.highestSeen) =
          shouldForce env w := by
        rw [wrappingAdd_of_lt hfit, Bool.eq_iff_iff, hwf.shouldForce_iff hstarted hfit,
          decide_eq_true_eq]
      rw [habsent, hsecond, hstarted, ← hforce]
      simp [hempty]
    | some b =>
      have hcompleted : b.completed.isSome = true ↔
          S.code.Sufficient S.k (esisOf (trueCursor j w) os).toFinset := h.completed_iff hb
      rw [← hforce, ← hcompleted]
      simp

/-- The head is played. -/
lemma advance (h : Heard env S j os w) : Heard env S j os w.advance where
  content := h.content.advance
  present hk := h.present (Window.get_of_get_advance hk).2
  completed_iff hk := h.completed_iff (Window.get_of_get_advance hk).2
  first_eq := h.first_eq
  reached := h.reached

/-- A packet of a block that has been played is not remembered, and it does not matter. -/
lemma late (hwf : w.Wf) (h : Heard env S j os w) {o : Origin} (hstarted : w.started = true)
    (hlate : o.block < trueCursor j w) (hcursor : w.cursor ≤ w.highestSeen + 1) :
    Heard env S j (os ++ [o]) w := by
  have hfirst := hwf.first_le
  have hsame : ∀ {k : ℕ} {b}, w.pool[k]? = some b →
      esisOf (j + (k - w.first)) (os ++ [o]) = esisOf (j + (k - w.first)) os := by
    intro k b hb
    have hk := hwf.cursor_le_key hb
    unfold trueCursor at hlate
    rw [esisOf_concat, if_neg (by omega), List.append_nil]
  refine ⟨h.content.late hwf hstarted hlate, fun hb => ?_, fun hb => ?_, h.first_eq,
    fun hs i => ?_⟩
  · rw [hsame hb]
    exact h.present hb
  · rw [hsame hb]
    exact h.completed_iff hb
  · rw [h.reached hs]
    constructor
    · rintro ⟨o', ho', hle⟩
      exact ⟨o', List.mem_append_left _ ho', hle⟩
    · rintro ⟨o', ho', hle⟩
      rcases List.mem_append.mp ho' with hold | hnew
      · exact ⟨o', hold, hle⟩
      · rw [List.mem_singleton.mp hnew] at hle
        unfold trueCursor at hlate
        apply (h.reached hs i).mp
        omega

/-- The entry that a packet is ingested into is completed if what has been heard of its block is
sufficient. -/
lemma entry_completed_iff (hempty : ¬ S.code.Sufficient S.k ∅) (hwf : w.Wf)
    (h : Heard env S j os w) {l : ℕ} (hreach : InReach j w l)
    (hred : w.redundant (sbnOf l) = false) (now : Instant) :
    (w.entry env now (w.route (sbnOf l)) (sbnOf l) S.oti).completed.isSome = true ↔
      S.code.Sufficient S.k (esisOf l os).toFinset := by
  rcases h.content.entry_cases hwf hreach hred now with ⟨b, hb, hentry, hindex⟩ | ⟨hentry, hnil⟩
  · have hiff := h.completed_iff hb
    rw [hindex] at hiff
    rw [hentry]
    exact hiff
  · rw [hentry, hnil]
    simp [BlockState.new, hempty]

/-- `decode` completes a block exactly when what has been heard of it is sufficient. -/
lemma ingest_completed_iff (hS : S.Wf) (hdec : env.dec.Laws S.code S.oti S.k)
    (hmono : S.code.Monotone S.k) {o : Origin} (hesi : o.esi < 2 ^ 24) {b b' : BlockState D}
    (hcollects : b.Collects env.dec S o.block (esisOf o.block os))
    (hiff : b.completed.isSome = true ↔ S.code.Sufficient S.k (esisOf o.block os).toFinset)
    (hb : b.ingest env.dec (S.packet o) = some b') :
    b'.completed.isSome = true ↔
      S.code.Sufficient S.k (esisOf o.block (os ++ [o])).toFinset := by
  rw [toFinset_esisOf_concat]
  rcases BlockState.ingest_cases hb with ⟨hsome, rfl⟩ | ⟨hnone, r, d, hdecode, rfl⟩
  · have hmore := hmono _ _ (Finset.subset_insert o.esi _) (hiff.mp hsome)
    exact iff_of_true hsome hmore
  · obtain ⟨r', d', hdecode', hyes, hno⟩ := hdec.decodes (sbnOf o.block) (S.block o.block)
      (hS.block_length _) (hcollects.fed hnone) hesi
    have hpair := hdecode'.symm.trans hdecode
    simp only [Option.some.injEq, Prod.mk.injEq] at hpair
    rw [hpair.1] at hyes hno
    show r.isSome = true ↔ _
    by_cases hsuff : S.code.Sufficient S.k (insert o.esi (esisOf o.block os).toFinset)
    · rw [hyes hsuff]
      simp [hsuff]
    · rw [hno hsuff]
      simp [hsuff]

/-- A packet of a block that has not been played is remembered. -/
lemma accept (hS : S.Wf) (hdec : env.dec.Laws S.code S.oti S.k) (hmono : S.code.Monotone S.k)
    (hwf : w.Wf) (h : Heard env S j os w) {o : Origin} (hesi : o.esi < 2 ^ 24)
    (hreach : InReach j w o.block) (hred : w.redundant (sbnOf o.block) = false) {now : Instant}
    {b : BlockState D}
    (hb : (w.entry env now (w.route (sbnOf o.block)) (sbnOf o.block) S.oti).ingest env.dec
      (S.packet o) = some b) :
    Heard env S j (os ++ [o]) ((w.joined (sbnOf o.block)).hold (w.route (sbnOf o.block)) b) := by
  have hempty := hdec.not_sufficient_empty
  obtain ⟨hjl, hroute, -⟩ := route_of_inReach hwf h.content.joined hreach
  have hentry := h.content.entry hS hwf hreach hred now
  have hnever : env.dec.NeverWrong S.code (sbnOf o.block) S.oti S.k (S.block o.block) :=
    hdec.neverWrong _ _ (hS.block_length _)
  have hcompleted := ingest_completed_iff hS hdec hmono hesi hentry
    (h.entry_completed_iff hempty hwf hreach hred now) hb
  refine ⟨h.content.accept hwf hreach (hentry.ingest hS hnever hb), fun {k b'} hk => ?_,
    fun {k b'} hk => ?_, fun _ => ?_, fun _ i => ?_⟩
  · rw [Window.hold_first]
    rcases h.content.get_of_accept hwf hreach hk with ⟨hindex, -⟩ | ⟨hbefore, hfirst, hesis⟩
    · rw [hindex, esisOf_concat, if_pos rfl]
      simp
    · rw [hfirst, hesis]
      exact h.present hbefore
  · rw [Window.hold_first]
    rcases h.content.get_of_accept hwf hreach hk with ⟨hindex, rfl⟩ | ⟨hbefore, hfirst, hesis⟩
    · rw [hindex]
      exact hcompleted
    · rw [hfirst, hesis]
      exact h.completed_iff hbefore
  · rw [Window.hold_first]
    cases hstarted : w.started with
    | true =>
      rw [Window.joined_of_started hstarted]
      exact h.first_eq hstarted
    | false =>
      unfold InReach at hreach
      rw [hstarted, if_neg (by decide)] at hreach
      rw [Window.joined_of_idle hstarted, hreach]
      exact toNat_sbnOf j
  · rw [Window.hold_first, Window.hold_highestSeen, hroute]
    simp only [List.mem_append, List.mem_singleton, or_and_right, exists_or, exists_eq_left]
    cases hstarted : w.started with
    | true =>
      rw [Window.joined_of_started hstarted, ← h.reached hstarted]
      omega
    | false =>
      unfold InReach at hreach
      rw [hstarted, if_neg (by decide)] at hreach
      rw [Window.joined_of_idle hstarted, h.content.idle hstarted]
      simp
      omega

end Heard

/-- The cursor counts from the first block. -/
lemma trueCursor_accept (hwf : w.Wf) (sbnU8 : UInt8) (b : BlockState D) :
    trueCursor j ((w.joined sbnU8).hold (w.route sbnU8) b) = trueCursor j w := by
  unfold trueCursor
  rw [Window.hold_cursor, Window.hold_first]
  cases hstarted : w.started with
  | true => rw [Window.joined_of_started hstarted]
  | false =>
    rw [Window.joined_of_idle hstarted, hwf.idle hstarted]
    simp [Window.init]

lemma trueCursor_advance (hwf : w.Wf) : trueCursor j w.advance = trueCursor j w + 1 := by
  have hle := hwf.first_le
  unfold trueCursor
  rw [Window.advance_cursor, Window.advance_first]
  omega

end RaptorqTs
