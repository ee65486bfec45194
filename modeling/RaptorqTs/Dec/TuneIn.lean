import RaptorqTs.Dec.Permute
import RaptorqTs.Dec.Recovery

/-!
# Tuning in

A receiver that tunes in during block `j` has missed part of that block. It writes what it has
heard of block `j`, and after it every later block, decoded and in its place: the drain loop waits
for block `j` no longer than until a packet `max_in_flight` blocks ahead.
-/

namespace RaptorqTs

/-- What is heard from block `j` on: packets of blocks before `n`, and each block after `j` has
become ready before a later one begins. -/
structure TunesIn (code : FountainCode) (k j n : ℕ) (os : List Origin) : Prop where
  head : ∀ o ∈ os.head?, o.block = j
  le_block : ∀ o ∈ os, j ≤ o.block
  block_lt : ∀ o ∈ os, o.block < n
  esi_lt : ∀ o ∈ os, o.esi < 2 ^ 24
  lag : os.Pairwise fun o o' => o.block < o'.block + 128
  ready : ∀ pre o post, os = pre ++ o :: post → ∀ l, j < l → l < o.block → Ready code k l pre

lemma TunesIn.of_append {code : FountainCode} {k j n : ℕ} {os os' : List Origin}
    (h : TunesIn code k j n (os ++ os')) : TunesIn code k j n os where
  head o ho := by
    apply h.head
    rw [List.head?_append, ho]
    rfl
  le_block o ho := h.le_block o (List.mem_append_left _ ho)
  block_lt o ho := h.block_lt o (List.mem_append_left _ ho)
  esi_lt o ho := h.esi_lt o (List.mem_append_left _ ho)
  lag := (List.pairwise_append.mp h.lag).1
  ready pre o post hcut := h.ready pre o (post ++ os') (by rw [hcut]; simp)

/-! ## The player -/

section Player

variable {S : Stream} {maxInFlight j c i n : ℕ} {os os' : List Origin} {out : List Emission}

/-- Block `i`, decoded, as it is written; the numbering starts at the SBN of block `j`. -/
def decodedAs (S : Stream) (j i : ℕ) : Emission := ⟨j % 256 + (i - j), .decoded, S.block i⟩

/-- What is written up to block `c`: block `j` as far as it has been heard by then, and the later
blocks, decoded. -/
def PlayedFrom (S : Stream) (j c : ℕ) (os : List Origin) (out : List Emission) : Prop :=
  c = j ∧ out = [] ∨ j < c ∧ ∃ pre, pre <+: os ∧ pre ≠ [] ∧
    out = playedAs S j pre j :: (List.range' (j + 1) (c - (j + 1))).map (decodedAs S j)

lemma Ready.sufficient (hmono : S.code.Monotone S.k) (h : Ready S.code S.k i os)
    (hos : os <+: os') : S.code.Sufficient S.k (esisOf i os').toFinset := by
  obtain ⟨pre, hpre, hsuff⟩ := h
  apply hmono _ _ _ hsuff
  intro esi hesi
  rw [List.mem_toFinset, mem_esisOf] at hesi ⊢
  exact (hpre.trans hos).subset hesi

/-- Something has been heard of a block that is ready. -/
lemma Ready.exists_heard (hempty : ¬ S.code.Sufficient S.k ∅) (h : Ready S.code S.k i os) :
    ∃ o ∈ os, o.block = i := by
  by_contra hnone
  refine not_ready_of_nil hempty ?_ h
  rw [esisOf, List.map_eq_nil_iff, List.filter_eq_nil_iff]
  intro o ho hi
  exact hnone ⟨o, ho, of_decide_eq_true hi⟩

/-- The player passes no block beyond those heard. -/
lemma Passes.exists_heard (hempty : ¬ S.code.Sufficient S.k ∅) (h : Passes S maxInFlight os i) :
    ∃ o ∈ os, i ≤ o.block := by
  rcases h with hsuff | ⟨o, ho, hle⟩
  · obtain ⟨o, ho, hblock⟩ := Ready.exists_heard hempty ⟨os, List.prefix_rfl, hsuff⟩
    exact ⟨o, ho, hblock.ge⟩
  · exact ⟨o, ho, by omega⟩

/-- The cursor is no further than behind a block heard. -/
lemma Plays.cursor (hempty : ¬ S.code.Sufficient S.k ∅) (h : Plays S maxInFlight j os c out) :
    j ≤ c ∧ (c = j ∨ ∃ o ∈ os, c ≤ o.block + 1) := by
  induction h with
  | start => exact ⟨Nat.le_refl _, Or.inl rfl⟩
  | hear o h hheld ih =>
    refine ⟨ih.1, ih.2.imp_right ?_⟩
    rintro ⟨o', ho', hle⟩
    exact ⟨o', List.mem_append_left _ ho', hle⟩
  | play h hpass ih =>
    obtain ⟨o, ho, hle⟩ := hpass.exists_heard hempty
    exact ⟨ih.1.trans (Nat.le_succ _), Or.inr ⟨o, ho, Nat.succ_le_succ hle⟩⟩

lemma range'_decoded_concat (hjc : j < c) :
    List.range' (j + 1) (c + 1 - (j + 1)) = List.range' (j + 1) (c - (j + 1)) ++ [c] := by
  have hlen : c + 1 - (j + 1) = c - (j + 1) + 1 := by omega
  rw [hlen, List.range'_concat]
  congr 2
  omega

/-- **The player catches up**: it plays each block after the one it tuned in, decoded. -/
theorem Plays.playedFrom (hmono : S.code.Monotone S.k) (hempty : ¬ S.code.Sufficient S.k ∅)
    (hM : 1 ≤ maxInFlight) (h : Plays S maxInFlight j os c out)
    (htune : TunesIn S.code S.k j n os) : PlayedFrom S j c os out := by
  induction h with
  | start => exact Or.inl ⟨rfl, rfl⟩
  | hear o h hheld ih =>
    refine (ih htune.of_append).imp_right ?_
    rintro ⟨hjc, pre, hpre, hne, hout⟩
    exact ⟨hjc, pre, hpre.trans (List.prefix_append _ _), hne, hout⟩
  | @play os c out h hpass ih =>
    right
    rcases ih htune with ⟨rfl, rfl⟩ | ⟨hjc, pre, hpre, hne, rfl⟩
    · obtain ⟨o, ho, -⟩ := hpass.exists_heard hempty
      refine ⟨Nat.lt_succ_self _, os, List.prefix_rfl, List.ne_nil_of_mem ho, ?_⟩
      rw [Nat.sub_self]
      rfl
    · refine ⟨Nat.lt_succ_of_lt hjc, pre, hpre, hne, ?_⟩
      -- the block is ready, also if it is forced
      have hsuff : S.code.Sufficient S.k (esisOf c os).toFinset := by
        rcases hpass with hsuff | ⟨o, ho, hle⟩
        · exact hsuff
        · obtain ⟨front, post, rfl⟩ := List.append_of_mem ho
          exact (htune.ready front o post rfl c hjc (by omega)).sufficient hmono
            (List.prefix_append _ _)
      rw [playedAs_of_sufficient hempty hsuff, range'_decoded_concat hjc, List.map_append]
      rfl

lemma length_patched (hS : S.Wf) (l : ℕ) (esis : List ℕ) :
    (patched S l esis).length = S.k * symbolSize := by
  rw [patched, List.flatMap_def, length_flatten_of_length, List.length_map, List.length_range]
  intro piece hpiece
  obtain ⟨i, hi, rfl⟩ := List.mem_map.mp hpiece
  split
  · rw [Stream.sourceSymbol, length_slice]
    rw [hS.block_length, Stream.blockSize, ← Nat.succ_mul]
    exact Nat.mul_le_mul_right _ (List.mem_range.mp hi)
  · exact List.length_replicate ..

/-- The bytes of the block tuned in, and of the later ones. -/
lemma PlayedFrom.bytes (hS : S.Wf) (htune : TunesIn S.code S.k j n os) (hjc : j < c)
    (h : PlayedFrom S j c os out) : ∃ front, front.length = S.k * symbolSize ∧
      out.flatMap Emission.data =
        front ++ ((List.range' (j + 1) (c - (j + 1))).map S.block).flatten := by
  rcases h with ⟨rfl, -⟩ | ⟨-, pre, ⟨post, rfl⟩, hne, rfl⟩
  · omega
  · have hhead := List.head?_eq_some_head hne
    have hheard : esisOf j pre ≠ [] := by
      have hblock := htune.of_append.head _ hhead
      rw [← hblock]
      exact List.ne_nil_of_mem (mem_esisOf.mpr (List.mem_of_mem_head? hhead))
    refine ⟨(playedAs S j pre j).data, ?_, ?_⟩
    · show (played S pre j).2.length = S.k * symbolSize
      rw [played, if_neg hheard]
      split
      · exact hS.block_length j
      · exact length_patched hS j _
    · rw [List.flatMap_cons, List.flatMap_map, List.flatMap_def]
      rfl

end Player

/-! ## The window -/

variable {D : Type} {env : Env D} {S : Stream} {j n : ℕ} {os : List Origin} {w : Window D}

/-- The next packet is within half an SBN period of the cursor: a block further ahead would not
begin before a block in between has forced the head out. -/
lemma Played.inReach (hempty : ¬ S.code.Sufficient S.k ∅) (hM : 1 ≤ env.maxInFlight)
    (hM' : env.maxInFlight ≤ 127) (h : Played env S j os .recv w) {o : Origin}
    (htune : TunesIn S.code S.k j n (os ++ [o])) : InReach j w o.block := by
  unfold InReach
  cases hstarted : w.started with
  | false =>
    rw [if_neg nofun]
    apply htune.head
    rw [h.heard.content.idle hstarted]
    rfl
  | true =>
    rw [if_pos rfl]
    have hj := htune.le_block o (List.mem_append_right _ (List.mem_singleton_self o))
    obtain ⟨hjc, hcursor⟩ := h.plays.cursor hempty
    refine ⟨hj, ?_, ?_⟩
    · rcases hcursor with heq | ⟨o', ho', hle⟩
      · omega
      · have hlag := (List.pairwise_append.mp htune.lag).2.2 o' ho' o (List.mem_singleton_self o)
        omega
    · by_contra hfar
      have hready := htune.ready os o [] rfl (trueCursor j w + 127) (by omega) (by omega)
      obtain ⟨o', ho', hblock⟩ := hready.exists_heard hempty
      exact h.held rfl (Or.inr ⟨o', ho', by omega⟩)

/-- The numbers of the window fit 64 bits. -/
lemma Played.fits {p : Point} (hempty : ¬ S.code.Sufficient S.k ∅) (hM' : env.maxInFlight ≤ 127)
    (hn : n < 2 ^ 63) (hwf : w.Wf) (h : Played env S j os p w)
    (htune : TunesIn S.code S.k j n os) : w.cursor + env.maxInFlight < 2 ^ 64 := by
  cases hstarted : w.started with
  | false =>
    have hzero : (Window.init : Window D).cursor = 0 := rfl
    rw [hwf.idle hstarted, hzero]
    omega
  | true =>
    have hfirst := h.heard.first_eq hstarted
    have hfirstLe := hwf.first_le
    have hcursor := (h.plays.cursor hempty).2
    unfold trueCursor at hcursor
    rcases hcursor with heq | ⟨o, ho, hle⟩
    · omega
    · have hlt := htune.block_lt o ho
      omega

lemma heardOf_of_carries {a : Action} {tag : Option Origin} (h : Carries env S (a, tag)) :
    heardOf env (a, tag) = tag := by
  cases a with
  | event now ev =>
    have hframe : dataFrame env ev = tag.map fun o => (S.oti, S.packet o) := h
    rw [heardOf, hframe, Option.isSome_map]
    cases tag <;> rfl
  | pass clk | disconnect =>
    obtain rfl : tag = none := h
    rfl

section Run

variable {now : Instant} {frames : List WireFrame} {acts : List Action} {c : Conf D}

/-- The open loop does what the player does that has tuned in during block `j`. -/
theorem FreshRun.played (hS : S.Wf) (hdec : env.dec.Laws S.code S.oti S.k)
    (hmono : S.code.Monotone S.k) (hM : 1 ≤ env.maxInFlight) (hM' : env.maxInFlight ≤ 127)
    (hn : n < 2 ^ 63) (hparse : Parses env S frames)
    (htune : TunesIn S.code S.k j n (origins frames)) (h : FreshRun env now frames acts c)
    (hopen : c.point ≠ .closed) : Played env S j (origins frames) c.point c.window := by
  have hempty := hdec.not_sufficient_empty
  refine Machine.run_induction_of (P := fun acts (c : Conf D) => ∀ frames, Parses env S frames →
    TunesIn S.code S.k j n (origins frames) →
    acts.filterMap frameBytes = frames.map WireFrame.bytes → c.point ≠ .closed →
    Played env S j (origins frames) c.point c.window) ?_ ?_ h.fresh h.run_eq frames hparse htune
    h.frames_eq hopen
  · intro frames _ _ hframes _
    obtain rfl : frames = [] := by simpa using hframes
    exact Played.init hempty
  · intro acts c a c' hrun _ ih hfresh hstep frames hparse htune hframes hopen'
    obtain ⟨earlier, last, tag, rfl, horigins, hearlier, hcarries⟩ :=
      exists_carried hparse hframes
    have hopen := step_open hstep
    have hreach : Reachable env c := ⟨now, acts, hrun⟩
    rw [horigins] at htune ⊢
    have hplayed := ih earlier hparse.of_append htune.of_append hearlier hopen
    have hfit := hplayed.fits hempty hM' hn (hreach.wf hopen) htune.of_append
    have hheard := heardOf_of_carries hcarries
    have hgen : Genuine env S j c.window (a, tag) := by
      cases a with
      | event t ev =>
        intro f hf
        have hframe : dataFrame env ev = tag.map fun o => (S.oti, S.packet o) := hcarries
        rw [hframe] at hf
        obtain ⟨o, rfl, rfl⟩ := Option.map_eq_some_iff.mp hf
        simp only [RaptorqTs.step, Option.ite_none_right_eq_some] at hstep
        rw [hstep.1] at hplayed
        exact ⟨o, rfl, rfl, hplayed.inReach hempty hM hM' htune⟩
      | pass clk | disconnect => trivial
    have hesi : ∀ o ∈ heardOf env (a, tag), o.esi < 2 ^ 24 := by
      intro o ho
      rw [hheard] at ho
      exact htune.esi_lt o (List.mem_append_right _ (Option.mem_toList.mpr ho))
    have hmoves := hplayed.moves hS hdec hmono hM (hreach.wf hopen) (hreach.cursor_le hopen hfit)
      hgen hesi hfresh hfit (step_moves hstep) hopen'
    rwa [hheard] at hmoves

/-- The next frame is handled. -/
theorem FreshRun.exists_step_tuned (hS : S.Wf) (hdec : env.dec.Laws S.code S.oti S.k)
    (hmono : S.code.Monotone S.k) (hM : 1 ≤ env.maxInFlight) (hM' : env.maxInFlight ≤ 127)
    (hn : n < 2 ^ 63) {f : WireFrame} (hparse : Parses env S (frames ++ [f]))
    (htune : TunesIn S.code S.k j n (origins (frames ++ [f])))
    (h : FreshRun env now frames acts c) (hrecv : c.point = .recv) (t : Instant) :
    ∃ c', step env c (.event t (.frame f.bytes)) = some c' := by
  have hempty := hdec.not_sufficient_empty
  rw [origins_concat] at htune
  have hopen : c.point ≠ .closed := by rw [hrecv]; nofun
  have hwf := (show Reachable env c from ⟨now, acts, h.run_eq⟩).wf hopen
  have hplayed := h.played hS hdec hmono hM hM' hn hparse.of_append htune.of_append hopen
  rw [hrecv] at hplayed
  have hf := hparse f (List.mem_append_right _ (List.mem_singleton_self f))
  apply exists_step_event hrecv
  intro oti pkt hsane hred
  rw [(saneFrame_eq_some.mp hsane).1] at hf
  obtain ⟨o, htag, ho⟩ := Option.map_eq_some_iff.mp hf.symm
  obtain ⟨rfl, rfl⟩ := Prod.mk.inj ho
  rw [htag] at htune
  have hreach := hplayed.inReach hempty hM hM' htune
  have hesi := htune.esi_lt o (List.mem_append_right _ (List.mem_singleton_self o))
  apply BlockState.exists_ingest
  intro hnone
  have hentry := hplayed.heard.content.entry hS hwf hreach hred t
  obtain ⟨r, d, hdecode, -⟩ := hdec.decodes (sbnOf o.block) (S.block o.block)
    (hS.block_length _) (hentry.fed hnone) hesi
  exact ⟨(r, d), hdecode⟩

/-- Every block from `j` on has been heard when the later ones are ready. -/
lemma TunesIn.heard_iff (hempty : ¬ S.code.Sufficient S.k ∅) (h : TunesIn S.code S.k j n os)
    (hne : os ≠ []) (hready : ∀ l, j < l → l < n → Ready S.code S.k l os) (i : ℕ) :
    esisOf i os ≠ [] ↔ j ≤ i ∧ i < n := by
  constructor
  · intro hi
    obtain ⟨esi, hesi⟩ := List.exists_mem_of_ne_nil _ hi
    exact ⟨h.le_block _ (mem_esisOf.mp hesi), h.block_lt _ (mem_esisOf.mp hesi)⟩
  · rintro ⟨hji, hin⟩
    obtain ⟨o, ho, rfl⟩ : ∃ o ∈ os, o.block = i := by
      rcases Nat.eq_or_lt_of_le hji with rfl | hlt
      · have hhead := List.head?_eq_some_head hne
        exact ⟨_, List.mem_of_mem_head? hhead, h.head _ hhead⟩
      · exact (hready i hlt hin).exists_heard hempty
    exact List.ne_nil_of_mem (mem_esisOf.mpr ho)

/-- What the flush writes, when every block after `j` has been heard. -/
lemma Heard.flush_tuned (hwf : w.Wf) (h : Heard env S j os w) (hstarted : w.started = true)
    (hheard : ∀ i, esisOf i os ≠ [] ↔ j ≤ i ∧ i < n) : (flushRemaining w).stdout =
      w.stdout ++ (List.range' (trueCursor j w) (n - trueCursor j w)).map (playedAs S j os) := by
  have hle := hwf.first_le
  have hkeys : w.pool.keys = List.range' w.cursor (n - trueCursor j w) := by
    refine List.Pairwise.eq_of_mem_iff (BTreeMap.keys_sorted _) List.pairwise_lt_range' fun k => ?_
    rw [BTreeMap.mem_keys, ← Option.isSome_iff_exists, h.isSome_iff hwf hstarted, hheard,
      List.mem_range'_1, trueCursor]
    omega
  rw [flushRemaining_stdout, hkeys, List.range'_eq_map_range, List.range'_eq_map_range,
    List.map_map, List.map_map]
  congr 1
  apply List.map_congr_left
  intro i _
  show emissionOf (w.cursor + i) _ = playedAs S j os (trueCursor j w + i)
  rw [h.emission_eq hwf hstarted (Nat.le_add_right _ _), trueCursor]
  congr 1
  omega

/-- What the flush adds completes what has been played. -/
lemma PlayedFrom.flush (hmono : S.code.Monotone S.k) (hempty : ¬ S.code.Sufficient S.k ∅)
    {cur : ℕ} {out : List Emission} (hcn : cur ≤ n) (hjn : j < n) (hne : os ≠ [])
    (hready : ∀ l, j < l → l < n → Ready S.code S.k l os) (h : PlayedFrom S j cur os out) :
    PlayedFrom S j n os (out ++ (List.range' cur (n - cur)).map (playedAs S j os)) := by
  have hdecoded : ∀ from', j < from' → (List.range' from' (n - from')).map (playedAs S j os) =
      (List.range' from' (n - from')).map (decodedAs S j) := by
    intro from' hfrom
    apply List.map_congr_left
    intro i hi
    rw [List.mem_range'_1] at hi
    exact playedAs_of_sufficient hempty
      ((hready i (by omega) (by omega)).sufficient hmono List.prefix_rfl)
  right
  rcases h with ⟨rfl, rfl⟩ | ⟨hlt, pre, hpre, hprene, rfl⟩
  · refine ⟨hjn, os, List.prefix_rfl, hne, ?_⟩
    have hlen : n - cur = n - (cur + 1) + 1 := by omega
    rw [hlen, List.range'_succ, List.map_cons, hdecoded _ (Nat.lt_succ_self _)]
    rfl
  · refine ⟨hjn, pre, hpre, hprene, ?_⟩
    have hsplit : List.range' (j + 1) (cur - (j + 1)) ++ List.range' cur (n - cur) =
        List.range' (j + 1) (n - (j + 1)) := by
      have hlen : n - (j + 1) = (cur - (j + 1)) + (n - cur) := by omega
      rw [hlen, ← List.range'_append_1, Nat.add_sub_cancel' hlt]
    rw [hdecoded cur hlt, List.cons_append, ← List.map_append, hsplit]

/-- **Tuning in.** Of what is heard from block `j` on, the decoder writes block `j` as far as it has
been heard, and each later block, decoded; at the end of its input all of them. -/
theorem FreshRun.tuned (hS : S.Wf) (hdec : env.dec.Laws S.code S.oti S.k)
    (hmono : S.code.Monotone S.k) (hM : 1 ≤ env.maxInFlight) (hM' : env.maxInFlight ≤ 127)
    (hn : n < 2 ^ 63) (hjn : j < n) (hparse : Parses env S frames)
    (htune : TunesIn S.code S.k j n (origins frames)) (h : FreshRun env now frames acts c) :
    (c.point ≠ .closed →
      ∃ cur ≤ n, PlayedFrom S j cur (origins frames) c.window.stdout) ∧
    (c.point = .closed → origins frames ≠ [] →
      (∀ l, j < l → l < n → Ready S.code S.k l (origins frames)) →
      PlayedFrom S j n (origins frames) c.window.stdout) := by
  have hempty := hdec.not_sufficient_empty
  have hplays {acts : List Action} {c : Conf D} (h : FreshRun env now frames acts c)
      (hopen : c.point ≠ .closed) :
      Played env S j (origins frames) c.point c.window ∧ trueCursor j c.window ≤ n ∧
        PlayedFrom S j (trueCursor j c.window) (origins frames) c.window.stdout := by
    have hplayed := h.played hS hdec hmono hM hM' hn hparse htune hopen
    refine ⟨hplayed, ?_, hplayed.plays.playedFrom hmono hempty hM htune⟩
    rcases (hplayed.plays.cursor hempty).2 with heq | ⟨o, ho, hle⟩
    · omega
    · exact hle.trans (htune.block_lt o ho)
  refine ⟨fun hopen => ⟨_, (hplays h hopen).2⟩, fun hclosed hne hready => ?_⟩
  · obtain ⟨acts', m, hm, hrecv, hw⟩ := h.before_end hclosed
    have hopen : m.point ≠ .closed := by rw [hrecv]; nofun
    obtain ⟨hplayed, hcn, hout⟩ := hplays hm hopen
    have hwf := (show Reachable env m from ⟨now, acts', hm.run_eq⟩).wf hopen
    have hstarted : m.window.started = true := by
      by_contra hidle
      exact hne (hplayed.heard.content.idle (by simpa using hidle))
    rw [hw, hplayed.heard.flush_tuned hwf hstarted (htune.heard_iff hempty hne hready)]
    exact hout.flush hmono hempty hcn hjn hne hready

end Run

end RaptorqTs
