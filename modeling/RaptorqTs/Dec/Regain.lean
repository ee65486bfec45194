import RaptorqTs.Dec.InStep

/-!
# Regaining the stream

The runs that go on from any point at which the decoder waits for a packet, with a stream heard in
time. What they write is, after a bounded number of other blocks, the stream.
-/

namespace RaptorqTs

variable {D : Type} {env : Env D} {S : Stream} {j n B : ℕ} {os : List Origin} {w : Window D}

/-! ## Runs -/

/-- A run goes on from `c₀` with some frames, and no block times out that is numbered behind the
window of `c₀`. -/
structure LaterRun (env : Env D) (c₀ : Conf D) (frames : List WireFrame) (acts : List Action)
    (c : Conf D) : Prop where
  frames_eq : acts.filterMap frameBytes = frames.map WireFrame.bytes
  fresh : Machine.EachStep (step env) c₀
    (fun c a => FreshFrom env (c₀.window.cursor + env.maxInFlight) c.window a) acts
  run_eq : Machine.run (step env) c₀ acts = some c

section LaterRun

variable {c₀ c : Conf D} {frames : List WireFrame} {acts : List Action}

/-- At the head of the outer loop nothing of the window is further on than `max_in_flight`. -/
lemma Behind.start (hreach : Reachable env c₀) (hrecv : c₀.point = .recv)
    (hstarted : c₀.window.started = true) (hM : 1 ≤ env.maxInFlight) :
    Behind env j (c₀.window.cursor + env.maxInFlight) [] c₀.window := by
  have hopen : c₀.point ≠ .closed := by rw [hrecv]; decide
  have hwf := hreach.wf hopen
  have hsettled := hreach.settled hrecv
  refine ⟨hstarted, fun hk => hsettled.key_lt hk,
    hsettled.highestSeen_lt hwf hstarted hM, Nat.le_add_right _ _, Nat.le_refl _, ?_,
    fun hne => absurd rfl hne⟩
  intro e he
  obtain ⟨now, before, hrun⟩ := hreach
  rw [(run_liveSpec hrun hopen).stdout_eq] at he
  obtain ⟨k, hk, rfl⟩ := List.mem_map.mp he
  have hfirst := hwf.first_le
  rw [List.mem_range'_1] at hk
  rw [emissionOf_sbn]
  omega

/-- What holds of the window in every run that goes on in this way. -/
theorem LaterRun.regaining (hS : S.Wf) (hdec : env.dec.Laws S.code S.oti S.k)
    (hmono : S.code.Monotone S.k) (hM : 1 ≤ env.maxInFlight) (hM' : env.maxInFlight ≤ 32)
    (hreach : Reachable env c₀) (hrecv : c₀.point = .recv)
    (hstarted : c₀.window.started = true) (hfit : c₀.window.cursor + n < 2 ^ 63)
    (hparse : Parses env S frames)
    (hhears : Hears S.code S.k env.maxInFlight j n (origins frames))
    (h : LaterRun env c₀ frames acts c) (hopen : c.point ≠ .closed) :
    Regaining env S j (c₀.window.cursor + env.maxInFlight) (origins frames) c.window := by
  refine Machine.run_induction_of (P := fun acts (c : Conf D) => ∀ frames, Parses env S frames →
    Hears S.code S.k env.maxInFlight j n (origins frames) →
    acts.filterMap frameBytes = frames.map WireFrame.bytes → c.point ≠ .closed →
    Regaining env S j (c₀.window.cursor + env.maxInFlight) (origins frames) c.window) ?_ ?_
    h.fresh h.run_eq frames hparse hhears h.frames_eq hopen
  · intro frames _ _ hframes _
    obtain rfl : frames = [] := by simpa using hframes
    exact Or.inl (Behind.start hreach hrecv hstarted hM)
  · intro acts c a c' hrun _ ih hfresh hstep frames hparse hhears hframes hopen'
    obtain ⟨earlier, last, tag, rfl, horigins, hearlier, hcarries⟩ :=
      exists_carried hparse hframes
    have hopen := step_open hstep
    have hreach' : Reachable env c := hreach.run hrun
    rw [horigins] at hhears ⊢
    have hregaining := ih earlier hparse.of_append hhears.of_append hearlier hopen
    have hle := hregaining.le_window hhears.of_append.block_lt
    exact hregaining.moves hS hdec hmono hM hM' (Nat.le_add_left _ _) (hreach'.wf hopen)
      (fun hp => hreach'.settled hp) (by omega) hcarries hfresh hhears (step_moves hstep) hopen'

end LaterRun

/-! ## What is written -/

/-- Emissions in the order of their numbers are cut at any number. -/
lemma exists_cut_emissions {E : List Emission} (q : ℕ)
    (hsorted : (E.map Emission.sbn).Pairwise (· < ·)) :
    ∃ low high, E = low ++ high ∧ (∀ e ∈ low, e.sbn < q) ∧ ∀ e ∈ high, q ≤ e.sbn := by
  induction E with
  | nil => exact ⟨[], [], rfl, by simp, by simp⟩
  | cons e E ih =>
    rw [List.map_cons, List.pairwise_cons] at hsorted
    obtain ⟨hfirst, hrest⟩ := hsorted
    by_cases hlt : e.sbn < q
    · obtain ⟨low, high, rfl, hlow, hhigh⟩ := ih hrest
      refine ⟨e :: low, high, rfl, ?_, hhigh⟩
      intro e' he'
      rcases List.mem_cons.mp he' with rfl | he'
      · exact hlt
      · exact hlow e' he'
    · refine ⟨[], e :: E, rfl, by simp, ?_⟩
      intro e' he'
      rcases List.mem_cons.mp he' with rfl | he'
      · omega
      · have hle := hfirst e'.sbn (List.mem_map_of_mem he')
        omega

/-- If the numbers from `q` on are those up to `q'`, the emissions are those of their numbers after
the cut, and there is no more before it than numbers. -/
lemma exists_split_emissions {E : List Emission} {C q q' : ℕ} {f : ℕ → Emission}
    (hsorted : (E.map Emission.sbn).Pairwise (· < ·)) (hle : ∀ e ∈ E, C ≤ e.sbn)
    (hmem : ∀ k, q ≤ k → (k ∈ E.map Emission.sbn ↔ k < q'))
    (hf : ∀ e ∈ E, q ≤ e.sbn → e = f e.sbn) :
    ∃ junk, junk.length ≤ q - C ∧ E = junk ++ (List.range' q (q' - q)).map f := by
  obtain ⟨low, high, rfl, hlow, hhigh⟩ := exists_cut_emissions q hsorted
  rw [List.map_append, List.pairwise_append] at hsorted
  refine ⟨low, ?_, ?_⟩
  · have hsub : low.map Emission.sbn ⊆ List.range' C (q - C) := by
      intro k hk
      obtain ⟨e, he, rfl⟩ := List.mem_map.mp hk
      have hlt := hlow e he
      have hge := hle e (List.mem_append_left _ he)
      rw [List.mem_range'_1]
      omega
    have hlen := (hsorted.1.nodup.subperm hsub).length_le
    rwa [List.length_map, List.length_range'] at hlen
  · have hnumbers : high.map Emission.sbn = List.range' q (q' - q) := by
      refine List.Pairwise.eq_of_mem_iff hsorted.2.1 List.pairwise_lt_range' fun k => ?_
      rw [List.mem_range'_1]
      constructor
      · intro hk
        obtain ⟨e, he, rfl⟩ := List.mem_map.mp hk
        have hge := hhigh e he
        have hlt := (hmem e.sbn hge).mp (List.mem_map_of_mem (List.mem_append_right _ he))
        omega
      · rintro ⟨hge, hlt⟩
        obtain ⟨e, he, rfl⟩ := List.mem_map.mp ((hmem k hge).mpr (by omega))
        rcases List.mem_append.mp he with hl | hh
        · exact absurd (hlow e hl) (by omega)
        · exact List.mem_map_of_mem hh
    rw [← hnumbers, List.map_map]
    congr 1
    conv_lhs => rw [← List.map_id high]
    apply List.map_congr_left
    intro e he
    exact hf e (List.mem_append_right _ he) (hhigh e he)

/-- What has been written since `before`: some other blocks, each of one of some `sizes`, and then
the blocks of the stream from `m` up to `cur`. -/
structure Regained (S : Stream) (sizes : ℕ → Prop) (maxInFlight j n m cur : ℕ)
    (before after : Bytes) : Prop where
  from_le : m ≤ j + 2 * maxInFlight + 191
  le_upto : m ≤ cur
  upto_le : cur ≤ max m n
  bytes_eq : ∃ junk : List Bytes, junk.length ≤ maxInFlight + 191 ∧
    (∀ b ∈ junk, sizes b.length) ∧
    after = before ++ junk.flatten ++ ((List.range' m (cur - m)).map S.block).flatten

/-- The running loop has written one block for each number that its cursor has passed. -/
structure Continues (w₀ w : Window D) (out : List Emission) : Prop where
  started : w.started = true
  le_cursor : w₀.cursor ≤ w.cursor
  stdout_eq : w.stdout = w₀.stdout ++ out
  sbn_eq : out.map Emission.sbn = List.range' w₀.cursor (w.cursor - w₀.cursor)

lemma Continues.advance {w₀ : Window D} {out : List Emission} (h : Continues w₀ w out) :
    Continues w₀ w.advance (out ++ [emissionOf w.cursor w.pool[w.cursor]?]) where
  started := h.started
  le_cursor := by
    rw [Window.advance_cursor]
    exact Nat.le_succ_of_le h.le_cursor
  stdout_eq := by
    show w.stdout ++ [_] = _
    rw [h.stdout_eq, List.append_assoc]
  sbn_eq := by
    have hle := h.le_cursor
    have hlen : w.advance.cursor - w₀.cursor = w.cursor - w₀.cursor + 1 := by
      rw [Window.advance_cursor]
      omega
    rw [hlen, List.range'_concat, List.map_append, h.sbn_eq, List.map_singleton, emissionOf_sbn,
      Nat.one_mul, Nat.add_sub_cancel' hle]

lemma exists_continues {c₀ c : Conf D} {acts : List Action}
    (hstarted : c₀.window.started = true) (hrun : Machine.run (step env) c₀ acts = some c)
    (hopen : c.point ≠ .closed) : ∃ out, Continues c₀.window c.window out := by
  refine Machine.run_induction (P := fun _ (c : Conf D) => c.point ≠ .closed →
    ∃ out, Continues c₀.window c.window out) ?_ ?_ hrun hopen
  · intro _
    exact ⟨[], hstarted, Nat.le_refl _, by simp, by simp⟩
  · intro acts c a c' _ ih hstep hopen'
    obtain ⟨out, hout⟩ := ih (step_open hstep)
    have hm := step_moves hstep
    generalize c.point = p, c.window = w, c'.point = p', c'.window = w' at hm hout hopen'
    cases hm with
    | drop _ | ignore _ | settle _ => exact ⟨out, hout⟩
    | accept _ _ _ =>
      rw [Window.joined_of_started hout.started]
      exact ⟨out, hout.started, hout.le_cursor, hout.stdout_eq, hout.sbn_eq⟩
    | advance _ => exact ⟨_, hout.advance⟩
    | flush => exact absurd rfl hopen'

section Regained

variable {base : ℕ} {shift : ℤ} {E : List Emission} {C : ℕ} {before after : Bytes}
  {sizes : ℕ → Prop}

/-- What is cut off has the sizes of the whole. -/
lemma sizes_of_split {junk rest : List Emission} (hsplit : E = junk ++ rest)
    (hsizes : ∀ e ∈ E, sizes e.data.length) : ∀ b ∈ junk.map Emission.data, sizes b.length := by
  intro b hb
  obtain ⟨e, he, rfl⟩ := List.mem_map.mp hb
  apply hsizes
  rw [hsplit]
  exact List.mem_append_left _ he

/-- As long as the numbering is not fixed, only blocks of the old window are written. -/
lemma Regained.of_lt {maxInFlight : ℕ} (hsorted : (E.map Emission.sbn).Pairwise (· < ·))
    (hE : ∀ e ∈ E, C ≤ e.sbn ∧ e.sbn < C + maxInFlight)
    (hsizes : ∀ e ∈ E, sizes e.data.length)
    (hafter : after = before ++ E.flatMap Emission.data) {m : ℕ}
    (hm : m = j + 2 * maxInFlight + 191) : Regained S sizes maxInFlight j n m m before after := by
  obtain ⟨junk, hjunk, hsplit⟩ := @exists_split_emissions E C (C + maxInFlight) 0
    (fun k => ⟨k, .zero, []⟩) hsorted (fun e he => (hE e he).1)
    (fun k hk => by
      refine iff_of_false ?_ (Nat.not_lt_zero k)
      intro hmem
      obtain ⟨e, he, rfl⟩ := List.mem_map.mp hmem
      have hlt := (hE e he).2
      omega)
    (fun e he hle => absurd (hE e he).2 (by omega))
  refine ⟨hm.le, Nat.le_refl _, Nat.le_max_left _ _, junk.map Emission.data, ?_,
    sizes_of_split hsplit hsizes, ?_⟩
  · rw [List.length_map]
    omega
  · rw [hafter, hsplit]
    simp [List.flatMap_def]

/-- With the numbering fixed, the blocks of the stream follow in their order. -/
lemma InStep.regained (h : InStep env S j (C + env.maxInFlight) base shift os w)
    (hM' : env.maxInFlight ≤ 64) {q q' : ℕ} (hq : (q : ℤ) = base + 64 + shift)
    (hsorted : (E.map Emission.sbn).Pairwise (· < ·)) (hle : ∀ e ∈ E, C ≤ e.sbn)
    (hmem : ∀ k, q ≤ k → (k ∈ E.map Emission.sbn ↔ k < q'))
    (hE : ∀ e ∈ E, ∀ t : ℕ, base + 64 ≤ t → (e.sbn : ℤ) = t + shift →
      e = ⟨e.sbn, .decoded, S.block t⟩) (hsizes : ∀ e ∈ E, sizes e.data.length)
    (hafter : after = before ++ E.flatMap Emission.data) (hn : (q' : ℤ) ≤ max (q : ℤ) (n + shift)) :
    Regained S sizes env.maxInFlight j n (base + 64) (base + 64 + (q' - q)) before after := by
  have hbase := h.base_le
  have hkey := h.key_le
  obtain ⟨junk, hjunk, hsplit⟩ := @exists_split_emissions E C q q'
    (fun k => ⟨k, .decoded, S.block (base + 64 + (k - q))⟩) hsorted hle hmem
    (fun e he hqe => hE e he _ (by omega) (by omega))
  refine ⟨by omega, Nat.le_add_right _ _, by omega, junk.map Emission.data, ?_,
    sizes_of_split hsplit hsizes, ?_⟩
  · rw [List.length_map]
    omega
  · rw [hafter, hsplit, List.flatMap_append, List.append_assoc, Nat.add_sub_cancel_left]
    simp only [List.flatMap_def, List.map_map, List.range'_eq_map_range]
    congr 4
    funext i
    simp

end Regained

section LaterRun

variable {c₀ c : Conf D} {frames : List WireFrame} {acts : List Action}

/-- The run up to the end of the input. -/
lemma LaterRun.before_end (hrecv : c₀.point = .recv) (h : LaterRun env c₀ frames acts c)
    (hclosed : c.point = .closed) :
    ∃ acts' m, LaterRun env c₀ frames acts' m ∧ m.point = .recv ∧
      c.window = flushRemaining m.window := by
  have hopen : c₀.point ≠ .closed := by rw [hrecv]; decide
  obtain ⟨acts', m, rfl, hm, hrecv', hw⟩ := exists_before_end hopen h.run_eq hclosed
  have hframes := h.frames_eq
  have hnone : frameBytes .disconnect = none := rfl
  rw [List.filterMap_append] at hframes
  exact ⟨acts', m, ⟨by simpa [hnone] using hframes, h.fresh.of_append, hm⟩, hrecv', hw⟩

/-- The cursor is not ahead of the stream. -/
lemma InStep.cursor_le_max {base : ℕ} {shift : ℤ} (h : InStep env S j B base shift os w)
    (hM' : env.maxInFlight ≤ 64) (hn : ∀ o ∈ os, o.block < n) :
    (w.cursor : ℤ) ≤ max (base + 64 + shift) (n + shift) := by
  have hcursor := h.cursor_le
  have hkey := h.le_key
  rcases h.highest with hlt | ⟨o, ho, heq⟩
  · omega
  · have hlt := hn o ho
    omega

/-- What has been written while the loop is running. -/
lemma Regaining.regained_open {c₀ w : Window D} {out : List Emission} {sizes : ℕ → Prop}
    (hM : 1 ≤ env.maxInFlight) (hM' : env.maxInFlight ≤ 32)
    (hhears : Hears S.code S.k env.maxInFlight j n os) (hout : Continues c₀ w out)
    (hsizes : ∀ e ∈ out, sizes e.data.length)
    (h : Regaining env S j (c₀.cursor + env.maxInFlight) os w) :
    ∃ m cur, Regained S sizes env.maxInFlight j n m cur c₀.bytes w.bytes ∧
      (w.highestSeen < w.cursor + env.maxInFlight → ∀ o ∈ os, m ≤ o.block →
        o.block < cur + env.maxInFlight) := by
  have hbytes : w.bytes = c₀.bytes ++ out.flatMap Emission.data := by
    rw [Window.bytes, hout.stdout_eq, List.flatMap_append, Window.bytes]
  have hle := hout.le_cursor
  have hnumbers : ∀ e ∈ out, c₀.cursor ≤ e.sbn ∧ e.sbn < w.cursor := by
    intro e he
    have hmem := List.mem_map_of_mem (f := Emission.sbn) he
    rw [hout.sbn_eq, List.mem_range'_1] at hmem
    omega
  have hsorted : (out.map Emission.sbn).Pairwise (· < ·) := by
    rw [hout.sbn_eq]
    exact List.pairwise_lt_range'
  rcases h with hbehind | ⟨base, shift, hstep⟩
  · have hcursor := hbehind.cursor_le
    have hlt : ∀ e ∈ out, c₀.cursor ≤ e.sbn ∧ e.sbn < c₀.cursor + env.maxInFlight :=
      fun e he => ⟨(hnumbers e he).1, (hnumbers e he).2.trans_le hcursor⟩
    refine ⟨_, _, Regained.of_lt hsorted hlt hsizes hbytes rfl, fun _ o ho hm => ?_⟩
    obtain ⟨shift, -, hB, hlt⟩ := hbehind.heard_lt (List.ne_nil_of_mem ho)
    have hlt := hlt o ho
    omega
  · have hkey := hstep.le_key
    obtain ⟨q, hq⟩ : ∃ q : ℕ, (q : ℤ) = base + 64 + shift :=
      ⟨(base + 64 + shift).toNat, by omega⟩
    have hmax := hstep.cursor_le_max (by omega) hhears.block_lt
    have hmem : ∀ k, q ≤ k → (k ∈ out.map Emission.sbn ↔ k < w.cursor) := by
      intro k hqk
      rw [hout.sbn_eq, List.mem_range'_1]
      omega
    have hwritten : ∀ e ∈ out, ∀ t : ℕ, base + 64 ≤ t → (e.sbn : ℤ) = t + shift →
        e = ⟨e.sbn, .decoded, S.block t⟩ := by
      intro e he t ht hsbn
      apply hstep.written e _ t ht hsbn
      rw [hout.stdout_eq]
      exact List.mem_append_right _ he
    refine ⟨_, _, hstep.regained (by omega) hq hsorted (fun e he => (hnumbers e he).1) hmem
      hwritten hsizes hbytes (by omega), fun hhighest o ho hm => ?_⟩
    have hle := hstep.heard_le o ho hm
    omega

/-- When every block has been heard in time, the pool holds all blocks that are not written. -/
lemma InStep.key_iff {base : ℕ} {shift : ℤ} (hwf : w.Wf) (h : InStep env S j B base shift os w)
    (hempty : ¬ S.code.Sufficient S.k ∅) (hn : ∀ o ∈ os, o.block < n)
    (hready : ∀ l, j < l → l < n → Ready S.code S.k l os) {t k : ℕ} (ht : base + 64 ≤ t)
    (hk : (k : ℤ) = t + shift) : k ∈ w.pool.keys ↔ w.cursor ≤ k ∧ t < n := by
  have hstart := h.start_lt
  constructor
  · intro hmem
    obtain ⟨b, hb⟩ := BTreeMap.mem_keys.mp hmem
    obtain ⟨esi, hesi⟩ := List.exists_mem_of_ne_nil _ (h.pool ht hk hb).2.1
    exact ⟨hwf.cursor_le_key hb, hn _ (mem_esisOf.mp hesi)⟩
  · rintro ⟨hle, hlt⟩
    rw [BTreeMap.mem_keys]
    by_contra hnone
    have hget : w.pool[k]? = none := by
      cases hb : w.pool[k]? with
      | none => rfl
      | some b => exact absurd ⟨b, hb⟩ hnone
    exact not_ready_of_nil hempty (h.absent ht hk hle hget) (hready t (by omega) hlt)

lemma Window.Wf.cursor_le_of_mem (hwf : w.Wf) {k : ℕ} (hk : k ∈ w.pool.keys) : w.cursor ≤ k := by
  obtain ⟨b, hb⟩ := BTreeMap.mem_keys.mp hk
  exact hwf.cursor_le_key hb

/-- What is written in all: the blocks the cursor has passed, then those still in the pool. -/
def flushedOut (w : Window D) (out : List Emission) : List Emission :=
  out ++ w.pool.keys.map fun k => emissionOf k w.pool[k]?

section Flushed

variable {w₀ : Window D} {out : List Emission} {sizes : ℕ → Prop}

lemma Continues.flushed_bytes (h : Continues w₀ w out) :
    (flushRemaining w).bytes = w₀.bytes ++ (flushedOut w out).flatMap Emission.data := by
  rw [Window.bytes, flushRemaining_stdout, h.stdout_eq, List.append_assoc, List.flatMap_append,
    flushedOut, Window.bytes]

lemma Continues.flushed_sbn (h : Continues w₀ w out) : (flushedOut w out).map Emission.sbn =
    List.range' w₀.cursor (w.cursor - w₀.cursor) ++ w.pool.keys := by
  rw [flushedOut, List.map_append, h.sbn_eq, map_emissionOf_sbn]

lemma Continues.mem_flushed (h : Continues w₀ w out) (k : ℕ) :
    k ∈ (flushedOut w out).map Emission.sbn ↔
      (w₀.cursor ≤ k ∧ k < w.cursor) ∨ k ∈ w.pool.keys := by
  rw [h.flushed_sbn, List.mem_append, List.mem_range'_1, Nat.add_sub_cancel' h.le_cursor]

lemma Continues.flushed_sorted (hwf : w.Wf) (h : Continues w₀ w out) :
    ((flushedOut w out).map Emission.sbn).Pairwise (· < ·) := by
  rw [h.flushed_sbn, List.pairwise_append]
  refine ⟨List.pairwise_lt_range', BTreeMap.keys_sorted _, ?_⟩
  intro i hi k hk
  have hki := hwf.cursor_le_of_mem hk
  have hle := h.le_cursor
  rw [List.mem_range'_1] at hi
  omega

lemma Continues.le_flushed (hwf : w.Wf) (h : Continues w₀ w out) {e : Emission}
    (he : e ∈ flushedOut w out) : w₀.cursor ≤ e.sbn := by
  rcases (h.mem_flushed e.sbn).mp (List.mem_map_of_mem he) with hlive | hkey
  · exact hlive.1
  · exact h.le_cursor.trans (hwf.cursor_le_of_mem hkey)

/-- If the numbering is never fixed, all of it is of the old window, and so is the stream. -/
lemma Behind.regained_closed (hwf : w.Wf) (hempty : ¬ S.code.Sufficient S.k ∅)
    (hready : ∀ l, j < l → l < n → Ready S.code S.k l os) (hout : Continues w₀ w out)
    (hsizes : ∀ e ∈ flushedOut w out, sizes e.data.length)
    (h : Behind env j (w₀.cursor + env.maxInFlight) os w) :
    ∃ m, Regained S sizes env.maxInFlight j n m (max m n) w₀.bytes (flushRemaining w).bytes := by
  have hcursor := h.cursor_le
  have hlt : ∀ e ∈ flushedOut w out,
      w₀.cursor ≤ e.sbn ∧ e.sbn < w₀.cursor + env.maxInFlight := by
    intro e he
    refine ⟨hout.le_flushed hwf he, ?_⟩
    rcases (hout.mem_flushed e.sbn).mp (List.mem_map_of_mem he) with hlive | hkey
    · exact hlive.2.trans_le hcursor
    · obtain ⟨b, hb⟩ := BTreeMap.mem_keys.mp hkey
      exact h.key_lt hb
  -- the last block has been heard, behind the cursor
  have hn : n ≤ j + 2 * env.maxInFlight + 191 := by
    by_contra hfar
    obtain ⟨o, ho, hblock⟩ := (hready (n - 1) (by omega) (by omega)).exists_heard hempty
    obtain ⟨shift, -, hB, hheard⟩ := h.heard_lt (List.ne_nil_of_mem ho)
    have hlt := hheard o ho
    omega
  refine ⟨j + 2 * env.maxInFlight + 191, ?_⟩
  rw [Nat.max_eq_left hn]
  exact Regained.of_lt (hout.flushed_sorted hwf) hlt hsizes hout.flushed_bytes rfl

/-- With the numbering fixed, a block of the stream is written with its bytes. -/
lemma InStep.flushed_eq {base : ℕ} {shift : ℤ} (h : InStep env S j B base shift os w)
    (hwf : w.Wf) (hmono : S.code.Monotone S.k) (hempty : ¬ S.code.Sufficient S.k ∅)
    (hn : ∀ o ∈ os, o.block < n) (hready : ∀ l, j < l → l < n → Ready S.code S.k l os)
    (hout : Continues w₀ w out) {e : Emission} (he : e ∈ flushedOut w out) {t : ℕ}
    (ht : base + 64 ≤ t) (hsbn : (e.sbn : ℤ) = t + shift) :
    e = ⟨e.sbn, .decoded, S.block t⟩ := by
  rcases List.mem_append.mp he with hlive | hflushed
  · apply h.written e _ t ht hsbn
    rw [hout.stdout_eq]
    exact List.mem_append_right _ hlive
  · obtain ⟨k, hk, rfl⟩ := List.mem_map.mp hflushed
    rw [emissionOf_sbn] at hsbn ⊢
    have hlt := ((h.key_iff hwf hempty hn hready ht hsbn).mp hk).2
    have hstart := h.start_lt
    exact h.emission_eq hempty ht hsbn (hwf.cursor_le_of_mem hk)
      ((hready t (by omega) hlt).sufficient hmono List.prefix_rfl)

/-- With the numbering fixed, the rest of the stream is in the pool and is flushed. -/
lemma InStep.regained_closed {base : ℕ} {shift : ℤ} (hwf : w.Wf) (hmono : S.code.Monotone S.k)
    (hempty : ¬ S.code.Sufficient S.k ∅) (hM' : env.maxInFlight ≤ 32)
    (hn : ∀ o ∈ os, o.block < n) (hready : ∀ l, j < l → l < n → Ready S.code S.k l os)
    (hout : Continues w₀ w out) (hsizes : ∀ e ∈ flushedOut w out, sizes e.data.length)
    (h : InStep env S j (w₀.cursor + env.maxInFlight) base shift os w) :
    ∃ m, Regained S sizes env.maxInFlight j n m (max m n) w₀.bytes (flushRemaining w).bytes := by
  have hkey := h.le_key
  have hmax := h.cursor_le_max (by omega) hn
  obtain ⟨q, hq⟩ : ∃ q : ℕ, (q : ℤ) = base + 64 + shift :=
    ⟨(base + 64 + shift).toNat, by omega⟩
  obtain ⟨q', hq'⟩ : ∃ q' : ℕ, (q' : ℤ) = max (q : ℤ) (n + shift) :=
    ⟨(max (q : ℤ) (n + shift)).toNat, by omega⟩
  have hmem : ∀ k, q ≤ k → (k ∈ (flushedOut w out).map Emission.sbn ↔ k < q') := by
    intro k hqk
    obtain ⟨t, ht, hk⟩ : ∃ t : ℕ, base + 64 ≤ t ∧ (k : ℤ) = t + shift :=
      ⟨(k - shift).toNat, by omega, by omega⟩
    rw [hout.mem_flushed, h.key_iff hwf hempty hn hready ht hk]
    omega
  have hregained := h.regained (by omega) hq (hout.flushed_sorted hwf)
    (fun e he => hout.le_flushed hwf he) hmem
    (fun e he t ht hsbn => h.flushed_eq hwf hmono hempty hn hready hout he ht hsbn) hsizes
    hout.flushed_bytes hq'.le
  have hcur : base + 64 + (q' - q) = max (base + 64) n := by omega
  rw [hcur] at hregained
  exact ⟨_, hregained⟩

end Flushed

/-! ## The sizes of the blocks written -/

/-- The sizes of the blocks written behind the window `w₀`: that of a missing block, that of the
stream's blocks, and those of the blocks held in `w₀`. -/
def OutputSize (S : Stream) (w₀ : Window D) (size : ℕ) : Prop :=
  size = defaultBlockSize ∨ size = S.blockSize ∨
    ∃ (k : ℕ) (b : BlockState D), w₀.pool[k]? = some b ∧ b.blockSize = size

/-- The blocks held and the blocks written have such sizes. -/
structure Sizes (S : Stream) (w₀ w : Window D) : Prop where
  pool : ∀ {k : ℕ} {b}, w.pool[k]? = some b → OutputSize S w₀ b.blockSize
  output : ∃ out, w.stdout = w₀.stdout ++ out ∧ ∀ e ∈ out, OutputSize S w₀ e.data.length

namespace Sizes

variable {w₀ : Window D} {out : List Emission}

lemma refl (w₀ : Window D) : Sizes S w₀ w₀ where
  pool hk := Or.inr (Or.inr ⟨_, _, hk, rfl⟩)
  output := ⟨[], by simp, by simp⟩

/-- A block puts out what its OTI announced, and a missing one has the default size. -/
lemma emission (h : Sizes S w₀ w) {k : ℕ}
    (hsized : ∀ b, w.pool[k]? = some b → b.Sized env.dec) :
    OutputSize S w₀ (emissionOf k w.pool[k]?).data.length := by
  cases hk : w.pool[k]? with
  | none => exact Or.inl (List.length_replicate ..)
  | some b =>
    rw [emissionOf_some_data, (hsized b hk).length_output]
    exact h.pool hk

/-- A block of the stream is begun, or goes on. -/
lemma accept (h : Sizes S w₀ w) {now : Instant} {pkt : EncodingPacket} {b : BlockState D}
    (hb : (w.entry env now (w.route pkt.payloadId.sourceBlockNumber)
      pkt.payloadId.sourceBlockNumber S.oti).ingest env.dec pkt = some b) :
    Sizes S w₀ ((w.joined pkt.payloadId.sourceBlockNumber).hold
      (w.route pkt.payloadId.sourceBlockNumber) b) where
  pool hk := by
    rcases Window.get_of_get_hold hk with ⟨rfl, rfl⟩ | ⟨-, hbefore⟩
    · rw [BlockState.ingest_blockSize hb]
      cases hold : w.pool[w.route pkt.payloadId.sourceBlockNumber]? with
      | none =>
        rw [Window.entry_of_absent hold]
        exact Or.inr (Or.inl rfl)
      | some b₀ =>
        rw [Window.entry_of_get hold]
        exact h.pool hold
    · exact h.pool hbefore
  output := by
    rw [Window.hold_stdout, Window.joined_stdout]
    exact h.output

lemma advance (h : Sizes S w₀ w)
    (hsized : ∀ {k : ℕ} {b}, w.pool[k]? = some b → b.Sized env.dec) : Sizes S w₀ w.advance where
  pool hk := h.pool (Window.get_of_get_advance hk).2
  output := by
    obtain ⟨out, hstdout, hout⟩ := h.output
    refine ⟨out ++ [emissionOf w.cursor w.pool[w.cursor]?], ?_, fun e he => ?_⟩
    · show w.stdout ++ [_] = _
      rw [hstdout, List.append_assoc]
    · rcases List.mem_append.mp he with hold | hnew
      · exact hout e hold
      · rw [List.mem_singleton.mp hnew]
        exact h.emission fun _ hk => hsized hk

lemma of_continues (h : Sizes S w₀ w) (hout : Continues w₀ w out) :
    ∀ e ∈ out, OutputSize S w₀ e.data.length := by
  obtain ⟨out', hstdout, hsizes⟩ := h.output
  rw [hout.stdout_eq] at hstdout
  rwa [List.append_cancel_left hstdout]

/-- What is flushed has the sizes of the blocks held. -/
lemma flushed {c : Conf D} (h : Sizes S w₀ c.window) (hreach : Reachable env c)
    (hlength : env.dec.LengthLaws) (hopen : c.point ≠ .closed)
    (hout : Continues w₀ c.window out) :
    ∀ e ∈ flushedOut c.window out, OutputSize S w₀ e.data.length := by
  intro e he
  rcases List.mem_append.mp he with hlive | hflushed
  · exact h.of_continues hout e hlive
  · obtain ⟨k, -, rfl⟩ := List.mem_map.mp hflushed
    exact h.emission fun _ hk => hreach.sized hlength hopen hk

end Sizes

/-- The frames of the stream announce its blocks. -/
lemma oti_of_parses (hparse : Parses env S frames)
    (hframes : acts.filterMap frameBytes = frames.map WireFrame.bytes) {now : Instant} {ev : Event}
    (hev : .event now ev ∈ acts) {oti : ObjectTransmissionInformation} {pkt : EncodingPacket}
    (hsane : saneFrame env ev = some (oti, pkt)) : oti = S.oti := by
  have hdata := (saneFrame_eq_some.mp hsane).1
  cases ev with
  | tick => cases hdata
  | frame bytes =>
    have hmem : bytes ∈ acts.filterMap frameBytes := List.mem_filterMap.mpr ⟨_, hev, rfl⟩
    rw [hframes] at hmem
    obtain ⟨f, hf, rfl⟩ := List.mem_map.mp hmem
    rw [hparse f hf, Option.map_eq_some_iff] at hdata
    obtain ⟨o, -, heq⟩ := hdata
    exact (Prod.mk.inj heq).1.symm

lemma LaterRun.sizes (hlength : env.dec.LengthLaws) (hreach : Reachable env c₀)
    (hparse : Parses env S frames) (h : LaterRun env c₀ frames acts c) (hopen : c.point ≠ .closed) :
    Sizes S c₀.window c.window := by
  refine Machine.run_induction_forall (K := (· ∈ acts)) (P := fun _ (c : Conf D) =>
    c.point ≠ .closed → Sizes S c₀.window c.window) (fun _ => Sizes.refl _) ?_ (fun _ ha => ha)
    h.run_eq hopen
  intro before c a c' hrun _ ih ha hstep hopen'
  have hopen := step_open hstep
  have hsizes := ih hopen
  have hsized {k : ℕ} {b : BlockState D} (hk : c.window.pool[k]? = some b) : b.Sized env.dec :=
    (hreach.run hrun).sized hlength hopen hk
  have hm := step_moves hstep
  generalize c.point = p, c.window = w, c'.point = p', c'.window = w' at hm hsizes hsized hopen'
  cases hm with
  | drop _ | ignore _ | settle _ => exact hsizes
  | accept hev _ hb =>
    rw [oti_of_parses hparse h.frames_eq ha hev] at hb
    exact hsizes.accept hb
  | advance _ => exact hsizes.advance hsized
  | flush => exact absurd rfl hopen'

/-- **The decoder regains the stream.** Whatever it has done up to some point at which it waits for
the next packet, and however the blocks it holds at that point end: if the packets of a stream are
heard in time from then on, then after at most `max_in_flight + 191` other blocks, each of the
default size, the stream's or that of a block held, the blocks of the stream are written, decoded
and in their order, from some block on that is at most `2 * max_in_flight + 191` blocks after the
first one heard. The output stays less than `max_in_flight` blocks behind the packets, and at the
end of the input it is complete. -/
theorem LaterRun.regained (hS : S.Wf) (hdec : env.dec.Laws S.code S.oti S.k)
    (hlength : env.dec.LengthLaws) (hmono : S.code.Monotone S.k) (hM : 1 ≤ env.maxInFlight)
    (hM' : env.maxInFlight ≤ 32) (hreach : Reachable env c₀) (hrecv : c₀.point = .recv)
    (hstarted : c₀.window.started = true) (hfit : c₀.window.cursor + n < 2 ^ 63)
    (hparse : Parses env S frames)
    (hhears : Hears S.code S.k env.maxInFlight j n (origins frames))
    (h : LaterRun env c₀ frames acts c)
    (hready : c.point = .closed → ∀ l, j < l → l < n → Ready S.code S.k l (origins frames)) :
    ∃ m cur, Regained S (OutputSize S c₀.window) env.maxInFlight j n m cur c₀.window.bytes
        c.window.bytes ∧
      (c.point = .recv → ∀ o ∈ origins frames, m ≤ o.block → o.block < cur + env.maxInFlight) ∧
      (c.point = .closed → cur = max m n) := by
  have hempty := hdec.not_sufficient_empty
  by_cases hclosed : c.point = .closed
  · obtain ⟨acts', m, hm, hrecv', hw⟩ := h.before_end hrecv hclosed
    have hopen : m.point ≠ .closed := by rw [hrecv']; decide
    obtain ⟨out, hout⟩ := exists_continues hstarted hm.run_eq hopen
    have hregaining := hm.regaining hS hdec hmono hM hM' hreach hrecv hstarted hfit hparse hhears
      hopen
    have hwf := (hreach.run hm.run_eq).wf hopen
    have hsizes := (hm.sizes hlength hreach hparse hopen).flushed (hreach.run hm.run_eq) hlength
      hopen hout
    obtain ⟨first, hregained⟩ : ∃ first, Regained S (OutputSize S c₀.window) env.maxInFlight j n
        first (max first n) c₀.window.bytes (flushRemaining m.window).bytes := by
      rcases hregaining with hbehind | ⟨base, shift, hstep⟩
      · exact hbehind.regained_closed hwf hempty (hready hclosed) hout hsizes
      · exact hstep.regained_closed hwf hmono hempty hM' hhears.block_lt (hready hclosed) hout
          hsizes
    rw [hw]
    refine ⟨first, _, hregained, fun hrecv => ?_, fun _ => rfl⟩
    rw [hrecv] at hclosed
    simp at hclosed
  · obtain ⟨out, hout⟩ := exists_continues hstarted h.run_eq hclosed
    have hregaining := h.regaining hS hdec hmono hM hM' hreach hrecv hstarted hfit hparse hhears
      hclosed
    have hsizes := (h.sizes hlength hreach hparse hclosed).of_continues hout
    obtain ⟨first, cur, hregained, hbehind⟩ :=
      hregaining.regained_open hM hM' hhears hout hsizes
    have hreach' := hreach.run h.run_eq
    have hle := hregaining.le_window hhears.block_lt
    refine ⟨first, cur, hregained, fun hrecv' => hbehind ?_, fun h => absurd h hclosed⟩
    exact (hreach'.settled hrecv').highestSeen_lt (hreach'.wf hclosed) hout.started hM

end LaterRun

end RaptorqTs
