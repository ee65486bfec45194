import RaptorqTs.Dec.InStep
import RaptorqTs.Dec.Permute

/-!
# Containing the damage

The link may lose whole blocks, and blocks may time out. Each block is still written in its place,
with its symbols or zeros, and a block is written as it is when its packets arrive before it is
forced out and it does not time out, whatever happens to the other blocks.
-/

namespace RaptorqTs

/-! ## Blocks in their places -/

/-- The emissions are of the blocks from `j` on, in their order: what is written for a block is its
symbols or zeros, and it is the block if that is one of the `intact` ones. -/
structure InPlace (S : Stream) (intact : ℕ → Prop) (j : ℕ) (out : List Emission) : Prop where
  faithful : ∀ {n e}, out[n]? = some e → Faithful S (j + n) [] e.data
  data_eq : ∀ {n e}, out[n]? = some e → intact (j + n) → e.data = S.block (j + n)

namespace InPlace

variable {S : Stream} {intact intact' : ℕ → Prop} {j l i : ℕ} {out : List Emission} {e : Emission}

lemma nil : InPlace S intact j [] where
  faithful h := by cases h
  data_eq h := by cases h

lemma mono (h : InPlace S intact j out) (hsub : ∀ l, intact' l → intact l) :
    InPlace S intact' j out where
  faithful := h.faithful
  data_eq hn hintact := h.data_eq hn (hsub _ hintact)

lemma concat (h : InPlace S intact j out) (hfaithful : Faithful S (j + out.length) [] e.data)
    (hdata : intact (j + out.length) → e.data = S.block (j + out.length)) :
    InPlace S intact j (out ++ [e]) := by
  have hcases : ∀ {n e'}, (out ++ [e])[n]? = some e' →
      out[n]? = some e' ∨ n = out.length ∧ e' = e := by
    intro n e' hn
    rw [List.getElem?_append] at hn
    by_cases hlt : n < out.length
    · rw [if_pos hlt] at hn
      exact Or.inl hn
    · rw [if_neg hlt, List.getElem?_singleton] at hn
      simp only [Option.ite_none_right_eq_some, Option.some.injEq] at hn
      exact Or.inr ⟨by omega, hn.2.symm⟩
  refine ⟨fun {n e'} hn => ?_, fun {n e'} hn hintact => ?_⟩
  · rcases hcases hn with hold | ⟨rfl, rfl⟩
    · exact h.faithful hold
    · exact hfaithful
  · rcases hcases hn with hold | ⟨rfl, rfl⟩
    · exact h.data_eq hold hintact
    · exact hdata hintact

lemma length_data (h : InPlace S intact j out) :
    ∀ data ∈ out.map Emission.data, data.length = S.blockSize := by
  intro data hdata
  obtain ⟨e, he, rfl⟩ := List.mem_map.mp hdata
  obtain ⟨n, hn⟩ := List.mem_iff_getElem?.mp he
  exact (h.faithful hn).length_eq

/-- All blocks have the same size on the output. -/
theorem length_bytes (h : InPlace S intact j out) :
    (out.flatMap Emission.data).length = out.length * S.blockSize := by
  rw [List.flatMap_def, length_flatten_of_length h.length_data, List.length_map]

lemma slice_bytes (h : InPlace S intact j out) {n : ℕ} (hn : n < out.length) :
    slice (out.flatMap Emission.data) (n * S.blockSize) S.blockSize = out[n].data := by
  rw [List.flatMap_def, slice_flatten h.length_data (by simpa using hn), List.getElem_map]

/-- A symbol of a block, in its place. -/
theorem slice_symbol (h : InPlace S intact j out) (hjl : j ≤ l) (hl : l < j + out.length)
    (hi : i < S.k) :
    slice (out.flatMap Emission.data) ((l - j) * S.blockSize + i * symbolSize) symbolSize =
        S.sourceSymbol l i ∨
      slice (out.flatMap Emission.data) ((l - j) * S.blockSize + i * symbolSize) symbolSize =
        List.replicate symbolSize 0 := by
  have hn : l - j < out.length := by omega
  have hfaithful := h.faithful (List.getElem?_eq_getElem hn)
  rw [Nat.add_sub_cancel' hjl] at hfaithful
  rw [← slice_slice (Reference.fit_symbol hi), ← Stream.blockSize, h.slice_bytes hn]
  exact hfaithful.symbol i hi

/-- An intact block, in its place. -/
theorem slice_intact (h : InPlace S intact j out) (hjl : j ≤ l) (hl : l < j + out.length)
    (hintact : intact l) :
    slice (out.flatMap Emission.data) ((l - j) * S.blockSize) S.blockSize = S.block l := by
  have hn : l - j < out.length := by omega
  have hdata := h.data_eq (List.getElem?_eq_getElem hn)
  rw [Nat.add_sub_cancel' hjl] at hdata
  rw [h.slice_bytes hn, hdata hintact]

end InPlace

/-! ## Interrupted deliveries -/

/-- What is heard from block `j` on, of `n` blocks: no packet is more than `g` blocks ahead of all
that have been heard before it. -/
structure Interrupted (j n g : ℕ) (os : List Origin) : Prop where
  head : ∀ o ∈ os.head?, o.block = j
  le_block : ∀ o ∈ os, j ≤ o.block
  block_lt : ∀ o ∈ os, o.block < n
  esi_lt : ∀ o ∈ os, o.esi < 2 ^ 24
  lag : os.Pairwise fun o o' => o.block < o'.block + 128
  resumes : ∀ pre o post, os = pre ++ o :: post → pre ≠ [] → ∃ o' ∈ pre, o.block ≤ o'.block + g

/-- Block `l` is ready before a packet is heard that forces it out. -/
def ReadyInTime (code : FountainCode) (k maxInFlight l : ℕ) (os : List Origin) : Prop :=
  ∀ pre o post, os = pre ++ o :: post → l + maxInFlight ≤ o.block → Ready code k l pre

section Interrupted

variable {code : FountainCode} {j n g k l maxInFlight : ℕ} {os os' : List Origin} {o : Origin}

lemma Interrupted.of_append (h : Interrupted j n g (os ++ os')) : Interrupted j n g os where
  head o ho := by
    apply h.head
    rw [List.head?_append, ho]
    rfl
  le_block o ho := h.le_block o (List.mem_append_left _ ho)
  block_lt o ho := h.block_lt o (List.mem_append_left _ ho)
  esi_lt o ho := h.esi_lt o (List.mem_append_left _ ho)
  lag := (List.pairwise_append.mp h.lag).1
  resumes pre o post hcut := h.resumes pre o (post ++ os') (by rw [hcut]; simp)

/-- Without an outage something is heard of every block. -/
lemma Interrupted.exists_heard (h : Interrupted j n g os) (hg : g ≤ 1) (ho : o ∈ os) (hjl : j ≤ l)
    (hl : l ≤ o.block) : ∃ o' ∈ os, o'.block = l := by
  induction os using List.reverseRecOn generalizing o with
  | nil => simp at ho
  | append_singleton os last ih =>
    by_cases hmem : o ∈ os
    · obtain ⟨o', ho', hblock⟩ := ih h.of_append hmem hl
      exact ⟨o', List.mem_append_left _ ho', hblock⟩
    · obtain rfl : o = last := by
        rcases List.mem_append.mp ho with hold | hnew
        · exact absurd hold hmem
        · exact List.mem_singleton.mp hnew
      by_cases heq : o.block = l
      · exact ⟨o, ho, heq⟩
      -- the blocks before that of the last packet have been heard before it
      have hne : os ≠ [] := by
        rintro rfl
        have hfirst := h.head o rfl
        omega
      obtain ⟨o', ho', hle⟩ := h.resumes os o [] rfl hne
      obtain ⟨o'', ho'', hblock⟩ := ih h.of_append ho' (by omega)
      exact ⟨o'', List.mem_append_left _ ho'', hblock⟩

lemma ReadyInTime.of_append (h : ReadyInTime code k maxInFlight l (os ++ os')) :
    ReadyInTime code k maxInFlight l os :=
  fun pre o post hcut => h pre o (post ++ os') (by rw [hcut]; simp)

/-- A block that can be forced out is ready. -/
lemma ReadyInTime.ready (h : ReadyInTime code k maxInFlight l os) (ho : o ∈ os)
    (hl : l + maxInFlight ≤ o.block) : Ready code k l os := by
  obtain ⟨pre, post, hcut⟩ := List.append_of_mem ho
  exact (h pre o post hcut hl).mono ⟨_, hcut.symm⟩

end Interrupted

/-! ## The window -/

variable {D : Type} {env : Env D} {S : Stream} {j n g : ℕ} {os : List Origin} {w : Window D}
  {keeps : ℕ → Prop}

/-- A block that `keeps` names does not time out at the cursor. -/
def Keeps (env : Env D) (keeps : ℕ → Prop) (j : ℕ) (w : Window D) : Action → Prop
  | .pass clk => keeps (trueCursor j w) →
      ∀ b, w.pool[w.cursor]? = some b → elapsed clk.guard b.firstSeen < env.timeout
  | .event _ _ | .disconnect => True

/-- Without timeouts every block is kept. -/
lemma Fresh.keeps_all {a : Action} (h : Fresh env w a) : Keeps env keeps j w a := by
  cases a with
  | pass clk => exact fun _ b hb => h w.cursor b hb
  | event now ev => trivial
  | disconnect => trivial

/-- What is written for a block, unless nothing of it is heard and it has not the default size. -/
lemma Heard.faithful (hS : S.Wf) (h : Heard env S j os w) {k : ℕ}
    (hzero : S.k = defaultBlockSymbols ∨ w.pool[k]? ≠ none) :
    Faithful S (j + (k - w.first)) [] (emissionOf k w.pool[k]?).data := by
  cases hb : w.pool[k]? with
  | some b =>
    rw [emissionOf_some_data]
    have hfaithful := (h.content.pool hb).faithful hS
    exact ⟨hfaithful.length_eq, hfaithful.symbol, fun i _ hmem => by cases hmem⟩
  | none =>
    have hsize : defaultBlockSize = S.blockSize := by
      rw [Stream.blockSize, hzero.resolve_right (not_not.mpr hb), defaultBlockSize]
    simp only [emissionOf, hsize]
    exact faithful_zeros _

/-- A block that has been heard is decoded. -/
lemma Heard.data_eq (hempty : ¬ S.code.Sufficient S.k ∅) (hwf : w.Wf) (h : Heard env S j os w)
    (hstarted : w.started = true) {k : ℕ} (hk : w.cursor ≤ k)
    (hsuff : S.code.Sufficient S.k (esisOf (j + (k - w.first)) os).toFinset) :
    (emissionOf k w.pool[k]?).data = S.block (j + (k - w.first)) := by
  rw [h.emission_eq hwf hstarted hk, playedAs_of_sufficient hempty hsuff]

/-- Without an outage all blocks up to the last one heard are in the pool. -/
lemma Heard.get_ne_none (h : Heard env S j os w) (hint : Interrupted j n g os) (hg : g ≤ 1)
    (hstarted : w.started = true) {k : ℕ} (hk : w.cursor ≤ k) {o : Origin} (ho : o ∈ os)
    (hle : j + (k - w.first) ≤ o.block) : w.pool[k]? ≠ none := by
  intro hnone
  obtain ⟨o', ho', hblock⟩ := hint.exists_heard hg ho (Nat.le_add_right _ _) hle
  have hnil := h.content.absent hstarted hk hnone
  have hmem : o'.esi ∈ esisOf (j + (k - w.first)) os := by
    rw [mem_esisOf, ← hblock]
    exact ho'
  rw [hnil] at hmem
  cases hmem

/-- A head that has not timed out is ready or forced out. -/
lemma passes_of_mayAdvance (hempty : ¬ S.code.Sufficient S.k ∅) (hwf : w.Wf)
    (h : Heard env S j os w) (hfit : w.cursor + env.maxInFlight < 2 ^ 64) {t : Instant}
    (hmay : mayAdvance env t w = true)
    (hhead : ∀ b, w.pool[w.cursor]? = some b → elapsed t b.firstSeen < env.timeout) :
    Passes S env.maxInFlight os (trueCursor j w) := by
  apply (h.ripe_iff hempty hwf hfit).mp
  rw [← hmay]
  unfold mayAdvance ripe
  cases hb : w.pool[w.cursor]? with
  | none => rfl
  | some b => simp [Nat.not_le.mpr (hhead b hb)]

/-- Without an outage the block at the cursor is in the pool when it is forced out. -/
lemma Heard.head_ne_none (hempty : ¬ S.code.Sufficient S.k ∅) (hwf : w.Wf)
    (h : Heard env S j os w) (hint : Interrupted j n g os) (hg : g ≤ 1)
    (hfit : w.cursor + env.maxInFlight < 2 ^ 64) {t : Instant} (hmay : mayAdvance env t w = true) :
    w.pool[w.cursor]? ≠ none := by
  intro hnone
  have hstarted := hwf.started_of_mayAdvance hmay
  have hpasses := passes_of_mayAdvance hempty hwf h hfit hmay
    (fun b hb => by rw [hnone] at hb; cases hb)
  rcases hpasses with hsuff | ⟨o, ho, hle⟩
  · have hnil : esisOf (trueCursor j w) os = [] := h.content.absent hstarted (Nat.le_refl _) hnone
    rw [hnil] at hsuff
    exact hempty hsuff
  · have hblock : j + (w.cursor - w.first) ≤ o.block := (Nat.le_add_right _ _).trans hle
    exact h.get_ne_none hint hg hstarted (Nat.le_refl _) ho hblock hnone

/-- What has been heard is in the pool or has been written, each block in its place. -/
structure Contained (env : Env D) (S : Stream) (keeps : ℕ → Prop) (j : ℕ) (os : List Origin)
    (w : Window D) : Prop where
  heard : Heard env S j os w
  cursor_le : w.started = true → w.cursor ≤ w.highestSeen + 1
  length_eq : w.stdout.length = w.cursor - w.first
  inPlace : InPlace S (fun l => keeps l ∧ ReadyInTime S.code S.k env.maxInFlight l os) j w.stdout

namespace Contained

lemma init : Contained env S keeps j [] (Window.init : Window D) where
  heard := Heard.init
  cursor_le h := by cases h
  length_eq := rfl
  inPlace := InPlace.nil

lemma trueCursor_eq (h : Contained env S keeps j os w) : trueCursor j w = j + w.stdout.length := by
  rw [h.length_eq]
  rfl

/-- The next packet is within half an SBN period of the cursor. -/
lemma inReach (hM : 1 ≤ env.maxInFlight) (hg : env.maxInFlight + g ≤ 128) (hwf : w.Wf)
    (hsettled : Settled env w) (h : Contained env S keeps j os w) {o : Origin}
    (hint : Interrupted j n g (os ++ [o])) : InReach j w o.block := by
  unfold InReach
  cases hstarted : w.started with
  | false =>
    rw [if_neg nofun]
    apply hint.head
    rw [h.heard.content.idle hstarted]
    rfl
  | true =>
    rw [if_pos rfl]
    have hfirst := hwf.first_le
    have hle := h.cursor_le hstarted
    have hahead := hsettled.highestSeen_lt hwf hstarted hM
    have hreached := h.heard.reached hstarted
    have hjo := hint.le_block o (List.mem_append_right _ (List.mem_singleton_self o))
    refine ⟨hjo, ?_, ?_⟩
    · unfold trueCursor
      by_cases hmoved : w.first < w.cursor
      · -- something has been heard of the last block written, or of a later one
        obtain ⟨o', ho', hblock⟩ := (hreached (w.cursor - 1 - w.first)).mp (by omega)
        have hlag := (List.pairwise_append.mp hint.lag).2.2 o' ho' o (List.mem_singleton_self o)
        omega
      · omega
    · unfold trueCursor
      by_cases hnil : os = []
      · have hblock := hint.head o (by rw [hnil]; rfl)
        omega
      · obtain ⟨o', ho', hblock⟩ := hint.resumes os o [] rfl hnil
        have hjo' := hint.le_block o' (List.mem_append_left _ ho')
        have hseen := (hreached (o'.block - j)).mpr ⟨o', ho', by omega⟩
        omega

/-- A packet of a block that has been written changes nothing, and any other is ingested. -/
lemma handles (hS : S.Wf) (hdec : env.dec.Laws S.code S.oti S.k) (hmono : S.code.Monotone S.k)
    (hwf : w.Wf) (h : Contained env S keeps j os w) {o : Origin} (hesi : o.esi < 2 ^ 24)
    (hreach : InReach j w o.block) {w' : Window D} (hhandles : Handles env S w o w') :
    Contained env S keeps j (os ++ [o]) w' := by
  have hinPlace : InPlace S (fun l => keeps l ∧
      ReadyInTime S.code S.k env.maxInFlight l (os ++ [o])) j w.stdout :=
    h.inPlace.mono fun l hl => ⟨hl.1, hl.2.of_append⟩
  rcases hhandles with ⟨hred, rfl⟩ | ⟨hred, now, b, hb, rfl⟩
  · have hstarted := Window.started_of_redundant hred
    have hlate : o.block < trueCursor j w' := by
      by_contra hle
      have hacc := (redundant_of_inReach hwf h.heard.content.joined hreach).mpr (by omega)
      rw [hred] at hacc
      cases hacc
    exact ⟨h.heard.late hwf hstarted hlate (h.cursor_le hstarted), h.cursor_le, h.length_eq,
      hinPlace⟩
  · refine ⟨h.heard.accept hS hdec hmono hwf hesi hreach hred hb, fun _ => ?_,
      hwf.length_stdout_accept _ _ h.length_eq, ?_⟩
    · exact Nat.le_succ_of_le (Window.cursor_le_accept hred)
    · rw [Window.hold_stdout, Window.joined_stdout]
      exact hinPlace

/-- The block at the cursor is written in its place. -/
lemma advance (hS : S.Wf) (hmono : S.code.Monotone S.k) (hempty : ¬ S.code.Sufficient S.k ∅)
    (hzero : S.k = defaultBlockSymbols ∨ g ≤ 1) (hwf : w.Wf)
    (hfit : w.cursor + env.maxInFlight < 2 ^ 64) (h : Contained env S keeps j os w)
    (hint : Interrupted j n g os) {clk : Clock} (hkeeps : Keeps env keeps j w (.pass clk))
    (hmay : mayAdvance env clk.guard w = true) : Contained env S keeps j os w.advance where
  heard := h.heard.advance
  cursor_le _ := by
    have hle := hwf.cursor_le_of_mayAdvance hfit hmay
    rw [Window.advance_cursor, Window.advance_highestSeen]
    omega
  length_eq := hwf.length_stdout_advance h.length_eq
  inPlace := by
    have hstarted := hwf.started_of_mayAdvance hmay
    have hlen := h.trueCursor_eq
    refine h.inPlace.concat ?_ ?_
    · rw [← hlen]
      exact h.heard.faithful hS (hzero.imp_right fun hg =>
        h.heard.head_ne_none hempty hwf hint hg hfit hmay)
    · rw [← hlen]
      rintro ⟨hkept, hready⟩
      apply h.heard.data_eq hempty hwf hstarted (Nat.le_refl _)
      rcases passes_of_mayAdvance hempty hwf h.heard hfit hmay (hkeeps hkept) with
        hsuff | ⟨o, ho, hle⟩
      · exact hsuff
      · exact (hready.ready ho hle).sufficient hmono List.prefix_rfl

/-- The numbers of the window fit 64 bits. -/
lemma fits (hM : env.maxInFlight ≤ 128) (hn : n < 2 ^ 63) (hwf : w.Wf)
    (h : Contained env S keeps j os w) (hint : Interrupted j n g os) :
    w.cursor + env.maxInFlight < 2 ^ 64 := by
  cases hstarted : w.started with
  | false =>
    have hzero : (Window.init : Window D).cursor = 0 := rfl
    rw [hwf.idle hstarted, hzero]
    omega
  | true =>
    have hfirst := h.heard.first_eq hstarted
    have hcursor := h.cursor_le hstarted
    by_cases hle : w.first ≤ w.highestSeen
    · obtain ⟨o, ho, hblock⟩ := (h.heard.reached hstarted (w.highestSeen - w.first)).mp (by omega)
      have hlt := hint.block_lt o ho
      omega
    · omega

/-- One step of a run. -/
lemma moves (hS : S.Wf) (hdec : env.dec.Laws S.code S.oti S.k) (hmono : S.code.Monotone S.k)
    (hM : 1 ≤ env.maxInFlight) (hg : env.maxInFlight + g ≤ 128)
    (hzero : S.k = defaultBlockSymbols ∨ g ≤ 1) (hn : n < 2 ^ 63) {p p' : Point} {w' : Window D}
    {a : Action} {tag : Option Origin} (hwf : w.Wf) (hsettled : p = .recv → Settled env w)
    (h : Contained env S keeps j os w) (hcarries : Carries env S (a, tag))
    (hkeeps : Keeps env keeps j w a) (hint : Interrupted j n g (os ++ tag.toList))
    (hm : Moves env p w a p' w') (hopen : p' ≠ .closed) :
    Contained env S keeps j (os ++ tag.toList) w' := by
  have hfit := h.fits (by omega) hn hwf hint.of_append
  rcases hm.carried hS hcarries with ⟨o, rfl, hp, hhandles⟩ |
    ⟨rfl, rfl | hclosed | ⟨clk, rfl, hmay, rfl⟩⟩
  · exact h.handles hS hdec hmono hwf
      (hint.esi_lt o (List.mem_append_right _ (List.mem_singleton_self o)))
      (h.inReach hM hg hwf (hsettled hp) hint) hhandles
  · simpa using h
  · exact absurd hclosed hopen
  · rw [Option.toList_none, List.append_nil] at hint ⊢
    exact h.advance hS hmono hdec.not_sufficient_empty hzero hwf hfit hint hkeeps hmay

end Contained

/-! ## Runs -/

/-- A run on some frames, in which no block that `keeps` names times out at the cursor. -/
structure KeepingRun (env : Env D) (keeps : ℕ → Prop) (j : ℕ) (now : Instant)
    (frames : List WireFrame) (acts : List Action) (c : Conf D) : Prop where
  frames_eq : acts.filterMap frameBytes = frames.map WireFrame.bytes
  keeps : Machine.EachStep (step env) (init now) (fun c a => Keeps env keeps j c.window a) acts
  run_eq : runFrom env now acts = some c

/-- **The damage is contained**, as long as the loop is running. -/
theorem KeepingRun.contained (hS : S.Wf) (hdec : env.dec.Laws S.code S.oti S.k)
    (hmono : S.code.Monotone S.k) (hM : 1 ≤ env.maxInFlight) (hg : env.maxInFlight + g ≤ 128)
    (hzero : S.k = defaultBlockSymbols ∨ g ≤ 1) (hn : n < 2 ^ 63) {now : Instant}
    {frames : List WireFrame} {acts : List Action} {c : Conf D} (hparse : Parses env S frames)
    (hint : Interrupted j n g (origins frames)) (h : KeepingRun env keeps j now frames acts c)
    (hopen : c.point ≠ .closed) : Contained env S keeps j (origins frames) c.window := by
  refine Machine.run_induction_of (P := fun acts (c : Conf D) => ∀ frames, Parses env S frames →
    Interrupted j n g (origins frames) → acts.filterMap frameBytes = frames.map WireFrame.bytes →
    c.point ≠ .closed → Contained env S keeps j (origins frames) c.window) ?_ ?_ h.keeps h.run_eq
    frames hparse hint h.frames_eq hopen
  · intro frames _ _ hframes _
    obtain rfl : frames = [] := by simpa using hframes
    exact Contained.init
  · intro acts c a c' hrun _ ih hkeeps hstep frames hparse hint hframes hopen'
    obtain ⟨earlier, last, tag, rfl, horigins, hearlier, hcarries⟩ :=
      exists_carried hparse hframes
    have hopen := step_open hstep
    have hreach : Reachable env c := ⟨now, acts, hrun⟩
    rw [horigins] at hint ⊢
    have hcontained := ih earlier hparse.of_append hint.of_append hearlier hopen
    exact hcontained.moves hS hdec hmono hM hg hzero hn (hreach.wf hopen)
      (fun hrecv => hreach.settled hrecv) hcarries hkeeps hint (step_moves hstep) hopen'

/-! ## The end of the input -/

section Flush

variable {m : ℕ}

/-- The blocks that are left in the pool are written after the others. -/
lemma Contained.inPlace_append (hS : S.Wf) (hmono : S.code.Monotone S.k)
    (hempty : ¬ S.code.Sufficient S.k ∅) (hwf : w.Wf) (h : Contained env S keeps j os w)
    (hstarted : w.started = true)
    (hpool : ∀ k, w.cursor ≤ k → k < w.cursor + m → w.pool[k]? ≠ none) :
    InPlace S (fun l => keeps l ∧ ReadyInTime S.code S.k env.maxInFlight l os ∧
        Ready S.code S.k l os) j
      (w.stdout ++ (List.range' w.cursor m).map fun k => emissionOf k w.pool[k]?) := by
  induction m with
  | zero =>
    rw [List.range'_zero, List.map_nil, List.append_nil]
    exact h.inPlace.mono fun l hl => ⟨hl.1, hl.2.1⟩
  | succ m ih =>
    have hinit := ih fun k hk hlt => hpool k hk (by omega)
    have hfirst := hwf.first_le
    have hindex : j + (w.stdout ++ (List.range' w.cursor m).map fun k =>
        emissionOf k w.pool[k]?).length = j + (w.cursor + m - w.first) := by
      rw [List.length_append, List.length_map, List.length_range', h.length_eq]
      omega
    rw [List.range'_concat, Nat.one_mul, List.map_append, List.map_singleton, ← List.append_assoc]
    refine hinit.concat ?_ ?_
    · rw [hindex]
      exact h.heard.faithful hS (Or.inr (hpool _ (Nat.le_add_right _ _) (by omega)))
    · rw [hindex]
      rintro ⟨-, -, hready⟩
      exact h.heard.data_eq hempty hwf hstarted (Nat.le_add_right _ _)
        (hready.sufficient hmono List.prefix_rfl)

/-- What has been written has been heard, or a later block has. -/
lemma Contained.exists_heard (hwf : w.Wf) (h : Contained env S keeps j os w) {l : ℕ} (hjl : j ≤ l)
    (hl : l < j + w.stdout.length) : ∃ o ∈ os, l ≤ o.block := by
  have hlen := h.length_eq
  cases hstarted : w.started with
  | false =>
    have hnil : w.stdout.length = 0 := by
      rw [hwf.idle hstarted]
      rfl
    omega
  | true =>
    have hcursor := h.cursor_le hstarted
    obtain ⟨o, ho, hblock⟩ := (h.heard.reached hstarted (l - j)).mp (by omega)
    exact ⟨o, ho, by omega⟩

/-- Without an outage the pool has no gap. -/
lemma Contained.keys_eq (hwf : w.Wf) (h : Contained env S keeps j os w)
    (hint : Interrupted j n g os) (hg : g ≤ 1) (hstarted : w.started = true) :
    w.pool.keys = List.range' w.cursor (w.highestSeen + 1 - w.cursor) := by
  have hcursor := h.cursor_le hstarted
  refine List.Pairwise.eq_of_mem_iff (BTreeMap.keys_sorted _) List.pairwise_lt_range' fun k => ?_
  rw [BTreeMap.mem_keys, List.mem_range'_1]
  constructor
  · rintro ⟨b, hb⟩
    have hle := hwf.cursor_le_key hb
    have hhighest := hwf.key_le_highest hb
    omega
  · rintro ⟨hle, hlt⟩
    have hfirst := hwf.first_le
    obtain ⟨o, ho, hblock⟩ := (h.heard.reached hstarted (k - w.first)).mp (by omega)
    exact Option.ne_none_iff_exists'.mp (h.heard.get_ne_none hint hg hstarted hle ho hblock)

/-- Without an outage all that has been heard is in its place when the pool has been flushed. -/
lemma Contained.flush (hS : S.Wf) (hmono : S.code.Monotone S.k)
    (hempty : ¬ S.code.Sufficient S.k ∅) (hwf : w.Wf) (h : Contained env S keeps j os w)
    (hint : Interrupted j n g os) (hg : g ≤ 1) :
    InPlace S (fun l => keeps l ∧ ReadyInTime S.code S.k env.maxInFlight l os ∧
        Ready S.code S.k l os) j (flushRemaining w).stdout ∧
      (∀ o ∈ os, o.block < j + (flushRemaining w).stdout.length) ∧
      ∀ l, j ≤ l → l < j + (flushRemaining w).stdout.length → ∃ o ∈ os, l ≤ o.block := by
  rw [flushRemaining_stdout]
  cases hstarted : w.started with
  | false =>
    have hos := h.heard.content.idle hstarted
    subst hos
    rw [h.heard.keys_of_nil, List.map_nil, List.append_nil]
    refine ⟨h.inPlace.mono fun l hl => ⟨hl.1, hl.2.1⟩, fun o ho => ?_,
      fun l hjl hl => h.exists_heard hwf hjl hl⟩
    cases ho
  | true =>
    have hkeys := h.keys_eq hwf hint hg hstarted
    have hcursor := h.cursor_le hstarted
    have hfirst := hwf.first_le
    rw [hkeys]
    refine ⟨h.inPlace_append hS hmono hempty hwf hstarted fun k hk hlt => ?_, fun o ho => ?_,
      fun l hjl hl => ?_⟩
    · have hmem : k ∈ w.pool.keys := by
        rw [hkeys, List.mem_range'_1]
        exact ⟨hk, hlt⟩
      exact Option.ne_none_iff_exists'.mpr (BTreeMap.mem_keys.mp hmem)
    · have hjo := hint.le_block o ho
      have hseen := (h.heard.reached hstarted (o.block - j)).mpr ⟨o, ho, by omega⟩
      rw [List.length_append, List.length_map, List.length_range', h.length_eq]
      omega
    · rw [List.length_append, List.length_map, List.length_range', h.length_eq] at hl
      obtain ⟨o, ho, hblock⟩ := (h.heard.reached hstarted (l - j)).mp (by omega)
      exact ⟨o, ho, by omega⟩

end Flush

/-! ## What is written -/

/-- The blocks from `j` up to `cur` have been written, each in its place, and nothing else while the
loop is running or if there was no outage. The output is less than `max_in_flight` blocks behind
what has been heard, and without an outage all that has been heard is written when the input has
ended. -/
structure Salvaged (env : Env D) (S : Stream) (keeps : ℕ → Prop) (g j cur : ℕ) (os : List Origin)
    (c : Conf D) : Prop where
  stdout_eq : ∃ out rest, c.window.stdout = out ++ rest ∧ j + out.length = cur ∧
    (c.point ≠ .closed ∨ g ≤ 1 → rest = []) ∧
    InPlace S (fun l => keeps l ∧ ReadyInTime S.code S.k env.maxInFlight l os ∧
      Ready S.code S.k l os) j out
  exists_heard : ∀ l, j ≤ l → l < cur → ∃ o ∈ os, l ≤ o.block
  behind : c.point ≠ .drain → ∀ o ∈ os, o.block < cur + env.maxInFlight
  complete : c.point = .closed → g ≤ 1 → ∀ o ∈ os, o.block < cur

/-- Between events the output is less than `max_in_flight` blocks behind. -/
lemma Contained.behind (hM : 1 ≤ env.maxInFlight) (hwf : w.Wf) (hsettled : Settled env w)
    (h : Contained env S keeps j os w) (hint : Interrupted j n g os) {o : Origin} (ho : o ∈ os) :
    o.block < j + w.stdout.length + env.maxInFlight := by
  cases hstarted : w.started with
  | false =>
    rw [h.heard.content.idle hstarted] at ho
    cases ho
  | true =>
    have hahead := hsettled.highestSeen_lt hwf hstarted hM
    have hjo := hint.le_block o ho
    have hseen := (h.heard.reached hstarted (o.block - j)).mpr ⟨o, ho, by omega⟩
    have hfirst := hwf.first_le
    have hlen := h.length_eq
    omega

lemma KeepingRun.before_end {now : Instant} {frames : List WireFrame} {acts : List Action}
    {c : Conf D} (h : KeepingRun env keeps j now frames acts c) (hclosed : c.point = .closed) :
    ∃ acts' m, KeepingRun env keeps j now frames acts' m ∧ m.point = .recv ∧
      c.window = flushRemaining m.window := by
  have hopen : (init now : Conf D).point ≠ .closed := by simp [init]
  obtain ⟨acts', m, rfl, hm, hrecv, hw⟩ := exists_before_end hopen h.run_eq hclosed
  have hframes := h.frames_eq
  have hnone : frameBytes .disconnect = none := rfl
  rw [List.filterMap_append] at hframes
  exact ⟨acts', m, ⟨by simpa [hnone] using hframes, h.keeps.of_append, hm⟩, hrecv, hw⟩

/-- **The damage is contained**, in every run. -/
theorem KeepingRun.salvaged (hS : S.Wf) (hdec : env.dec.Laws S.code S.oti S.k)
    (hmono : S.code.Monotone S.k) (hM : 1 ≤ env.maxInFlight) (hg : env.maxInFlight + g ≤ 128)
    (hzero : S.k = defaultBlockSymbols ∨ g ≤ 1) (hn : n < 2 ^ 63) {now : Instant}
    {frames : List WireFrame} {acts : List Action} {c : Conf D} (hparse : Parses env S frames)
    (hint : Interrupted j n g (origins frames)) (h : KeepingRun env keeps j now frames acts c) :
    ∃ cur, Salvaged env S keeps g j cur (origins frames) c := by
  by_cases hclosed : c.point = .closed
  · obtain ⟨acts', m, hm, hrecv, hw⟩ := h.before_end hclosed
    have hopen : m.point ≠ .closed := by rw [hrecv]; decide
    have hcontained := hm.contained hS hdec hmono hM hg hzero hn hparse hint hopen
    have hreach : Reachable env m := ⟨now, acts', hm.run_eq⟩
    have hwf := hreach.wf hopen
    by_cases houtage : g ≤ 1
    · obtain ⟨hinPlace, hbefore, hheard⟩ := hcontained.flush hS hmono hdec.not_sufficient_empty hwf
        hint houtage
      rw [← hw] at hinPlace hbefore hheard
      exact ⟨_, ⟨c.window.stdout, [], by simp, rfl, fun _ => rfl, hinPlace⟩, hheard,
        fun _ o ho => Nat.lt_add_right _ (hbefore o ho), fun _ _ => hbefore⟩
    · have hstdout := flushRemaining_stdout m.window
      rw [← hw] at hstdout
      have hneither : ¬ (c.point ≠ .closed ∨ g ≤ 1) :=
        not_or.mpr ⟨not_not.mpr hclosed, houtage⟩
      exact ⟨_, ⟨m.window.stdout, _, hstdout, rfl, fun hlast => absurd hlast hneither,
        hcontained.inPlace.mono fun l hl => ⟨hl.1, hl.2.1⟩⟩,
        fun l hjl hl => hcontained.exists_heard hwf hjl hl,
        fun _ o ho => hcontained.behind hM hwf (hreach.settled hrecv) hint ho,
        fun _ hle => absurd hle houtage⟩
  · have hcontained := h.contained hS hdec hmono hM hg hzero hn hparse hint hclosed
    have hreach : Reachable env c := ⟨now, acts, h.run_eq⟩
    have hwf := hreach.wf hclosed
    refine ⟨j + c.window.stdout.length, ⟨c.window.stdout, [], by simp, rfl, fun _ => rfl,
      hcontained.inPlace.mono fun l hl => ⟨hl.1, hl.2.1⟩⟩,
      fun l hjl hl => hcontained.exists_heard hwf hjl hl, fun hdrain o ho => ?_,
      fun hend => absurd hend hclosed⟩
    have hrecv : c.point = .recv := by
      cases hpoint : c.point with
      | recv => rfl
      | drain => exact absurd hpoint hdrain
      | closed => exact absurd hpoint hclosed
    exact hcontained.behind hM hwf (hreach.settled hrecv) hint ho

section Bytes

variable {cur l i : ℕ} {c : Conf D}

/-- The bytes of the blocks from `j` up to `cur` are the first ones. -/
lemma Salvaged.exists_bytes (h : Salvaged env S keeps g j cur os c) : ∃ out rest,
    c.window.bytes = out.flatMap Emission.data ++ rest ∧ j + out.length = cur ∧
      (c.point ≠ .closed ∨ g ≤ 1 → rest = []) ∧
      InPlace S (fun l => keeps l ∧ ReadyInTime S.code S.k env.maxInFlight l os ∧
        Ready S.code S.k l os) j out := by
  obtain ⟨out, rest, hstdout, hlen, hrest, hinPlace⟩ := h.stdout_eq
  refine ⟨out, rest.flatMap Emission.data, ?_, hlen, fun hlast => ?_, hinPlace⟩
  · rw [Window.bytes, hstdout, List.flatMap_append]
  · rw [hrest hlast, List.flatMap_nil]

theorem Salvaged.length_bytes (h : Salvaged env S keeps g j cur os c)
    (hlast : c.point ≠ .closed ∨ g ≤ 1) : c.window.bytes.length = (cur - j) * S.blockSize := by
  obtain ⟨out, rest, hbytes, hlen, hrest, hinPlace⟩ := h.exists_bytes
  rw [hbytes, hrest hlast, List.append_nil, hinPlace.length_bytes, ← hlen, Nat.add_sub_cancel_left]

/-- A block ends before the blocks after it. -/
lemma place_le {j l m b : ℕ} (hjl : j ≤ l) (hl : l < j + m) : (l - j) * b + b ≤ m * b := by
  have hle : l - j + 1 ≤ m := by omega
  calc (l - j) * b + b = (l - j + 1) * b := (Nat.succ_mul _ _).symm
    _ ≤ m * b := Nat.mul_le_mul_right b hle

theorem Salvaged.slice_intact (h : Salvaged env S keeps g j cur os c) (hjl : j ≤ l) (hl : l < cur)
    (hkeeps : keeps l) (hintime : ReadyInTime S.code S.k env.maxInFlight l os)
    (hready : Ready S.code S.k l os) :
    slice c.window.bytes ((l - j) * S.blockSize) S.blockSize = S.block l := by
  obtain ⟨out, rest, hbytes, rfl, -, hinPlace⟩ := h.exists_bytes
  have hfit : (l - j) * S.blockSize + S.blockSize ≤ (out.flatMap Emission.data).length := by
    rw [hinPlace.length_bytes]
    exact place_le hjl hl
  rw [hbytes, slice_append_left hfit]
  exact hinPlace.slice_intact hjl hl ⟨hkeeps, hintime, hready⟩

theorem Salvaged.slice_symbol (h : Salvaged env S keeps g j cur os c) (hjl : j ≤ l) (hl : l < cur)
    (hi : i < S.k) :
    slice c.window.bytes ((l - j) * S.blockSize + i * symbolSize) symbolSize =
        S.sourceSymbol l i ∨
      slice c.window.bytes ((l - j) * S.blockSize + i * symbolSize) symbolSize =
        List.replicate symbolSize 0 := by
  obtain ⟨out, rest, hbytes, rfl, -, hinPlace⟩ := h.exists_bytes
  have hfit : (l - j) * S.blockSize + i * symbolSize + symbolSize ≤
      (out.flatMap Emission.data).length := by
    have hblock := @place_le j l out.length S.blockSize hjl hl
    have hsymbol : i * symbolSize + symbolSize ≤ S.blockSize := Reference.fit_symbol hi
    rw [hinPlace.length_bytes]
    omega
  rw [hbytes, slice_append_left hfit]
  exact hinPlace.slice_symbol hjl hl hi

end Bytes

end RaptorqTs
