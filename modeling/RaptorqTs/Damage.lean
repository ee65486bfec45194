import RaptorqTs.Dec.Damage
import RaptorqTs.System

/-!
# Beyond the margin

A link that loses more than the repair can make up for, or is down for a while, damages the blocks
it takes the packets from, and no others.
-/

namespace RaptorqTs

open Enc

/-- The link delivers nothing before some packet of block `j`, and then no packet of an earlier
block; when it is down, it loses all packets of less than `g` blocks in a row. -/
structure Interrupts (j g : ℕ) (frames : List WireFrame) : Prop where
  head : ∀ o ∈ (origins frames).head?, o.block = j
  le_block : ∀ o ∈ origins frames, j ≤ o.block
  resumes : ∀ pre o post, origins frames = pre ++ o :: post → pre ≠ [] →
    ∃ o' ∈ pre, o.block ≤ o'.block + g

/-- A block is ready in time when the packets of it that are heard in time, of either kind,
suffice. -/
lemma ready_of_heardInTime {code : FountainCode} {k maxInFlight l : ℕ} {os : List Origin}
    (hsuff : code.Sufficient k (esisOf l (heardInTime maxInFlight l os)).toFinset) :
    ReadyInTime code k maxInFlight l os ∧ Ready code k l os :=
  ⟨fun _ _ _ hcut hl => ⟨_, heardInTime_initial hcut hl, hsuff⟩,
    ⟨_, List.takeWhile_prefix _, hsuff⟩⟩

section Damage

variable {E R D : Type} {setup : Setup E R} {env : Env D} {code : FountainCode} {stdin : Bytes}
  {rng : R} {p : Pipeline E R} {k m δ j g l : ℕ} {frames : List WireFrame} {keeps : ℕ → Prop}

namespace Relayed

lemma interrupted (h : Relayed setup stdin rng p frames) (hmatched : Matched setup env code k)
    (hlink : Interrupts j g frames) :
    Interrupted j (numBlocks (k * symbolSize) stdin) g (origins frames) := by
  have hwire := h.inBandFirst hmatched
  have hsub : (origins frames).Sublist (origins p.writer.wire) := h.sublist.filterMap _
  exact ⟨hlink.head, hlink.le_block, fun o ho => hwire.block_lt o (hsub.subset ho),
    fun o ho => hwire.esi_lt o (hsub.subset ho), h.lag hmatched, hlink.resumes⟩

/-- A block that has lost no more packets than the margin is ready before a later one begins. -/
lemma ready (h : Relayed setup stdin rng p frames) (hmatched : Matched setup env code k)
    (hmono : code.Monotone k) (hcode : code.Overhead k (k + setup.args.baselineRepair) δ)
    (hm : m + δ ≤ setup.args.baselineRepair)
    (hl : l < numBlocks (k * symbolSize) stdin)
    (hlost : (inBandEsis setup.args k l (origins p.writer.wire)).length ≤
      (inBandEsis setup.args k l (origins frames)).length + m) :
    ReadyInTime code k env.maxInFlight l (origins frames) ∧ Ready code k l (origins frames) := by
  have hwire := h.inBandFirst hmatched
  have hsub : (origins frames).Sublist (origins p.writer.wire) := h.sublist.filterMap _
  have hpos := hmatched.inFlight_pos
  refine ⟨fun pre o post hcut hle => ?_, ?_⟩
  · have hlt : l < o.block := by omega
    exact (ready_of_margin hwire hsub hmono hcode hm hl hlost
      (inBandEsis_of_cut (hwire.order.sublist hsub) hcut hlt)).2
  · exact (ready_of_margin hwire hsub hmono hcode hm hl hlost rfl).2

/-- Block `l` of the stream is the part of the padded input that has its place. -/
lemma block_eq_slice (h : Relayed setup stdin rng p frames) (hmatched : Matched setup env code k)
    (hl : l < numBlocks (k * symbolSize) stdin) :
    (streamOf code k p.reader.sent).block l =
      slice (padded (k * symbolSize) stdin) (l * (k * symbolSize)) (k * symbolSize) := by
  have hlength : ∀ b ∈ (List.range (numBlocks (k * symbolSize) stdin)).map
      (streamOf code k p.reader.sent).block, b.length = k * symbolSize := by
    intro b hb
    obtain ⟨i, -, rfl⟩ := List.mem_map.mp hb
    exact (h.wf hmatched).block_length i
  rw [← h.blocks hmatched, slice_flatten hlength (by simpa using hl), List.getElem_map,
    List.getElem_range]

end Relayed

/-- **The damage is contained.** The link may lose any packets, and blocks may time out. What the
decoder has written begins with the blocks from `j` up to `cur`, each in its place: every symbol is
that of the encoder's input or zeros, and a block is the encoder's when it has not timed out and the
packets of it that are heard before it is forced out, in-band or extra, suffice, or the link has
lost no more of those in-band than the margin, whatever has become of the others. While the input
lasts, nothing has been written behind these blocks, which are less than `max_in_flight` behind what
has been heard. If the link has not lost whole blocks, then nothing is at the end of the input
either, and the blocks are all that have been heard. Blocks that are lost as a whole must have the
default size. -/
theorem damage_contained (hmatched : Matched setup env code k) (hmono : code.Monotone k)
    (hg : env.maxInFlight + g ≤ 128) (hsize : k = defaultBlockSymbols ∨ g ≤ 1)
    (hn : numBlocks (k * symbolSize) stdin < 2 ^ 63) (h : Relayed setup stdin rng p frames)
    (hlink : Interrupts j g frames) (hcode : code.Overhead k (k + setup.args.baselineRepair) δ)
    (hm : m + δ ≤ setup.args.baselineRepair) {now : Instant} {acts : List Action} {c : Conf D}
    (hrun : KeepingRun env keeps j now frames acts c) :
    ∃ cur, (c.point ≠ .closed ∨ g ≤ 1 →
        c.window.bytes.length = (cur - j) * (k * symbolSize)) ∧
      (c.point ≠ .drain → ∀ o ∈ origins frames, o.block < cur + env.maxInFlight) ∧
      (c.point = .closed → g ≤ 1 → ∀ o ∈ origins frames, o.block < cur) ∧
      ∀ l, j ≤ l → l < cur →
        (∀ i < k, slice c.window.bytes ((l - j) * (k * symbolSize) + i * symbolSize) symbolSize =
            slice (padded (k * symbolSize) stdin) (l * (k * symbolSize) + i * symbolSize)
              symbolSize ∨
          slice c.window.bytes ((l - j) * (k * symbolSize) + i * symbolSize) symbolSize =
            List.replicate symbolSize 0) ∧
        (keeps l →
          code.Sufficient k (esisOf l (heardInTime env.maxInFlight l (origins frames))).toFinset ∨
            (inBandEsis setup.args k l (origins p.writer.wire)).length ≤
              (inBandEsis setup.args k l (origins frames)).length + m →
          slice c.window.bytes ((l - j) * (k * symbolSize)) (k * symbolSize) =
            slice (padded (k * symbolSize) stdin) (l * (k * symbolSize)) (k * symbolSize)) := by
  have hint := h.interrupted hmatched hlink
  obtain ⟨cur, hsalvaged⟩ := hrun.salvaged (h.wf hmatched) (hmatched.decoder_laws p.reader.sent)
    hmono hmatched.inFlight_pos hg hsize hn (h.parses hmatched) hint
  refine ⟨cur, fun hlast => hsalvaged.length_bytes hlast, hsalvaged.behind, hsalvaged.complete,
    fun l hjl hl => ?_⟩
  obtain ⟨o, ho, hle⟩ := hsalvaged.exists_heard l hjl hl
  have hlt := hle.trans_lt (hint.block_lt o ho)
  have hblock := h.block_eq_slice hmatched hlt
  refine ⟨fun i hi => ?_, fun hkeeps harrived => ?_⟩
  · have hsymbol : slice (padded (k * symbolSize) stdin) (l * (k * symbolSize) + i * symbolSize)
        symbolSize = (streamOf code k p.reader.sent).sourceSymbol l i := by
      rw [← slice_slice (Reference.fit_symbol hi), ← hblock]
      rfl
    rw [hsymbol]
    exact hsalvaged.slice_symbol hjl hl hi
  · obtain ⟨hintime, hready⟩ : ReadyInTime code k env.maxInFlight l (origins frames) ∧
        Ready code k l (origins frames) := by
      rcases harrived with hsuff | hlost
      · exact ready_of_heardInTime hsuff
      · exact h.ready hmatched hmono hcode hm hlt hlost
    rw [← hblock]
    exact hsalvaged.slice_intact hjl hl hkeeps hintime hready

end Damage

namespace Reference

/-- Of block 1 only one in-band packet arrives, and of block 0 all. -/
lemma interrupts : Interrupts 0 1 (heard [0, 1, 2, 3, 4, 7, 11, 12, 13, 14]) where
  head := by decide +kernel
  le_block _ _ := Nat.zero_le _
  resumes pre o post hcut hne := by
    have hsteps : (origins (heard [0, 1, 2, 3, 4, 7, 11, 12, 13, 14])).IsChain
        fun o o' => o'.block ≤ o.block + 1 := by
      decide +kernel
    obtain ⟨front, last, rfl⟩ := (List.eq_nil_or_concat' pre).resolve_left hne
    rw [hcut, List.append_assoc, List.isChain_append] at hsteps
    refine ⟨last, by simp, ?_⟩
    exact (List.isChain_cons_cons.mp hsteps.2.1).1

lemma keepingRun {c : Conf Decoder}
    (h : runFrom (env 1) 0 (heardRun [0, 1, 2, 3, 4, 7, 11, 12, 13, 14]
      [1, 1, 1, 2, 0, 1, 2, 1, 2, 0]) = some c) :
    KeepingRun (env 1) (fun _ => True) 0 0 (heard [0, 1, 2, 3, 4, 7, 11, 12, 13, 14])
      (heardRun [0, 1, 2, 3, 4, 7, 11, 12, 13, 14] [1, 1, 1, 2, 0, 1, 2, 1, 2, 0]) c := by
  have hfresh := freshRun_heard (by decide +kernel) h
  exact ⟨hfresh.frames_eq, hfresh.fresh.mono fun _ _ hfresh => hfresh.keeps_all, h⟩

end Reference

/-- Block 1 is damaged, and it is the only one. -/
theorem damage_contained_one_block : ∃ c : Conf Reference.Decoder,
    runFrom (Reference.env 1) 0 (Reference.heardRun [0, 1, 2, 3, 4, 7, 11, 12, 13, 14]
        [1, 1, 1, 2, 0, 1, 2, 1, 2, 0]) = some c ∧
      c.window.bytes ≠ padded (2 * symbolSize) Reference.pairStdin ∧
      ∀ l < 3, l ≠ 1 → slice c.window.bytes (l * (2 * symbolSize)) (2 * symbolSize) =
        slice (padded (2 * symbolSize) Reference.pairStdin) (l * (2 * symbolSize))
          (2 * symbolSize) := by
  obtain ⟨c, hc, hobs⟩ : ∃ c : Conf Reference.Decoder,
      runFrom (Reference.env 1) 0 (Reference.heardRun [0, 1, 2, 3, 4, 7, 11, 12, 13, 14]
        [1, 1, 1, 2, 0, 1, 2, 1, 2, 0]) = some c ∧
        (c.point, decide (c.window.bytes = padded (2 * symbolSize) Reference.pairStdin)) =
          (.closed, false) := exists_of_run_map (by decide +kernel)
  obtain ⟨hclosed, hdamaged⟩ := Prod.mk.inj hobs
  obtain ⟨p, hp, hwire⟩ := Reference.exists_relayed [0, 1, 2, 3, 4, 7, 11, 12, 13, 14]
    (by decide +kernel)
  have hmatched : Matched Pipeline.pairSetup (Reference.env 1) Reference.code 2 :=
    Reference.matched (by decide) (by decide)
  obtain ⟨cur, -, -, hall, hblocks⟩ := damage_contained hmatched (Reference.code_monotone 2)
    (by decide) (Or.inr (Nat.le_refl 1)) (by rw [Reference.numBlocks_pairStdin]; decide) hp
    Reference.interrupts Reference.overhead (show 1 + 1 ≤ 2 by decide) (Reference.keepingRun hc)
  have hcur : 2 < cur := hall hclosed (Nat.le_refl 1) ⟨2, 0⟩ (by decide +kernel)
  have hmargin : ∀ l < 3, l ≠ 1 →
      (inBandEsis Encoder.oneExtra 2 l (origins Reference.pairWire)).length ≤
        (inBandEsis Encoder.oneExtra 2 l (origins
          (Reference.heard [0, 1, 2, 3, 4, 7, 11, 12, 13, 14]))).length + 1 := by
    decide +kernel
  refine ⟨c, hc, of_decide_eq_false hdamaged, fun l hl hne => ?_⟩
  rw [← hwire] at hmargin
  have hblock := (hblocks l (Nat.zero_le l) (by omega)).2 trivial (Or.inr (hmargin l hl hne))
  simpa using hblock

end RaptorqTs
