import RaptorqTs.Dec.Block
import RaptorqTs.Lib.Machine

/-!
# Best effort

What a viewer sees of a block that is never completed: of each source symbol what the first
packet carried that had its ESI, and zeros where there was none.
-/

namespace RaptorqTs

/-- The data of the first packet with the ESI `i`. -/
def firstSymbol (packets : List EncodingPacket) (i : ℕ) : Option Bytes :=
  (packets.find? fun p => p.payloadId.encodingSymbolId = i).map EncodingPacket.data

lemma firstSymbol_concat (packets : List EncodingPacket) (p : EncodingPacket) (i : ℕ) :
    firstSymbol (packets ++ [p]) i = (firstSymbol packets i).or
      (if p.payloadId.encodingSymbolId = i then some p.data else none) := by
  unfold firstSymbol
  rw [List.find?_append, List.find?_singleton]
  cases List.find? (fun p => decide (p.payloadId.encodingSymbolId = i)) packets with
  | some q => rfl
  | none =>
    by_cases hi : p.payloadId.encodingSymbolId = i
    · simp [hi]
    · simp [hi]

/-- The packets with other ESIs are of no account. -/
lemma firstSymbol_filter {k i : ℕ} (hi : i < k) (packets : List EncodingPacket) :
    firstSymbol (packets.filter fun p => p.payloadId.encodingSymbolId < k) i =
      firstSymbol packets i := by
  unfold firstSymbol
  rw [List.find?_filter]
  congr 2
  funext p
  by_cases hp : p.payloadId.encodingSymbolId = i
  · simp [hp, hi]
  · simp [hp]

namespace BlockState

variable {D : Type} {dec : SourceBlockDecoder D} {oti : ObjectTransmissionInformation}
  {sbn : UInt8} {now : Instant} {packets : List EncodingPacket} {b b' : BlockState D}

/-! ## What a block holds -/

/-- A block into which the packets were ingested: while it is open, it holds the first symbol of
each ESI below `k`. -/
structure Ingested (oti : ObjectTransmissionInformation) (packets : List EncodingPacket)
    (b : BlockState D) : Prop where
  shape : b.Shape
  blockSize_eq : b.blockSize = oti.transferLength
  stored : b.completed = none → ∀ i < b.k, b.sourceSymbols.lookup i = firstSymbol packets i

lemma Ingested.new (h : otiIsSane oti = true) : Ingested oti [] (new dec sbn oti now) where
  shape := shape_new h sbn now
  blockSize_eq := rfl
  stored _ _ _ := rfl

lemma Ingested.ingest (h : Ingested oti packets b) {p : EncodingPacket}
    (hp : p.data.length = symbolSize) (hi : b.ingest dec p = some b') :
    Ingested oti (packets ++ [p]) b' where
  shape := h.shape.ingest hp hi
  blockSize_eq := (ingest_blockSize hi).trans h.blockSize_eq
  stored := by
    intro hopen i hik
    rcases ingest_cases hi with ⟨hc, rfl⟩ | ⟨hc, r, d, -, rfl⟩
    · rw [hopen] at hc
      cases hc
    · have hik' : i < b.k := by simpa using hik
      show (b.note p).sourceSymbols.lookup i = _
      rw [lookup_note, h.stored hc i hik', firstSymbol_concat]
      simp [hik']

/-- The invariant over a whole run of `ingest`. -/
theorem ingested_of_run (hoti : otiIsSane oti = true)
    (hdata : ∀ p ∈ packets, p.data.length = symbolSize)
    (hrun : Machine.run (BlockState.ingest dec) (BlockState.new dec sbn oti now) packets = some b) :
    Ingested oti packets b := by
  refine Machine.run_induction_forall (P := Ingested oti) (Ingested.new hoti) ?_ hdata hrun
  intro packets b p b' _ _ ih hp hi
  exact ih.ingest hp hi

/-! ## What is written for it -/

/-- The symbols below `k` in order, with zeros for those that are missing. -/
def patch (k : ℕ) (symbol : ℕ → Option Bytes) : Bytes :=
  (List.range k).flatMap fun i => (symbol i).getD (List.replicate symbolSize 0)

/-- A block in the right shape is patched from its lookups. -/
lemma Shape.bestEffort_eq (h : b.Shape) :
    b.bestEffort = patch b.k b.sourceSymbols.lookup := by
  have hlen : b.bestEffort.length = b.k * symbolSize := by
    rw [h.length_bestEffort, h.blockSize_eq]
  rw [← Reference.flatMap_slice hlen]
  refine List.flatMap_congr fun i hi => ?_
  exact h.slice_bestEffort (List.mem_range.mp hi)

lemma Ingested.bestEffort_eq (h : Ingested oti packets b) (hopen : b.completed = none) :
    b.bestEffort = patch b.k (firstSymbol packets) := by
  rw [h.shape.bestEffort_eq]
  refine List.flatMap_congr fun i hi => ?_
  show (b.sourceSymbols.lookup i).getD _ = _
  rw [h.stored hopen i (List.mem_range.mp hi)]

/-- Every stored symbol has its place in the block. -/
lemma Shape.entry_fits (h : b.Shape) {e : Sigma fun _ : ℕ => Bytes}
    (he : e ∈ b.sourceSymbols.entries) : e.1 * symbolSize + symbolSize ≤ b.blockSize := by
  have hlt := h.symbol_lt (AList.mem_lookup_iff.mpr he)
  rw [← h.blockSize_eq]
  exact Reference.fit_symbol hlt

/-- The symbols may be written in any order. -/
lemma Shape.foldl_perm (h : b.Shape) {entries : List (Sigma fun _ : ℕ => Bytes)}
    (hperm : entries.Perm b.sourceSymbols.entries) :
    entries.foldl (writeSymbol b.blockSize) (List.replicate b.blockSize 0) = b.bestEffort := by
  have hkeys : entries.NodupKeys := (List.perm_nodupKeys hperm).mpr b.sourceSymbols.nodupKeys
  -- the same block with its map in this order
  let s : AList fun _ : ℕ => Bytes := ⟨entries, hkeys⟩
  have hlookup (i : ℕ) : s.lookup i = b.sourceSymbols.lookup i := AList.perm_lookup hperm
  have hshape : ({ b with sourceSymbols := s } : BlockState D).Shape :=
    ⟨h.blockSize_eq, fun hs => h.symbol_lt ((hlookup _).symm.trans hs),
      fun hs => h.symbol_length ((hlookup _).symm.trans hs)⟩
  rw [h.bestEffort_eq, ← funext hlookup]
  exact hshape.bestEffort_eq

/-- **Best-effort reconstruction.** Whatever packets were ingested into a block that is still
open, what is written for it has the size of a block, and position `i` is the data of the first
packet with the ESI `i`, or zeros if there was none. Every symbol stored is written, in whatever
order the map is run through, and the repair packets are of no account. -/
theorem bestEffort_reconstructs (hoti : otiIsSane oti = true)
    (hdata : ∀ p ∈ packets, p.data.length = symbolSize)
    (hrun : Machine.run (BlockState.ingest dec) (BlockState.new dec sbn oti now) packets = some b)
    (hopen : b.completed = none) :
    (b.blockSize = oti.transferLength ∧ b.k * symbolSize = b.blockSize ∧
      b.bestEffort.length = b.blockSize) ∧
    (∀ i < b.k, slice b.bestEffort (i * symbolSize) symbolSize =
      (firstSymbol packets i).getD (List.replicate symbolSize 0)) ∧
    (∀ e ∈ b.sourceSymbols.entries, e.1 * symbolSize + symbolSize ≤ b.blockSize) ∧
    (∀ entries : List (Sigma fun _ : ℕ => Bytes), entries.Perm b.sourceSymbols.entries →
      entries.foldl (writeSymbol b.blockSize) (List.replicate b.blockSize 0) = b.bestEffort) ∧
    ∀ (packets' : List EncodingPacket) (b' : BlockState D),
      (∀ p ∈ packets', p.data.length = symbolSize) →
      Machine.run (BlockState.ingest dec) (BlockState.new dec sbn oti now) packets' = some b' →
      b'.completed = none →
      (packets'.filter fun p => p.payloadId.encodingSymbolId < b.k) =
        (packets.filter fun p => p.payloadId.encodingSymbolId < b.k) →
      b'.bestEffort = b.bestEffort := by
  have h := ingested_of_run hoti hdata hrun
  refine ⟨⟨h.blockSize_eq, h.shape.blockSize_eq, h.shape.length_bestEffort⟩, ?_,
    fun e he => h.shape.entry_fits he, fun entries hperm => h.shape.foldl_perm hperm, ?_⟩
  · intro i hi
    rw [h.shape.slice_bestEffort hi, h.stored hopen i hi]
  · intro packets' b' hdata' hrun' hopen' hfilter
    have h' := ingested_of_run hoti hdata' hrun'
    have hk : b'.k = b.k := by
      have hsize := h'.shape.blockSize_eq
      rw [h'.blockSize_eq, ← h.blockSize_eq, ← h.shape.blockSize_eq] at hsize
      exact Nat.eq_of_mul_eq_mul_right symbolSize_pos hsize
    rw [h.bestEffort_eq hopen, h'.bestEffort_eq hopen', hk]
    refine List.flatMap_congr fun i hi => ?_
    rw [← firstSymbol_filter (List.mem_range.mp hi) packets', hfilter,
      firstSymbol_filter (List.mem_range.mp hi)]

/-- A repair packet, and the second symbol of a block twice. -/
def lossyPackets : List EncodingPacket :=
  [⟨⟨0, 7⟩, List.replicate symbolSize 1⟩, ⟨⟨0, 1⟩, List.replicate symbolSize 2⟩,
    ⟨⟨0, 1⟩, List.replicate symbolSize 3⟩]

theorem bestEffort_reconstructs_lossy : ∃ b,
    Machine.run (BlockState.ingest Reference.decoder)
      (BlockState.new Reference.decoder 0 (blockOti 334 symbolSize) 0) lossyPackets = some b ∧
      slice b.bestEffort (0 * symbolSize) symbolSize = List.replicate symbolSize 0 ∧
      slice b.bestEffort (1 * symbolSize) symbolSize = List.replicate symbolSize 2 := by
  obtain ⟨b, hrun, hopen, hk⟩ : ∃ b, Machine.run (BlockState.ingest Reference.decoder)
      (BlockState.new Reference.decoder 0 (blockOti 334 symbolSize) 0) lossyPackets = some b ∧
      b.completed = none ∧ b.k = 2 := ⟨_, rfl, rfl, rfl⟩
  have hdata : ∀ p ∈ lossyPackets, p.data.length = symbolSize := by
    intro p hp
    simp only [lossyPackets, List.mem_cons, List.not_mem_nil, or_false] at hp
    rcases hp with rfl | rfl | rfl <;> exact List.length_replicate
  have hslice := (bestEffort_reconstructs (by decide) hdata hrun hopen).2.1
  exact ⟨b, hrun, hslice 0 (by omega), hslice 1 (by omega)⟩

end BlockState

end RaptorqTs
