import RaptorqTs.Dec.Oti
import Mathlib.Data.List.AList

/-!
# The state of one block

`BlockState` collects the packets of one block: the FEC decoder, and the source symbols
seen so far, from which a block that never completes is patched together. The hash map of
source symbols is an association list in arbitrary order with distinct keys.
-/

namespace RaptorqTs

structure BlockState (D : Type) where
  k : ℕ
  blockSize : ℕ
  decoder : D
  sourceSymbols : AList fun _ : ℕ => Bytes
  repairCount : ℕ
  completed : Option Bytes
  firstSeen : Instant

namespace BlockState

variable {D : Type} (dec : SourceBlockDecoder D)

/-- `BlockState::new`, at the clock reading `now`. -/
def new (sbnU8 : UInt8) (oti : ObjectTransmissionInformation) (now : Instant) : BlockState D where
  k := (oti.transferLength / oti.symbolSize) % 2 ^ 32
  blockSize := oti.transferLength
  decoder := dec.new sbnU8 oti oti.transferLength
  sourceSymbols := ∅
  repairCount := 0
  completed := none
  firstSeen := now

/-- The bookkeeping of `ingest`: a source symbol is kept if it is the first one with its
ESI, a repair symbol is only counted. -/
def note (b : BlockState D) (packet : EncodingPacket) : BlockState D :=
  let esi := packet.payloadId.encodingSymbolId
  if esi < b.k then
    { b with sourceSymbols :=
        if esi ∈ b.sourceSymbols then b.sourceSymbols
        else b.sourceSymbols.insert esi packet.data }
  else { b with repairCount := b.repairCount + 1 }

/-- `BlockState::ingest`; `none` when the FEC decoder panics. -/
def ingest (b : BlockState D) (packet : EncodingPacket) : Option (BlockState D) :=
  if b.completed.isSome then some b
  else
    let b := b.note packet
    match dec.decode b.decoder packet with
    | some (completed, decoder) => some { b with completed := completed, decoder := decoder }
    | none => none

/-- Copy one stored symbol to its place, if it fits. -/
def writeSymbol (blockSize : ℕ) (out : Bytes) (entry : Sigma fun _ : ℕ => Bytes) : Bytes :=
  let off := entry.1 * symbolSize
  if off + symbolSize ≤ blockSize then copyAt out off entry.2 else out

/-- `BlockState::best_effort`: the stored source symbols over zeros. -/
def bestEffort (b : BlockState D) : Bytes :=
  b.sourceSymbols.entries.foldl (writeSymbol b.blockSize) (List.replicate b.blockSize 0)

/-- What is written for a block when it leaves the pool. -/
def output (b : BlockState D) : Bytes :=
  match b.completed with
  | some data => data
  | none => b.bestEffort

/-! ## The bookkeeping -/

@[simp] lemma note_k (b : BlockState D) (p : EncodingPacket) : (b.note p).k = b.k := by
  simp only [note]; split <;> rfl

@[simp] lemma note_blockSize (b : BlockState D) (p : EncodingPacket) :
    (b.note p).blockSize = b.blockSize := by
  simp only [note]; split <;> rfl

@[simp] lemma note_decoder (b : BlockState D) (p : EncodingPacket) :
    (b.note p).decoder = b.decoder := by
  simp only [note]; split <;> rfl

@[simp] lemma note_firstSeen (b : BlockState D) (p : EncodingPacket) :
    (b.note p).firstSeen = b.firstSeen := by
  simp only [note]; split <;> rfl

/-- The first symbol with an ESI below `k` wins. -/
lemma lookup_note (b : BlockState D) (p : EncodingPacket) (i : ℕ) :
    (b.note p).sourceSymbols.lookup i =
      (b.sourceSymbols.lookup i).or
        (if p.payloadId.encodingSymbolId = i ∧ i < b.k then some p.data else none) := by
  unfold note
  -- a repair symbol is only counted
  by_cases hlt : p.payloadId.encodingSymbolId < b.k
  · simp only [hlt, if_true]
    by_cases hmem : p.payloadId.encodingSymbolId ∈ b.sourceSymbols
    · rw [if_pos hmem]
      by_cases hi : p.payloadId.encodingSymbolId = i
      · subst hi
        obtain ⟨s, hs⟩ := Option.isSome_iff_exists.mp (AList.lookup_isSome.mpr hmem)
        simp [hs]
      · simp [hi]
    · rw [if_neg hmem]
      by_cases hi : p.payloadId.encodingSymbolId = i
      · subst hi
        rw [AList.lookup_insert, AList.lookup_eq_none.mpr hmem]
        simp [hlt]
      · rw [AList.lookup_insert_ne (Ne.symm hi)]
        simp [hi]
  · rw [if_neg hlt]
    have hcond : ¬ (p.payloadId.encodingSymbolId = i ∧ i < b.k) := by
      rintro ⟨rfl, h⟩
      exact hlt h
    rw [if_neg hcond, Option.or_none]

/-! ## `ingest` -/

variable {dec} {b b' : BlockState D} {p : EncodingPacket}

/-- Everything `ingest` can do. -/
lemma ingest_cases (h : b.ingest dec p = some b') :
    (b.completed.isSome ∧ b' = b) ∨
      (b.completed = none ∧ ∃ r d, dec.decode b.decoder p = some (r, d) ∧
        b' = { b.note p with completed := r, decoder := d }) := by
  unfold ingest at h
  by_cases hc : b.completed.isSome
  · rw [if_pos hc, Option.some.injEq] at h
    exact Or.inl ⟨hc, h.symm⟩
  · rw [if_neg hc] at h
    have hnone : b.completed = none := by simpa using hc
    right
    simp only [note_decoder] at h
    split at h
    · rename_i r d hdecode
      rw [Option.some.injEq] at h
      exact ⟨hnone, r, d, hdecode, h.symm⟩
    · cases h

/-- A packet is ingested unless the FEC decoder panics on it. -/
lemma exists_ingest (h : b.completed = none → ∃ r, dec.decode b.decoder p = some r) :
    ∃ b', b.ingest dec p = some b' := by
  unfold ingest
  by_cases hc : b.completed.isSome
  · exact ⟨b, if_pos hc⟩
  · obtain ⟨r, hr⟩ := h (by simpa using hc)
    simp only [if_neg hc, note_decoder, hr]
    exact ⟨_, rfl⟩

lemma ingest_blockSize (h : b.ingest dec p = some b') : b'.blockSize = b.blockSize := by
  rcases ingest_cases h with ⟨-, rfl⟩ | ⟨-, r, d, -, rfl⟩
  · rfl
  · exact note_blockSize b p

lemma ingest_k (h : b.ingest dec p = some b') : b'.k = b.k := by
  rcases ingest_cases h with ⟨-, rfl⟩ | ⟨-, r, d, -, rfl⟩
  · rfl
  · exact note_k b p

/-- A completed block stays as it is. -/
lemma ingest_of_completed {data : Bytes} (hc : b.completed = some data)
    (h : b.ingest dec p = some b') : b' = b := by
  rcases ingest_cases h with ⟨-, rfl⟩ | ⟨hnone, -⟩
  · rfl
  · rw [hc] at hnone
    cases hnone

/-! ## `best_effort` -/

/-- Every stored symbol is a wire symbol with an ESI below `k`, and `k` symbols fill the
block. -/
structure Shape (b : BlockState D) : Prop where
  blockSize_eq : b.k * symbolSize = b.blockSize
  symbol_lt : ∀ {i s}, b.sourceSymbols.lookup i = some s → i < b.k
  symbol_length : ∀ {i s}, b.sourceSymbols.lookup i = some s → s.length = symbolSize

lemma length_writeSymbol {blockSize : ℕ} {out : Bytes} {e : Sigma fun _ : ℕ => Bytes}
    (hout : out.length = blockSize) (he : e.2.length = symbolSize) :
    (writeSymbol blockSize out e).length = blockSize := by
  unfold writeSymbol
  by_cases hfit : e.1 * symbolSize + symbolSize ≤ blockSize
  · simp only [if_pos hfit]
    rw [length_copyAt (by omega), hout]
  · simp only [if_neg hfit, hout]

lemma length_foldl_writeSymbol {blockSize : ℕ} {l : List (Sigma fun _ : ℕ => Bytes)}
    {out : Bytes} (hout : out.length = blockSize) (hl : ∀ e ∈ l, e.2.length = symbolSize) :
    (l.foldl (writeSymbol blockSize) out).length = blockSize := by
  induction l generalizing out with
  | nil => exact hout
  | cons e l ih =>
    exact ih (length_writeSymbol hout (hl e (List.mem_cons_self ..)))
      fun e' he' => hl e' (List.mem_cons_of_mem _ he')

/-- Writing a symbol at position `j` leaves the other positions alone. -/
lemma slice_writeSymbol_ne {blockSize : ℕ} {out : Bytes} {e : Sigma fun _ : ℕ => Bytes} {i : ℕ}
    (hout : out.length = blockSize) (he : e.2.length = symbolSize) (hne : e.1 ≠ i) :
    slice (writeSymbol blockSize out e) (i * symbolSize) symbolSize
      = slice out (i * symbolSize) symbolSize := by
  unfold writeSymbol
  by_cases hfit : e.1 * symbolSize + symbolSize ≤ blockSize
  · simp only [if_pos hfit]
    refine slice_copyAt_disjoint (by omega) ?_
    rw [he, ← Nat.succ_mul, ← Nat.succ_mul]
    rcases Nat.lt_or_gt_of_ne hne with hlt | hgt
    · exact Or.inr (Nat.mul_le_mul_right _ hlt)
    · exact Or.inl (Nat.mul_le_mul_right _ hgt)
  · simp only [if_neg hfit]

/-- After all symbols are written, position `i` holds the symbol stored for it, or what
was there before. The induction is on the list of entries; distinct keys make the order
irrelevant. -/
lemma slice_foldl_writeSymbol {blockSize i : ℕ} {l : List (Sigma fun _ : ℕ => Bytes)}
    {out : Bytes} (hout : out.length = blockSize) (hl : ∀ e ∈ l, e.2.length = symbolSize)
    (hkeys : l.NodupKeys) (hi : i * symbolSize + symbolSize ≤ blockSize) :
    slice (l.foldl (writeSymbol blockSize) out) (i * symbolSize) symbolSize
      = (l.dlookup i).getD (slice out (i * symbolSize) symbolSize) := by
  induction l generalizing out with
  | nil => simp
  | cons e l ih =>
    obtain ⟨j, s⟩ := e
    rw [List.nodupKeys_cons] at hkeys
    have hs : s.length = symbolSize := hl ⟨j, s⟩ (List.mem_cons_self ..)
    rw [List.foldl_cons, ih (length_writeSymbol hout hs)
      (fun e' he' => hl e' (List.mem_cons_of_mem _ he')) hkeys.2]
    by_cases hji : j = i
    · subst hji
      rw [List.dlookup_cons_eq, List.dlookup_eq_none.mpr hkeys.1]
      simp only [Option.getD_none, Option.getD_some, writeSymbol, if_pos hi]
      rw [← hs]
      exact slice_copyAt_self (by rw [hs]; omega)
    · rw [List.dlookup_cons_ne _ _ (Ne.symm hji), slice_writeSymbol_ne hout hs hji]

lemma Shape.entry_length (h : b.Shape) : ∀ e ∈ b.sourceSymbols.entries,
    e.2.length = symbolSize := by
  rintro ⟨j, s⟩ he
  exact h.symbol_length (AList.mem_lookup_iff.mpr he)

lemma Shape.length_bestEffort (h : b.Shape) : b.bestEffort.length = b.blockSize :=
  length_foldl_writeSymbol (List.length_replicate ..) h.entry_length

/-- **Best effort.** Position `i` of a patched block holds the stored source symbol `i`, or
zeros. -/
theorem Shape.slice_bestEffort (h : b.Shape) {i : ℕ} (hi : i < b.k) :
    slice b.bestEffort (i * symbolSize) symbolSize =
      (b.sourceSymbols.lookup i).getD (List.replicate symbolSize 0) := by
  have hfit : i * symbolSize + symbolSize ≤ b.blockSize := by
    rw [← h.blockSize_eq, ← Nat.succ_mul]
    exact Nat.mul_le_mul_right _ hi
  have hzero : slice (List.replicate b.blockSize (0 : UInt8)) (i * symbolSize) symbolSize
      = List.replicate symbolSize 0 := slice_replicate hfit
  rw [bestEffort, slice_foldl_writeSymbol (List.length_replicate ..) h.entry_length
    b.sourceSymbols.nodupKeys hfit, hzero]
  rfl

/-! ## The shape is kept -/

lemma shape_new {oti : ObjectTransmissionInformation} (h : otiIsSane oti = true) (sbn : UInt8)
    (now : Instant) : (new dec sbn oti now).Shape := by
  obtain ⟨hmul, hle⟩ := otiIsSane_blockSymbols h
  have hmod : oti.transferLength / oti.symbolSize % 2 ^ 32
      = oti.transferLength / oti.symbolSize :=
    Nat.mod_eq_of_lt (lt_of_le_of_lt hle (by decide))
  refine ⟨?_, fun h => ?_, fun h => ?_⟩
  · simp only [new, hmod, hmul]
  · simp [new, AList.lookup_empty] at h
  · simp [new, AList.lookup_empty] at h

lemma Shape.ingest (h : b.Shape) (hp : p.data.length = symbolSize)
    (hi : b.ingest dec p = some b') : b'.Shape := by
  rcases ingest_cases hi with ⟨-, rfl⟩ | ⟨-, r, d, -, rfl⟩
  · exact h
  · -- a symbol stored afterwards was stored before or is the packet's
    have hstored : ∀ {i s}, (b.note p).sourceSymbols.lookup i = some s →
        i < b.k ∧ s.length = symbolSize := by
      intro i s hs
      rw [lookup_note, Option.or_eq_some_iff] at hs
      rcases hs with hs | ⟨-, hs⟩
      · exact ⟨h.symbol_lt hs, h.symbol_length hs⟩
      · simp only [Option.ite_none_right_eq_some, Option.some.injEq] at hs
        obtain ⟨⟨-, hik⟩, rfl⟩ := hs
        exact ⟨hik, hp⟩
    refine ⟨?_, fun hs => ?_, fun hs => (hstored hs).2⟩
    · simpa using h.blockSize_eq
    · simpa using (hstored hs).1

end BlockState

end RaptorqTs
