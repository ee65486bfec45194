import RaptorqTs.Enc.Sent

/-!
# In-band packets and extra repair symbols

The in-band packets of a block are its source packets and its baseline repair, in the order
of `interleave`. Whatever the idle slots are used for, the in-band packets are sent block by
block, as the encoder without adaptive FEC sends them, and the extra repair symbols stand
between blocks, after those of their own block.
-/

namespace RaptorqTs.Enc

/-! ## All that the iterator yields -/

namespace Interleave

variable {it it' : Interleave} {p : EncodingPacket}

lemma length_rest (h : it.next = some (p, it')) : it.rest.length = it'.rest.length + 1 := by
  unfold rest
  rcases next_cases h with ⟨hs, hr⟩ | ⟨hr, hs⟩
  · rw [hs, hr]
    simp only [List.length_append, List.length_cons]
    omega
  · rw [hr, hs]
    simp only [List.length_append, List.length_cons]
    omega

/-- What `n` calls of the closure yield. -/
def drain (it : Interleave) : ℕ → List EncodingPacket
  | 0 => []
  | n + 1 =>
    match it.next with
    | some (p, it') => p :: it'.drain n
    | none => []

/-- The packets that `from_fn` yields until the closure returns nothing. -/
def toList (it : Interleave) : List EncodingPacket := it.drain it.rest.length

lemma toList_of_next (h : it.next = some (p, it')) : it.toList = p :: it'.toList := by
  unfold toList
  rw [length_rest h, drain, h]

lemma toList_of_none (h : it.next = none) : it.toList = [] := by
  unfold toList
  cases it.rest.length with
  | zero => rfl
  | succ n => rw [drain, h]

/-- The closure returns nothing only when both sequences are used up. -/
lemma rest_of_none (h : it.next = none) : it.rest = [] := by
  have hsource (hn : it.nextSource = none) : it.rest = [] := by
    unfold nextSource at hn
    unfold rest
    cases hs : it.source with
    | cons s source =>
      rw [hs] at hn
      cases hn
    | nil =>
      cases hr : it.repair with
      | cons r repair =>
        rw [hs, hr] at hn
        cases hn
      | nil => rfl
  unfold next at h
  split at h
  · cases hr : it.repair with
    | cons r repair =>
      rw [hr] at h
      cases h
    | nil =>
      rw [hr] at h
      exact hsource h
  · exact hsource h

/-- **Induction over the calls** of the closure. -/
lemma rest_induction {P : Interleave → Prop} (hnone : ∀ it, it.next = none → P it)
    (hnext : ∀ it p it', it.next = some (p, it') → P it' → P it) (it : Interleave) : P it := by
  generalize hn : it.rest.length = n
  induction n generalizing it with
  | zero =>
    apply hnone
    cases h : it.next with
    | none => rfl
    | some r =>
      obtain ⟨p, it'⟩ := r
      have hlen := length_rest h
      omega
  | succ n ih =>
    cases h : it.next with
    | none => exact hnone it h
    | some r =>
      obtain ⟨p, it'⟩ := r
      have hlen := length_rest h
      exact hnext it p it' h (ih it' (by omega))

/-- The packets yielded are the packets given, in another order. -/
lemma toList_perm (it : Interleave) : it.toList.Perm it.rest := by
  induction it using rest_induction with
  | hnone it h => rw [toList_of_none h, rest_of_none h]
  | hnext it p it' h ih =>
    rw [toList_of_next h]
    rcases next_cases h with ⟨hs, hr⟩ | ⟨hr, hs⟩
    · rw [rest, hs, ← hr]
      exact ih.cons p
    · rw [rest, hr, ← hs]
      exact (ih.cons p).trans List.perm_middle.symm

lemma mem_toList {q : EncodingPacket} (it : Interleave) : q ∈ it.toList ↔ q ∈ it.rest :=
  it.toList_perm.mem_iff

/-- The repair packets are yielded in their order. -/
lemma filter_toList {f : EncodingPacket → Bool} (it : Interleave)
    (hsource : ∀ p ∈ it.source, f p = false) (hrepair : ∀ p ∈ it.repair, f p = true) :
    it.toList.filter f = it.repair := by
  induction it using rest_induction with
  | hnone it h =>
    have hrest := rest_of_none h
    unfold rest at hrest
    rw [toList_of_none h, (List.append_eq_nil_iff.mp hrest).2]
    rfl
  | hnext it p it' h ih =>
    rw [toList_of_next h]
    rcases next_cases h with ⟨hs, hr⟩ | ⟨hr, hs⟩
    · rw [hs] at hsource
      rw [List.filter_cons_of_neg (by simp [hsource p (List.mem_cons_self ..)]), ← hr]
      apply ih
      · intro q hq
        exact hsource q (List.mem_cons_of_mem _ hq)
      · rw [hr]
        exact hrepair
    · rw [hr] at hrepair
      rw [List.filter_cons_of_pos (hrepair p (List.mem_cons_self ..)), hr]
      congr 1
      apply ih
      · rw [hs]
        exact hsource
      · intro q hq
        exact hrepair q (List.mem_cons_of_mem _ hq)

end Interleave

/-! ## The in-band packets of the stream -/

namespace Encoder

section InBand

variable {E R : Type} (enc : SourceBlockEncoder E) (args : Params) (S : Stream)

/-- What `emit_block` iterates over for block `l`. -/
def blockPackets (l : ℕ) : Interleave :=
  interleave (enc.sourcePackets (blockEncoder enc S l))
    (enc.repairPackets (blockEncoder enc S l) 0 args.baselineRepair) args.repInterval

/-- Packets of block `l`, as they are sent. -/
def ofBlock (l : ℕ) (packets : List EncodingPacket) : List Sent := packets.map fun p => ⟨p, l⟩

/-- The in-band packets of block `l`, in the order they are sent. -/
def inBandOf (l : ℕ) : List Sent := ofBlock l (blockPackets enc args S l).toList

/-- The in-band packets of the first `n` blocks. -/
def inBandUpTo (n : ℕ) : List Sent := (List.range n).flatMap (inBandOf enc args S)

/-- The packet is a source packet, or its repair id is below the baseline. -/
def inBand (x : Sent) : Bool :=
  decide (x.packet.payloadId.encodingSymbolId < S.k + args.baselineRepair)

lemma inBandUpTo_succ (n : ℕ) :
    inBandUpTo enc args S (n + 1) = inBandUpTo enc args S n ++ inBandOf enc args S n := by
  unfold inBandUpTo
  rw [List.range_succ, List.flatMap_append, List.flatMap_singleton]

/-- The in-band packets of the first blocks come first. -/
lemma inBandUpTo_add (n m : ℕ) : inBandUpTo enc args S (n + m) =
    inBandUpTo enc args S n ++ (List.range m).flatMap fun i => inBandOf enc args S (n + i) := by
  induction m with
  | zero => simp
  | succ m ih =>
    rw [← Nat.add_assoc, inBandUpTo_succ, ih, List.range_succ, List.flatMap_append,
      List.flatMap_singleton, List.append_assoc]

variable {enc args S}

lemma block_of_mem_ofBlock {l : ℕ} {packets : List EncodingPacket} {x : Sent}
    (h : x ∈ ofBlock l packets) : x.block = l ∧ x.packet ∈ packets := by
  obtain ⟨p, hp, rfl⟩ := List.mem_map.mp h
  exact ⟨rfl, hp⟩

lemma mem_inBandUpTo {n : ℕ} {x : Sent} :
    x ∈ inBandUpTo enc args S n ↔ x.block < n ∧ x ∈ inBandOf enc args S x.block := by
  unfold inBandUpTo
  rw [List.mem_flatMap]
  constructor
  · intro h
    obtain ⟨l, hl, hx⟩ := h
    have hblock : x.block = l := (block_of_mem_ofBlock hx).1
    rw [hblock]
    exact ⟨List.mem_range.mp hl, hx⟩
  · intro h
    exact ⟨x.block, List.mem_range.mpr h.1, h.2⟩

/-- The source packets and the baseline repair of a block, under the crate's laws. -/
lemma blockPackets_of_serves (hs : Serves enc args S) (l : ℕ) :
    (blockPackets enc args S l).source = (List.range S.k).map (fun i => S.packet ⟨l, i⟩) ∧
      (blockPackets enc args S l).repair =
        (List.range args.baselineRepair).map fun i => S.packet ⟨l, S.k + i⟩ := by
  have hlen : (S.block l).length = S.oti.transferLength := hs.block_length l
  have hmax := hs.esi_le
  refine ⟨hs.laws.sourcePackets_new _ _ hlen, ?_⟩
  have hrepair := hs.laws.repairPackets_new (sbnOf l) _ 0 args.baselineRepair hlen (by omega)
  rw [Nat.add_zero] at hrepair
  exact hrepair

/-- The in-band packets of a block are its source packets and its baseline repair. -/
lemma inBandOf_perm (hs : Serves enc args S) (l : ℕ) : (inBandOf enc args S l).Perm
    ((List.range (S.k + args.baselineRepair)).map fun esi => ⟨S.packet ⟨l, esi⟩, l⟩) := by
  obtain ⟨hsource, hrepair⟩ := blockPackets_of_serves hs l
  have hperm := (blockPackets enc args S l).toList_perm
  rw [Interleave.rest, hsource, hrepair] at hperm
  have hsent := hperm.map fun p => (⟨p, l⟩ : Sent)
  rw [List.map_append, List.map_map, List.map_map] at hsent
  rw [List.range_add, List.map_append, List.map_map]
  exact hsent

lemma inBand_of_mem (hs : Serves enc args S) {n : ℕ} {x : Sent}
    (h : x ∈ inBandUpTo enc args S n) : inBand args S x = true := by
  obtain ⟨hsource, hrepair⟩ := blockPackets_of_serves hs x.block
  have hmem := (block_of_mem_ofBlock (mem_inBandUpTo.mp h).2).2
  rw [Interleave.mem_toList, Interleave.rest, hsource, hrepair] at hmem
  unfold inBand
  rw [decide_eq_true_eq]
  rcases List.mem_append.mp hmem with hmem | hmem
  · obtain ⟨i, hi, hp⟩ := List.mem_map.mp hmem
    rw [List.mem_range] at hi
    rw [← hp]
    show i < S.k + args.baselineRepair
    omega
  · obtain ⟨i, hi, hp⟩ := List.mem_map.mp hmem
    rw [List.mem_range] at hi
    rw [← hp]
    show S.k + i < S.k + args.baselineRepair
    omega

end InBand

/-! ## The invariant -/

variable {E R : Type} {enc : SourceBlockEncoder E} {coin : R → Bool × R} {args : Params}
  {S : Stream} {s s' : Encoder E R}

/-- A block that has been received is about to be sent in-band. -/
lemma Inv.onRecv_point (hs : Serves enc args S) (h : Inv enc args S s)
    (hpoint : s.point = .receiving) {block : Bytes}
    (hreads : Reads S (s.onRecv enc args block)) :
    (s.onRecv enc args block).point = .emitting (blockEncoder enc S s.received.length)
      (blockPackets enc args S s.received.length) := by
  obtain ⟨hsbn, -⟩ := h.receiving hpoint
  have hblock : S.block s.received.length = block := by
    apply hreads
    show (s.received ++ [block])[s.received.length]? = some block
    simp
  rw [blockPackets, blockEncoder, hblock, ← hsbn, ← hs.oti_eq]
  rfl

/-- Which in-band packets have been sent, by program point. -/
def InBandAt (enc : SourceBlockEncoder E) (args : Params) (S : Stream) (s : Encoder E R) : Prop :=
  match s.point with
  | .emitting _ packets =>
    s.sent.filter (inBand args S) ++ ofBlock (s.received.length - 1) packets.toList =
      inBandUpTo enc args S s.received.length
  | .sendingExtra packet l =>
    s.sent.filter (inBand args S) = inBandUpTo enc args S s.received.length ∧
      inBand args S ⟨packet, l⟩ = false ∧ l < s.received.length ∧ args.minting = true
  | _ => s.sent.filter (inBand args S) = inBandUpTo enc args S s.received.length

/-- The packet `x` stands between the in-band packets of blocks, after those of its own. -/
def BetweenBlocks (enc : SourceBlockEncoder E) (args : Params) (S : Stream) (pre : List Sent)
    (x : Sent) : Prop :=
  ∃ n, x.block < n ∧ pre.filter (inBand args S) = inBandUpTo enc args S n

/-- The invariant of the thread as long as the writer is there. -/
structure InBandInv (enc : SourceBlockEncoder E) (args : Params) (S : Stream)
    (s : Encoder E R) : Prop where
  ring_ge : ∀ bg ∈ s.ring, args.baselineRepair ≤ bg.nextRepairId
  at_point : InBandAt enc args S s
  extras : ∀ pre x post, s.sent = pre ++ x :: post → inBand args S x = false →
    BetweenBlocks enc args S pre x
  plain : args.minting = false → ∀ x ∈ s.sent, inBand args S x = true

namespace InBandInv

lemma init (rng : R) : InBandInv enc args S (Encoder.init rng : Encoder E R) where
  ring_ge bg hbg := by cases hbg
  at_point := rfl
  extras pre x post h := by simp [Encoder.init] at h
  plain _ x hx := by cases hx

lemma receiving (h : InBandInv enc args S s) (hpoint : s.point = .receiving) :
    s.sent.filter (inBand args S) = inBandUpTo enc args S s.received.length := by
  have hat := h.at_point
  unfold InBandAt at hat
  rwa [hpoint] at hat

lemma recv (hs : Serves enc args S) (hinv : Inv enc args S s) (h : InBandInv enc args S s)
    (hpoint : s.point = .receiving) {block : Bytes}
    (hreads : Reads S (s.onRecv enc args block)) :
    InBandInv enc args S (s.onRecv enc args block) := by
  refine ⟨h.ring_ge, ?_, h.extras, h.plain⟩
  -- the block's packets are all still to be sent
  have hemitting := hinv.onRecv_point hs hpoint hreads
  unfold InBandAt
  simp only [hemitting]
  show s.sent.filter (inBand args S) ++ ofBlock ((s.received ++ [block]).length - 1)
    (blockPackets enc args S s.received.length).toList =
      inBandUpTo enc args S (s.received ++ [block]).length
  rw [h.receiving hpoint, List.length_append, List.length_singleton, Nat.add_sub_cancel,
    inBandUpTo_succ, inBandOf]

/-- A cut of what has been sent, when an in-band packet is sent. -/
lemma extras_send (h : InBandInv enc args S s) {y : Sent} (hy : inBand args S y = true) :
    ∀ pre x post, s.sent ++ [y] = pre ++ x :: post → inBand args S x = false →
      BetweenBlocks enc args S pre x := by
  intro pre x post hcut hx
  rcases Machine.cut_concat hcut with ⟨post', hcut', -⟩ | ⟨-, rfl, -⟩
  · exact h.extras pre x post' hcut' hx
  · rw [hy] at hx
    cases hx

lemma send (hs : Serves enc args S) (h : InBandInv enc args S s) {encoder : E}
    {packets packets' : Interleave} {packet : EncodingPacket}
    (hpoint : s.point = .emitting encoder packets)
    (hnext : packets.next = some (packet, packets')) :
    inBand args S ⟨packet, s.received.length - 1⟩ = true ∧ InBandInv enc args S { s with
      point := .emitting encoder packets'
      sent := s.sent ++ [⟨packet, s.received.length - 1⟩] } := by
  have hat := h.at_point
  unfold InBandAt at hat
  simp only [hpoint, Interleave.toList_of_next hnext] at hat
  have hin : inBand args S ⟨packet, s.received.length - 1⟩ = true := by
    have hmem : ⟨packet, s.received.length - 1⟩ ∈ inBandUpTo enc args S s.received.length := by
      rw [← hat]
      exact List.mem_append_right _ (List.mem_cons_self ..)
    exact inBand_of_mem hs hmem
  refine ⟨hin, h.ring_ge, ?_, h.extras_send hin, fun hplain x hx => ?_⟩
  · show (s.sent ++ [_]).filter (inBand args S) ++ ofBlock (s.received.length - 1)
      packets'.toList = inBandUpTo enc args S s.received.length
    rw [← hat, List.filter_append, List.filter_cons_of_pos hin, List.append_assoc]
    rfl
  · rcases List.mem_append.mp hx with hold | hnew
    · exact h.plain hplain x hold
    · rw [List.mem_singleton.mp hnew]
      exact hin

lemma finish (h : InBandInv enc args S s) {encoder : E} {packets : Interleave}
    (hpoint : s.point = .emitting encoder packets) (hnext : packets.next = none)
    (created : Instant) (clock : ℕ → Instant) :
    InBandInv enc args S (s.onFinish args encoder created clock) := by
  have hat := h.at_point
  unfold InBandAt at hat
  simp only [hpoint, Interleave.toList_of_none hnext] at hat
  refine ⟨fun bg hbg => ?_, ?_, h.extras, h.plain⟩
  · unfold onFinish at hbg
    simp only at hbg
    -- a block in the ring was there before, or it is the one just sent
    split at hbg
    · rcases List.mem_append.mp ((pruneRing_suffix _ _ _).subset hbg) with hold | hnew
      · exact h.ring_ge bg hold
      · rw [List.mem_singleton.mp hnew]
    · exact h.ring_ge bg hbg
  · show s.sent.filter (inBand args S) = inBandUpTo enc args S s.received.length
    rw [← hat]
    exact (List.append_nil _).symm

lemma nap (h : InBandInv enc args S s) (hpoint : s.point = .receiving) {ring : List (BlockGen E)}
    (hring : ring <:+ s.ring) (rng : R) :
    InBandInv enc args S { s with ring := ring, rng := rng } := by
  refine ⟨fun bg hbg => h.ring_ge bg (hring.subset hbg), ?_, h.extras, h.plain⟩
  unfold InBandAt
  simp only [hpoint]
  exact h.receiving hpoint

lemma mint (hs : Serves enc args S) (hinv : Inv enc args S s) (h : InBandInv enc args S s)
    (hpoint : s.point = .receiving) (hminting : args.minting = true) {clock : ℕ → Instant}
    {rng : R} {idx : ℕ} {bg : BlockGen E}
    (hpick : pickBlock coin (pruneRing clock args.horizon s.ring) s.rng = (some idx, rng))
    (hbg : (pruneRing clock args.horizon s.ring)[idx]? = some bg) :
    InBandInv enc args S { s with
      point := match (enc.repairPackets bg.encoder bg.nextRepairId 1).getLast? with
        | some packet => .sendingExtra packet bg.index
        | none => .receiving
      ring := (pruneRing clock args.horizon s.ring).set idx
        { bg with nextRepairId := bg.nextRepairId + 1 }
      rng := rng } := by
  obtain ⟨hextra, -⟩ := hinv.minted hs hpoint hpick hbg
  have hmem : bg ∈ s.ring := (pruneRing_suffix clock args.horizon s.ring).subset
    (List.mem_of_getElem? hbg)
  have hlt := ((hinv.receiving hpoint).2.index_bounds hmem).1
  have hge := h.ring_ge bg hmem
  simp only [hextra]
  refine ⟨fun bg' hbg' => ?_, ⟨h.receiving hpoint, ?_, hlt, hminting⟩, h.extras, h.plain⟩
  · rcases List.mem_or_eq_of_mem_set hbg' with hold | rfl
    · exact h.ring_ge bg' ((pruneRing_suffix clock args.horizon s.ring).subset hold)
    · show args.baselineRepair ≤ bg.nextRepairId + 1
      omega
  · unfold inBand
    rw [decide_eq_false_iff_not]
    show ¬ S.k + bg.nextRepairId < S.k + args.baselineRepair
    omega

lemma sendExtra (h : InBandInv enc args S s) {packet : EncodingPacket} {l : ℕ}
    (hpoint : s.point = .sendingExtra packet l) :
    inBand args S ⟨packet, l⟩ = false ∧ InBandInv enc args S { s with
      point := .receiving, sent := s.sent ++ [⟨packet, l⟩] } := by
  have hat := h.at_point
  unfold InBandAt at hat
  rw [hpoint] at hat
  obtain ⟨hfilter, hout, hlt, hminting⟩ := hat
  refine ⟨hout, h.ring_ge, ?_, ?_, fun hplain => ?_⟩
  · show (s.sent ++ [_]).filter (inBand args S) = inBandUpTo enc args S s.received.length
    rw [List.filter_append, List.filter_cons_of_neg (by simp [hout]), List.filter_nil,
      List.append_nil, hfilter]
  · intro pre x post hcut hx
    rcases Machine.cut_concat hcut with ⟨post', hcut', -⟩ | ⟨hpre, hxy, -⟩
    · exact h.extras pre x post' hcut' hx
    · rw [← hpre, ← hxy]
      exact ⟨s.received.length, hlt, hfilter⟩
  · rw [hminting] at hplain
    cases hplain

end InBandInv

/-- The end of the input, seen between two blocks. -/
lemma step_disconnected (hstep : step enc coin args s .disconnected = some s') :
    s.point = .receiving ∧ s' = { s with point := .exited } := by
  unfold step at hstep
  cases hpoint : s.point with
  | receiving =>
    simp only [hpoint, Option.some.injEq] at hstep
    exact ⟨rfl, hstep.symm⟩
  | emitting _ _ => simp [hpoint] at hstep
  | sendingExtra _ _ => simp [hpoint] at hstep
  | exited => simp [hpoint] at hstep

/-- One step, the writer being there. -/
lemma InBandInv.step (hs : Serves enc args S) (hinv : Inv enc args S s)
    (h : InBandInv enc args S s) {a : EncoderAction} (halive : a ≠ .dropped)
    (hstep : step enc coin args s a = some s') (hreads : Reads S s') :
    InBandInv enc args S s' := by
  cases step_moves hstep with
  | recv hpoint => exact h.recv hs hinv hpoint hreads
  | nap hpoint _ _ => exact h.nap hpoint (pruneRing_suffix _ _ _) _
  | mint hpoint hminting hpick hbg => exact h.mint hs hinv hpoint hminting hpick hbg
  | send hpoint hnext => exact (h.send hs hpoint hnext).2
  | finish hpoint hnext => exact h.finish hpoint hnext _ _
  | sendExtra hpoint => exact (h.sendExtra hpoint).2
  | exit ha =>
    obtain rfl := ha.resolve_right halive
    obtain ⟨hpoint, -⟩ := step_disconnected hstep
    exact ⟨h.ring_ge, h.receiving hpoint, h.extras, h.plain⟩

/-- **In-band packets**, in every run with a writer on the blocks of a stream. -/
theorem run_inBandInv (hs : Serves enc args S) {rng : R} {acts : List EncoderAction}
    (hrun : Machine.run (Encoder.step enc coin args) (init rng) acts = some s)
    (halive : ∀ a ∈ acts, a ≠ .dropped) (hreads : Reads S s) : InBandInv enc args S s := by
  refine alive_induction hs (P := fun _ s => InBandInv enc args S s) (InBandInv.init rng) ?_ hrun
    halive hreads
  intro acts s a s' _ _ _ hinv ih ha hstep hreads'
  exact ih.step hs hinv ha hstep hreads'

end Encoder

end RaptorqTs.Enc
