import RaptorqTs.Enc.Adaptive

/-!
# Repair symbols

Each repair symbol of a block is sent at most once: the repair ids of a block that has been
sent are `0, 1, …, n - 1`, in this order, with `n` between the baseline and the ceiling. The
ring knows `n` for the blocks in it, as their next repair id.
-/

namespace RaptorqTs.Enc

/-! ## Picking, when there is something to pick -/

section Ring

variable {E R : Type}

/-- A remembered index is not lost. -/
lemma pickFrom_isSome (coin : R → Bool × R) (ring : List (BlockGen E)) (n : ℕ)
    {oldest : Option ℕ} {rng : R} (h : oldest.isSome = true ∨ ∃ i < n, Live ring i) :
    (pickFrom coin ring n oldest rng).1.isSome = true := by
  induction n generalizing oldest rng with
  | zero =>
    rcases h with h | ⟨i, hi, -⟩
    · exact h
    · omega
  | succ n ih =>
    -- what is left to find below `n`, if the block at `n` is passed over
    have hbelow (hn : ¬ Live ring n) : oldest.isSome = true ∨ ∃ i < n, Live ring i := by
      rcases h with h | ⟨i, hi, hlive⟩
      · exact Or.inl h
      · refine Or.inr ⟨i, ?_, hlive⟩
        by_contra hle
        obtain rfl : i = n := by omega
        exact hn hlive
    unfold pickFrom
    cases hbg : ring[n]? with
    | none =>
      refine ih (hbelow ?_)
      intro hlive
      obtain ⟨bg, hbg', -⟩ := hlive
      rw [hbg] at hbg'
      cases hbg'
    | some bg =>
      simp only
      by_cases hex : bg.exhausted = true
      · rw [if_pos hex]
        refine ih (hbelow ?_)
        intro hlive
        obtain ⟨bg', hbg', hlive⟩ := hlive
        obtain rfl := Option.some.inj (hbg.symm.trans hbg')
        rw [hex] at hlive
        cases hlive
      · rw [if_neg hex]
        by_cases hheads : (coin rng).1 = true
        · rw [if_pos hheads]
          rfl
        · rw [if_neg hheads]
          exact ih (Or.inl rfl)

/-- **A block is picked** whenever some block in the ring is not exhausted. -/
theorem pickBlock_isSome (coin : R → Bool × R) {ring : List (BlockGen E)} {bg : BlockGen E}
    (hmem : bg ∈ ring) (hlive : bg.exhausted = false) (rng : R) :
    (pickBlock coin ring rng).1.isSome = true := by
  obtain ⟨i, hi, hget⟩ := List.mem_iff_getElem.mp hmem
  refine pickFrom_isSome coin ring ring.length (Or.inr ⟨i, hi, bg, ?_, hlive⟩)
  rw [List.getElem?_eq_getElem hi, hget]

/-! ## Ages -/

/-- The last clock reading of `prune_ring`, by which it keeps the front. -/
def pruneTime (clock : ℕ → Instant) (horizon : ℕ) (ring : List (BlockGen E)) : Instant :=
  clock ((capRing ring).length - (pruneRing clock horizon ring).length)

/-- The block at which `dropFront` stops is not older than the horizon, and it can still mint. -/
lemma dropFront_front {clock : ℕ → Instant} {horizon i : ℕ} {ring rest : List (BlockGen E)}
    {front : BlockGen E} (h : dropFront clock horizon i ring = front :: rest) :
    elapsed (clock (i + (ring.length - (front :: rest).length))) front.created ≤ horizon ∧
      front.exhausted = false := by
  induction ring generalizing i with
  | nil => cases h
  | cons bg ring ih =>
    have hlen := (dropFront_suffix clock horizon (i + 1) ring).length_le
    unfold dropFront at h
    split at h
    · have hfront := ih h
      rw [h] at hlen
      have hshift : i + 1 + (ring.length - (front :: rest).length) =
          i + ((bg :: ring).length - (front :: rest).length) := by
        simp only [List.length_cons] at hlen ⊢
        omega
      rwa [hshift] at hfront
    · rename_i hkeep
      obtain ⟨hage, hlive⟩ := not_or.mp hkeep
      rw [List.cons.injEq] at h
      rw [← h.1, ← h.2, Nat.sub_self, Nat.add_zero]
      exact ⟨not_lt.mp hage, by simpa using hlive⟩

/-- **The horizon.** With creation times in order, no block left by `prune_ring` is older than
the horizon. -/
theorem pruneRing_age {clock : ℕ → Instant} {horizon : ℕ} {ring : List (BlockGen E)}
    (hsorted : (ring.map BlockGen.created).Pairwise (· ≤ ·)) {bg : BlockGen E}
    (hbg : bg ∈ pruneRing clock horizon ring) :
    elapsed (pruneTime clock horizon ring) bg.created ≤ horizon := by
  have hsorted' : ((pruneRing clock horizon ring).map BlockGen.created).Pairwise (· ≤ ·) :=
    hsorted.sublist ((pruneRing_suffix clock horizon ring).map _).sublist
  unfold pruneTime
  cases hpruned : pruneRing clock horizon ring with
  | nil =>
    rw [hpruned] at hbg
    cases hbg
  | cons front rest =>
    obtain ⟨hfront, -⟩ := dropFront_front hpruned
    rw [Nat.zero_add] at hfront
    rw [hpruned] at hbg hsorted'
    -- the others were created after the front
    have hle : front.created ≤ bg.created := by
      rcases List.mem_cons.mp hbg with rfl | hrest
      · exact le_rfl
      · exact List.rel_of_pairwise_cons hsorted' (List.mem_map_of_mem hrest)
    exact le_trans (Nat.sub_le_sub_left hle _) hfront

end Ring

/-! ## Repair ids -/

/-- The encoding symbol id of a packet sent. -/
def Sent.esi (x : Sent) : ℕ := x.packet.payloadId.encodingSymbolId

/-- The repair ids among the packets of block `l`, in the order they are sent. -/
def repairIds (S : Stream) (l : ℕ) (xs : List Sent) : List ℕ :=
  (xs.filter fun x => decide (x.block = l ∧ S.k ≤ x.esi)).map fun x => x.esi - S.k

section RepairIds

variable {S : Stream} {l : ℕ}

lemma repairIds_append (xs ys : List Sent) :
    repairIds S l (xs ++ ys) = repairIds S l xs ++ repairIds S l ys := by
  unfold repairIds
  rw [List.filter_append, List.map_append]

/-- Packets of other blocks do not count. -/
lemma repairIds_eq_nil {xs : List Sent} (h : ∀ x ∈ xs, x.block ≠ l) : repairIds S l xs = [] := by
  unfold repairIds
  rw [List.map_eq_nil_iff, List.filter_eq_nil_iff]
  intro x hx
  rw [decide_eq_true_eq]
  exact fun hblock => h x hx hblock.1

lemma repairIds_append_of_ne {xs : List Sent} {y : Sent} (h : y.block ≠ l) :
    repairIds S l (xs ++ [y]) = repairIds S l xs := by
  have hnil : repairIds S l [y] = [] := by
    apply repairIds_eq_nil
    intro x hx
    rw [List.mem_singleton.mp hx]
    exact h
  rw [repairIds_append, hnil, List.append_nil]

/-- The repair packet with id `r` is sent. -/
lemma repairIds_packet (r : ℕ) (xs : List Sent) :
    repairIds S l (xs ++ [⟨S.packet ⟨l, S.k + r⟩, l⟩]) = repairIds S l xs ++ [r] := by
  have hone : repairIds S l [⟨S.packet ⟨l, S.k + r⟩, l⟩] = [r] := by
    have hesi : (Sent.mk (S.packet ⟨l, S.k + r⟩) l).esi = S.k + r := rfl
    unfold repairIds
    rw [List.filter_cons_of_pos (by simp [hesi]), List.filter_nil, List.map_singleton, hesi,
      Nat.add_sub_cancel_left]
  rw [repairIds_append, hone]

lemma mem_repairIds {r : ℕ} {xs : List Sent} {x : Sent} (hx : x ∈ xs) (hblock : x.block = l)
    (hesi : x.esi = S.k + r) : r ∈ repairIds S l xs := by
  unfold repairIds
  refine List.mem_map.mpr ⟨x, List.mem_filter.mpr ⟨hx, ?_⟩, ?_⟩
  · rw [decide_eq_true_eq, hesi]
    exact ⟨hblock, Nat.le_add_right ..⟩
  · rw [hesi, Nat.add_sub_cancel_left]

end RepairIds

namespace Encoder

variable {E R : Type} {enc : SourceBlockEncoder E} {coin : R → Bool × R} {args : Params}
  {S : Stream} {s s' : Encoder E R}

/-- The repair ids in-band are those below the baseline. -/
lemma repairIds_inBandOf (hs : Serves enc args S) (l : ℕ) :
    repairIds S l (inBandOf enc args S l) = List.range args.baselineRepair := by
  obtain ⟨hsource, hrepair⟩ := blockPackets_of_serves hs l
  have hfilter : (blockPackets enc args S l).toList.filter
      (fun p => decide (S.k ≤ p.payloadId.encodingSymbolId)) =
        (List.range args.baselineRepair).map fun i => S.packet ⟨l, S.k + i⟩ := by
    rw [← hrepair]
    apply Interleave.filter_toList
    · intro p hp
      rw [hsource] at hp
      obtain ⟨i, hi, rfl⟩ := List.mem_map.mp hp
      rw [List.mem_range] at hi
      rw [decide_eq_false_iff_not]
      show ¬ S.k ≤ i
      omega
    · intro p hp
      rw [hrepair] at hp
      obtain ⟨i, -, rfl⟩ := List.mem_map.mp hp
      rw [decide_eq_true_eq]
      show S.k ≤ S.k + i
      omega
  unfold repairIds inBandOf ofBlock
  rw [List.filter_map, List.map_map]
  have hpred : ((fun x : Sent => decide (x.block = l ∧ S.k ≤ x.esi)) ∘
      fun p : EncodingPacket => (⟨p, l⟩ : Sent)) =
        fun p => decide (S.k ≤ p.payloadId.encodingSymbolId) := by
    funext p
    simp [Sent.esi]
  rw [hpred, hfilter, List.map_map]
  conv_rhs => rw [← List.map_id (List.range args.baselineRepair)]
  apply List.map_congr_left
  intro i _
  show S.k + i - S.k = i
  omega

/-! ## The invariant -/

/-- The extra repair symbol that is about to be sent. -/
def pending : EncoderPoint E → List Sent
  | .sendingExtra packet l => [⟨packet, l⟩]
  | _ => []

/-- The packets minted: those sent, and one that is about to be sent. -/
def mintedPackets (s : Encoder E R) : List Sent := s.sent ++ pending s.point

/-- The repair ids of block `l` are `0, …, n - 1`, with `n` in its range. -/
def RepairOk (args : Params) (S : Stream) (xs : List Sent) (l : ℕ) : Prop :=
  ∃ n, repairIds S l xs = List.range n ∧ args.baselineRepair ≤ n ∧ n ≤ args.maxRepair

/-- The state of the repair ids, by program point: those of a block inside `emit_block` are
still on their way up to the baseline. -/
def RepairAt (args : Params) (S : Stream) (s : Encoder E R) : Prop :=
  match s.point with
  | .emitting _ packets =>
    (∀ l < s.received.length - 1, RepairOk args S s.sent l) ∧
      repairIds S (s.received.length - 1)
        (s.sent ++ ofBlock (s.received.length - 1) packets.toList) =
          List.range args.baselineRepair
  | _ => ∀ l < s.received.length, RepairOk args S s.mintedPackets l

/-- The invariant: a block in the ring knows its next repair id. -/
structure RepairInv (args : Params) (S : Stream) (s : Encoder E R) : Prop where
  ring : ∀ bg ∈ s.ring, repairIds S bg.index s.mintedPackets = List.range bg.nextRepairId
  at_point : RepairAt args S s

namespace RepairInv

lemma init (rng : R) : RepairInv args S (Encoder.init rng : Encoder E R) where
  ring bg hbg := by cases hbg
  at_point l hl := by cases hl

lemma receiving (h : RepairInv args S s) (hpoint : s.point = .receiving) :
    (∀ l < s.received.length, RepairOk args S s.sent l) ∧
      ∀ bg ∈ s.ring, repairIds S bg.index s.sent = List.range bg.nextRepairId := by
  have hat := h.at_point
  have hring := h.ring
  unfold RepairAt at hat
  unfold mintedPackets at hat hring
  simp only [hpoint, pending, List.append_nil] at hat hring
  exact ⟨hat, hring⟩

lemma emitting (h : RepairInv args S s) {encoder : E} {packets : Interleave}
    (hpoint : s.point = .emitting encoder packets) :
    (∀ l < s.received.length - 1, RepairOk args S s.sent l) ∧
      repairIds S (s.received.length - 1)
        (s.sent ++ ofBlock (s.received.length - 1) packets.toList) =
          List.range args.baselineRepair ∧
      ∀ bg ∈ s.ring, repairIds S bg.index s.sent = List.range bg.nextRepairId := by
  have hat := h.at_point
  have hring := h.ring
  unfold RepairAt at hat
  unfold mintedPackets at hring
  simp only [hpoint, pending, List.append_nil] at hat hring
  exact ⟨hat.1, hat.2, hring⟩

/-- The state at the head of the loop, from its two parts. -/
lemma of_receiving (hpoint : s.point = .receiving)
    (hblocks : ∀ l < s.received.length, RepairOk args S s.sent l)
    (hring : ∀ bg ∈ s.ring, repairIds S bg.index s.sent = List.range bg.nextRepairId) :
    RepairInv args S s := by
  refine ⟨?_, ?_⟩
  · unfold mintedPackets
    simp only [hpoint, pending, List.append_nil]
    exact hring
  · unfold RepairAt mintedPackets
    simp only [hpoint, pending, List.append_nil]
    exact hblocks

/-- The state inside `emit_block`, from its three parts. -/
lemma of_emitting {encoder : E} {packets : Interleave} {n : ℕ}
    (hpoint : s.point = .emitting encoder packets) (hn : s.received.length = n + 1)
    (hblocks : ∀ l < n, RepairOk args S s.sent l)
    (hids : repairIds S n (s.sent ++ ofBlock n packets.toList) = List.range args.baselineRepair)
    (hring : ∀ bg ∈ s.ring, repairIds S bg.index s.sent = List.range bg.nextRepairId) :
    RepairInv args S s := by
  have hn' : s.received.length - 1 = n := by omega
  refine ⟨?_, ?_⟩
  · unfold mintedPackets
    simp only [hpoint, pending, List.append_nil]
    exact hring
  · unfold RepairAt
    simp only [hpoint, hn']
    exact ⟨hblocks, hids⟩

lemma recv (hs : Serves enc args S) (hinv : Inv enc args S s) (h : RepairInv args S s)
    (hpoint : s.point = .receiving) {block : Bytes}
    (hreads : Reads S (s.onRecv enc args block)) :
    RepairInv args S (s.onRecv enc args block) := by
  obtain ⟨hblocks, hring⟩ := h.receiving hpoint
  refine of_emitting (hinv.onRecv_point hs hpoint hreads) ?_ hblocks ?_ hring
  · show (s.received ++ [block]).length = s.received.length + 1
    rw [List.length_append, List.length_singleton]
  · -- nothing of the block has been sent
    have hnone : repairIds S s.received.length s.sent = [] := by
      apply repairIds_eq_nil
      intro x hx
      have := (hinv.mints x hx).2
      omega
    show repairIds S s.received.length (s.sent ++ inBandOf enc args S s.received.length) = _
    rw [repairIds_append, hnone, List.nil_append, repairIds_inBandOf hs]

lemma send (hinv : Inv enc args S s) (h : RepairInv args S s) {encoder : E}
    {packets packets' : Interleave} {packet : EncodingPacket}
    (hpoint : s.point = .emitting encoder packets)
    (hnext : packets.next = some (packet, packets')) :
    RepairInv args S { s with
      point := .emitting encoder packets'
      sent := s.sent ++ [⟨packet, s.received.length - 1⟩] } := by
  obtain ⟨hblocks, hids, hring⟩ := h.emitting hpoint
  have hat := hinv.at_point
  unfold AtPoint at hat
  rw [hpoint] at hat
  obtain ⟨n, hlen, -, -, -, hringOk⟩ := hat
  have hn : s.received.length - 1 = n := by omega
  rw [hn] at hblocks hids ⊢
  rw [Interleave.toList_of_next hnext] at hids
  -- a packet of block `n` leaves the repair ids of the other blocks alone
  refine of_emitting (n := n) rfl hlen (fun l hl => ?_) ?_ fun bg hbg => ?_
  · have hne : (⟨packet, n⟩ : Sent).block ≠ l := by
      show n ≠ l
      omega
    unfold RepairOk
    rw [repairIds_append_of_ne hne]
    exact hblocks l hl
  · show repairIds S n ((s.sent ++ [_]) ++ ofBlock n packets'.toList) = _
    rw [List.append_assoc]
    exact hids
  · have hne : (⟨packet, n⟩ : Sent).block ≠ bg.index := by
      have := (hringOk.index_bounds hbg).1
      show n ≠ bg.index
      omega
    show repairIds S bg.index (s.sent ++ [_]) = _
    rw [repairIds_append_of_ne hne]
    exact hring bg hbg

lemma finish (hle : args.baselineRepair ≤ args.maxRepair) (hinv : Inv enc args S s)
    (h : RepairInv args S s) {encoder : E} {packets : Interleave}
    (hpoint : s.point = .emitting encoder packets) (hnext : packets.next = none)
    (created : Instant) (clock : ℕ → Instant) :
    RepairInv args S (s.onFinish args encoder created clock) := by
  obtain ⟨hblocks, hids, hring⟩ := h.emitting hpoint
  have hat := hinv.at_point
  unfold AtPoint at hat
  rw [hpoint] at hat
  obtain ⟨n, hlen, -⟩ := hat
  have hn : s.received.length - 1 = n := by omega
  rw [hn] at hblocks hids
  rw [Interleave.toList_of_none hnext] at hids
  have hids : repairIds S n s.sent = List.range args.baselineRepair := by
    rw [← hids]
    exact congrArg (repairIds S n) (List.append_nil _).symm
  refine of_receiving rfl (fun l hl => ?_) fun bg hbg => ?_
  · have hl : l < s.received.length := hl
    by_cases hlast : l = n
    · rw [hlast]
      exact ⟨args.baselineRepair, hids, le_rfl, hle⟩
    · exact hblocks l (by omega)
  · unfold onFinish at hbg
    simp only at hbg
    show repairIds S bg.index s.sent = _
    split at hbg
    · rcases List.mem_append.mp ((pruneRing_suffix _ _ _).subset hbg) with hold | hnew
      · exact hring bg hold
      · rw [List.mem_singleton.mp hnew]
        show repairIds S (s.received.length - 1) s.sent = List.range args.baselineRepair
        rw [hn, hids]
    · exact hring bg hbg

lemma nap (h : RepairInv args S s) (hpoint : s.point = .receiving) {ring : List (BlockGen E)}
    (hring : ring <:+ s.ring) (rng : R) :
    RepairInv args S { s with ring := ring, rng := rng } := by
  obtain ⟨hblocks, hids⟩ := h.receiving hpoint
  refine of_receiving hpoint hblocks fun bg hbg => ?_
  exact hids bg (hring.subset hbg)

lemma mint (hs : Serves enc args S) (hinv : Inv enc args S s) (hband : InBandInv enc args S s)
    (h : RepairInv args S s) (hpoint : s.point = .receiving) {clock : ℕ → Instant}
    {rng : R} {idx : ℕ} {bg : BlockGen E}
    (hpick : pickBlock coin (pruneRing clock args.horizon s.ring) s.rng = (some idx, rng))
    (hbg : (pruneRing clock args.horizon s.ring)[idx]? = some bg) :
    RepairInv args S { s with
      point := match (enc.repairPackets bg.encoder bg.nextRepairId 1).getLast? with
        | some packet => .sendingExtra packet bg.index
        | none => .receiving
      ring := (pruneRing clock args.horizon s.ring).set idx
        { bg with nextRepairId := bg.nextRepairId + 1 }
      rng := rng } := by
  obtain ⟨hblocks, hids⟩ := h.receiving hpoint
  obtain ⟨hextra, hlive⟩ := hinv.minted hs hpoint hpick hbg
  have hsuffix := pruneRing_suffix clock args.horizon s.ring
  have hmem : bg ∈ s.ring := hsuffix.subset (List.mem_of_getElem? hbg)
  have hge := hband.ring_ge bg hmem
  -- the ids of the block picked go up by one, those of the others stay
  have hpicked : repairIds S bg.index (s.sent ++
      [⟨S.packet ⟨bg.index, S.k + bg.nextRepairId⟩, bg.index⟩]) =
        List.range (bg.nextRepairId + 1) := by
    rw [repairIds_packet, hids bg hmem, List.range_succ]
  have hothers {l : ℕ} (hne : bg.index ≠ l) : repairIds S l (s.sent ++
      [⟨S.packet ⟨bg.index, S.k + bg.nextRepairId⟩, bg.index⟩]) = repairIds S l s.sent :=
    repairIds_append_of_ne hne
  simp only [hextra]
  refine ⟨fun bg' hbg' => ?_, fun l hl => ?_⟩
  · show repairIds S bg'.index (s.sent ++ [_]) = _
    obtain ⟨j, hj, hget⟩ := List.mem_iff_getElem.mp hbg'
    rw [List.length_set] at hj
    rw [List.getElem_set] at hget
    split at hget
    · rw [← hget]
      exact hpicked
    · rename_i hne
      have hmem' : bg' ∈ s.ring := hsuffix.subset (hget ▸ List.getElem_mem hj)
      rw [hothers, hids bg' hmem']
      intro hindex
      have hget' : (pruneRing clock args.horizon s.ring)[j]? = some bg' := by
        rw [List.getElem?_eq_getElem hj, hget]
      exact hne (((hinv.receiving hpoint).2.suffix hsuffix).index_inj hbg hget' hindex)
  · show RepairOk args S (s.sent ++ [_]) l
    by_cases hindex : bg.index = l
    · rw [← hindex]
      exact ⟨bg.nextRepairId + 1, hpicked, by omega, hlive⟩
    · unfold RepairOk
      rw [hothers hindex]
      exact hblocks l hl

lemma sendExtra (h : RepairInv args S s) {packet : EncodingPacket} {l : ℕ}
    (hpoint : s.point = .sendingExtra packet l) :
    RepairInv args S { s with point := .receiving, sent := s.sent ++ [⟨packet, l⟩] } := by
  have hat := h.at_point
  have hring := h.ring
  unfold RepairAt at hat
  unfold mintedPackets at hat hring
  simp only [hpoint, pending] at hat hring
  exact of_receiving rfl hat hring

lemma step (hs : Serves enc args S) (hle : args.baselineRepair ≤ args.maxRepair)
    (hinv : Inv enc args S s) (hband : InBandInv enc args S s) (h : RepairInv args S s)
    {a : EncoderAction} (halive : a ≠ .dropped)
    (hstep : Encoder.step enc coin args s a = some s') (hreads : Reads S s') :
    RepairInv args S s' := by
  cases step_moves hstep with
  | recv hpoint => exact h.recv hs hinv hpoint hreads
  | nap hpoint _ _ => exact h.nap hpoint (pruneRing_suffix _ _ _) _
  | mint hpoint _ hpick hbg => exact h.mint hs hinv hband hpoint hpick hbg
  | send hpoint hnext => exact h.send hinv hpoint hnext
  | finish hpoint hnext => exact h.finish hle hinv hpoint hnext _ _
  | sendExtra hpoint => exact h.sendExtra hpoint
  | exit ha =>
    obtain rfl := ha.resolve_right halive
    obtain ⟨hpoint, -⟩ := step_disconnected hstep
    obtain ⟨hblocks, hring⟩ := h.receiving hpoint
    refine ⟨?_, ?_⟩
    · unfold mintedPackets
      simp only [pending, List.append_nil]
      exact hring
    · unfold RepairAt mintedPackets
      simp only [pending, List.append_nil]
      exact hblocks

end RepairInv

/-- **Repair ids**, in every run with a writer on the blocks of a stream. -/
theorem run_repairInv (hs : Serves enc args S) (hle : args.baselineRepair ≤ args.maxRepair)
    {rng : R} {acts : List EncoderAction}
    (hrun : Machine.run (Encoder.step enc coin args) (init rng) acts = some s)
    (halive : ∀ a ∈ acts, a ≠ .dropped) (hreads : Reads S s) : RepairInv args S s := by
  refine alive_induction hs (P := fun _ s => RepairInv args S s) (RepairInv.init rng) ?_ hrun
    halive hreads
  intro acts s a s' hrun halive hreads hinv ih ha hstep hreads'
  exact ih.step hs hle hinv (run_inBandInv hs hrun halive hreads) ha hstep hreads'

/-! ## Blocks sent in-band -/

/-- The extra repair symbol about to be sent may be left out: the ids sent before it still
reach the baseline. -/
lemma RepairOk.of_pending {xs : List Sent} {packet : EncodingPacket} {l l' : ℕ}
    (hout : inBand args S ⟨packet, l'⟩ = false) (h : RepairOk args S (xs ++ [⟨packet, l'⟩]) l) :
    RepairOk args S xs l := by
  obtain ⟨n, hids, hge, hle⟩ := h
  by_cases hblock : l' = l
  · subst hblock
    unfold inBand at hout
    rw [decide_eq_false_iff_not, not_lt] at hout
    have hesi : S.k + args.baselineRepair ≤ packet.payloadId.encodingSymbolId := hout
    have hrepair : S.k ≤ packet.payloadId.encodingSymbolId := by omega
    have hpacket : repairIds S l' [⟨packet, l'⟩] =
        [packet.payloadId.encodingSymbolId - S.k] := by
      simp [repairIds, Sent.esi, hrepair]
    rw [repairIds_append, hpacket] at hids
    -- the id of the symbol is the last one
    cases n with
    | zero => simp at hids
    | succ n =>
      rw [List.range_succ] at hids
      obtain ⟨hids, hlast⟩ := List.append_inj' hids rfl
      rw [List.singleton_inj] at hlast
      exact ⟨n, hids, by omega, by omega⟩
  · have hne : (⟨packet, l'⟩ : Sent).block ≠ l := hblock
    rw [repairIds_append_of_ne hne] at hids
    exact ⟨n, hids, hge, hle⟩

/-- The repair ids of a block whose in-band packets have been sent. -/
lemma RepairInv.of_inBand_sent (hs : Serves enc args S)
    (hle : args.baselineRepair ≤ args.maxRepair) (hband : InBandInv enc args S s)
    (h : RepairInv args S s) {l : ℕ} (hl : l < s.received.length)
    (hall : ∀ x ∈ inBandOf enc args S l, x ∈ s.sent) :
    RepairOk args S s.sent l := by
  have hat := h.at_point
  unfold RepairAt at hat
  unfold mintedPackets at hat
  cases hpoint : s.point with
  | receiving =>
    simp only [hpoint, pending, List.append_nil] at hat
    exact hat l hl
  | exited =>
    simp only [hpoint, pending, List.append_nil] at hat
    exact hat l hl
  | sendingExtra packet l' =>
    simp only [hpoint, pending] at hat
    have hband' := hband.at_point
    unfold InBandAt at hband'
    simp only [hpoint] at hband'
    exact .of_pending hband'.2.1 (hat l hl)
  | emitting encoder packets =>
    obtain ⟨hblocks, hids, -⟩ := h.emitting hpoint
    by_cases hlast : l = s.received.length - 1
    · rw [← hlast, repairIds_append] at hids
      refine ⟨args.baselineRepair, ?_, le_rfl, hle⟩
      -- a repair packet still to come would be sent twice
      cases hrest : repairIds S l (ofBlock l packets.toList) with
      | nil => rwa [hrest, List.append_nil] at hids
      | cons r rest =>
        rw [hrest] at hids
        have hr : r < args.baselineRepair := by
          rw [← List.mem_range, ← hids]
          exact List.mem_append_right _ (List.mem_cons_self ..)
        have hsent : r ∈ repairIds S l s.sent := by
          refine mem_repairIds (hall ⟨S.packet ⟨l, S.k + r⟩, l⟩ ?_) rfl rfl
          refine List.mem_map.mpr ⟨_, ?_, rfl⟩
          rw [Interleave.mem_toList, Interleave.rest, (blockPackets_of_serves hs l).2]
          exact List.mem_append_right _ (List.mem_map.mpr ⟨r, List.mem_range.mpr hr, rfl⟩)
        have hnodup : (repairIds S l s.sent ++ r :: rest).Nodup := by
          rw [hids]
          exact List.nodup_range
        have hne := (List.nodup_append.mp hnodup).2.2 r hsent r (List.mem_cons_self ..)
        exact absurd rfl hne
    · exact hblocks l (by omega)

/-! ## Where the extra repair symbols come from -/

/-- The reading for `created`, if the action pushes a block. -/
def EncoderAction.created? : EncoderAction → Option Instant
  | .finish created _ => some created
  | _ => none

/-- The clock is monotonic: later blocks have later creation times. -/
def CreatedInOrder (acts : List EncoderAction) : Prop :=
  (acts.filterMap EncoderAction.created?).Pairwise (· ≤ ·)

/-- A step takes creation times off the front, and puts its reading at the back. -/
lemma created_step {a : EncoderAction} (hstep : Encoder.step enc coin args s a = some s') :
    (s'.ring.map BlockGen.created).Sublist
      (s.ring.map BlockGen.created ++ (EncoderAction.created? a).toList) := by
  have hpruned (clock : ℕ → Instant) (ring : List (BlockGen E)) :
      ((pruneRing clock args.horizon ring).map BlockGen.created).Sublist
        (ring.map BlockGen.created) :=
    ((pruneRing_suffix clock args.horizon ring).map _).sublist
  cases step_moves hstep with
  | recv _ => exact List.sublist_append_left ..
  | nap _ _ _ => exact (hpruned _ _).trans (List.sublist_append_left ..)
  | @mint clock rng idx bg _ _ _ hbg =>
    refine List.Sublist.trans ?_ ((hpruned clock s.ring).trans (List.sublist_append_left ..))
    have hsame : ((pruneRing clock args.horizon s.ring).set idx
        { bg with nextRepairId := bg.nextRepairId + 1 }).map BlockGen.created =
          (pruneRing clock args.horizon s.ring).map BlockGen.created := by
      rw [List.map_set]
      show ((pruneRing clock args.horizon s.ring).map BlockGen.created).set idx bg.created = _
      have hmap : ((pruneRing clock args.horizon s.ring).map BlockGen.created)[idx]? =
          some bg.created := by
        rw [List.getElem?_map, hbg]
        rfl
      obtain ⟨_, hget⟩ := List.getElem?_eq_some_iff.mp hmap
      rw [← hget, List.set_getElem_self]
    show (((pruneRing clock args.horizon s.ring).set idx _).map BlockGen.created).Sublist _
    rw [hsame]
  | send _ _ => exact List.sublist_append_left ..
  | @finish encoder packets created clock _ _ =>
    show ((onFinish args encoder created clock s).ring.map BlockGen.created).Sublist
      (s.ring.map BlockGen.created ++ [created])
    unfold onFinish
    simp only
    split
    · refine (hpruned _ _).trans ?_
      rw [List.map_append]
      exact List.Sublist.refl _
    · exact List.sublist_append_left ..
  | sendExtra _ => exact List.sublist_append_left ..
  | exit _ => exact List.sublist_append_left ..

/-- The creation times in the ring are readings of the run, in order. -/
lemma run_created {rng : R} {acts : List EncoderAction}
    (hrun : Machine.run (step enc coin args) (init rng) acts = some s) :
    (s.ring.map BlockGen.created).Sublist (acts.filterMap EncoderAction.created?) := by
  refine Machine.run_induction (P := fun acts s => (s.ring.map BlockGen.created).Sublist
    (acts.filterMap EncoderAction.created?)) (List.Sublist.refl _) ?_ hrun
  intro acts s a s' _ ih hstep
  have hlast : [a].filterMap EncoderAction.created? = (EncoderAction.created? a).toList := by
    cases a <;> rfl
  rw [List.filterMap_append, hlast]
  exact (created_step hstep).trans (ih.append (List.Sublist.refl _))

/-- The packet was minted in an idle slot of the run, for a block that was in the ring after
pruning. -/
def MintedIdle (enc : SourceBlockEncoder E) (coin : R → Bool × R) (args : Params) (S : Stream)
    (rng : R) (acts : List EncoderAction) (x : Sent) : Prop :=
  ∃ before clock after m bg, acts = before ++ .empty clock :: after ∧
    Machine.run (step enc coin args) (init rng) before = some m ∧
    bg ∈ pruneRing clock args.horizon m.ring ∧ bg.index = x.block ∧
    x.packet = S.packet ⟨x.block, S.k + bg.nextRepairId⟩ ∧
    args.baselineRepair ≤ bg.nextRepairId ∧
    (CreatedInOrder acts →
      elapsed (pruneTime clock args.horizon m.ring) bg.created ≤ args.horizon)

lemma MintedIdle.concat {rng : R} {acts : List EncoderAction} {x : Sent}
    (h : MintedIdle enc coin args S rng acts x) (a : EncoderAction) :
    MintedIdle enc coin args S rng (acts ++ [a]) x := by
  obtain ⟨before, clock, after, m, bg, hcut, hm, hbg, hindex, hpacket, hge, hage⟩ := h
  refine ⟨before, clock, after ++ [a], m, bg, ?_, hm, hbg, hindex, hpacket, hge, fun horder => ?_⟩
  · rw [hcut]
    simp
  · apply hage
    unfold CreatedInOrder at horder
    rw [List.filterMap_append] at horder
    exact (List.pairwise_append.mp horder).1

/-- **Every extra repair symbol** is minted in an idle slot. -/
lemma run_mintedIdle (hs : Serves enc args S) {rng : R} {acts : List EncoderAction}
    (hrun : Machine.run (step enc coin args) (init rng) acts = some s)
    (halive : ∀ a ∈ acts, a ≠ .dropped) (hreads : Reads S s) :
    ∀ x ∈ s.mintedPackets, inBand args S x = false → MintedIdle enc coin args S rng acts x := by
  refine alive_induction hs (P := fun acts s => ∀ x ∈ s.mintedPackets, inBand args S x = false →
    MintedIdle enc coin args S rng acts x) ?_ ?_ hrun halive hreads
  · intro x hx
    cases hx
  · intro acts s a s' hrun halive hreads hinv ih _ hstep _ x hx hout
    have hband := run_inBandInv hs hrun halive hreads
    have hold (hx : x ∈ s.mintedPackets) : MintedIdle enc coin args S rng (acts ++ [a]) x :=
      (ih x hx hout).concat a
    have hsent (hx : x ∈ s.sent) : MintedIdle enc coin args S rng (acts ++ [a]) x :=
      hold (List.mem_append_left _ hx)
    -- most steps mint nothing
    have hkept (hx : x ∈ s.sent ++ []) : MintedIdle enc coin args S rng (acts ++ [a]) x := by
      rw [List.append_nil] at hx
      exact hsent hx
    unfold mintedPackets at hx
    cases step_moves hstep with
    | recv hpoint => exact hkept hx
    | nap hpoint _ _ =>
      simp only [hpoint] at hx
      exact hkept hx
    | @mint clock rng' idx bg hpoint hminting hpick hbg =>
      obtain ⟨hextra, -⟩ := hinv.minted hs hpoint hpick hbg
      have hmem := List.mem_of_getElem? hbg
      have hge := hband.ring_ge bg ((pruneRing_suffix _ _ _).subset hmem)
      simp only [hextra] at hx
      rcases List.mem_append.mp hx with hx | hx
      · exact hsent hx
      · have hx : x = ⟨S.packet ⟨bg.index, S.k + bg.nextRepairId⟩, bg.index⟩ :=
          List.mem_singleton.mp hx
        rw [hx]
        refine ⟨acts, clock, [], s, bg, rfl, hrun, hmem, rfl, rfl, hge, fun horder => ?_⟩
        unfold CreatedInOrder at horder
        rw [List.filterMap_append] at horder
        have hsorted := (List.pairwise_append.mp horder).1
        exact pruneRing_age (hsorted.sublist (run_created hrun)) hmem
    | @send encoder packets packet packets' hpoint hnext =>
      obtain ⟨hin, -⟩ := hband.send hs hpoint hnext
      simp only [pending, List.append_nil] at hx
      rcases List.mem_append.mp hx with hx | hx
      · exact hsent hx
      · rw [List.mem_singleton.mp hx, hin] at hout
        cases hout
    | finish hpoint hnext => exact hkept hx
    | @sendExtra packet l hpoint =>
      refine hold ?_
      unfold mintedPackets
      rw [hpoint]
      simpa [pending] using hx
    | exit ha => exact hkept hx

/-! ## The guarantee -/

/-- An idle slot is not wasted: the next repair symbol of some live block is put in it. -/
lemma step_empty_sends (hs : Serves enc args S) (hinv : Inv enc args S s)
    (hband : InBandInv enc args S s) {clock : ℕ → Instant}
    (hstep : step enc coin args s (.empty clock) = some s')
    (hlive : ∃ bg ∈ pruneRing clock args.horizon s.ring, bg.exhausted = false) :
    ∃ bg ∈ pruneRing clock args.horizon s.ring, bg.exhausted = false ∧
      args.baselineRepair ≤ bg.nextRepairId ∧ bg.nextRepairId < args.maxRepair ∧
      s'.point = .sendingExtra (S.packet ⟨bg.index, S.k + bg.nextRepairId⟩) bg.index := by
  obtain ⟨bg, hbg, hex⟩ := hlive
  have hpicked := pickBlock_isSome coin hbg hex s.rng
  cases step_moves hstep with
  | nap _ _ hpick =>
    rw [hpick] at hpicked
    cases hpicked
  | @mint clock rng idx bg hpoint _ hpick hbg =>
    obtain ⟨hextra, hlt⟩ := hinv.minted hs hpoint hpick hbg
    have hmem := List.mem_of_getElem? hbg
    have hge := hband.ring_ge bg ((pruneRing_suffix _ _ _).subset hmem)
    obtain ⟨bg', hbg', hlive⟩ : Live (pruneRing clock args.horizon s.ring) idx :=
      pickBlock_live coin (congrArg Prod.fst hpick)
    obtain rfl := Option.some.inj (hbg.symm.trans hbg')
    refine ⟨bg, hmem, hlive, hge, hlt, ?_⟩
    simp only [hextra]
  | exit ha => rcases ha with ha | ha <;> cases ha

/-- An extra repair symbol that is to be sent is sent next, if there is a writer. -/
lemma step_sendingExtra {packet : EncodingPacket} {l : ℕ} {a : EncoderAction}
    (hpoint : s.point = .sendingExtra packet l) (ha : a ≠ .dropped)
    (hstep : step enc coin args s a = some s') : s'.sent = s.sent ++ [⟨packet, l⟩] := by
  unfold step at hstep
  rw [hpoint] at hstep
  cases a with
  | send =>
    obtain rfl := Option.some.inj hstep
    rfl
  | dropped => exact absurd rfl ha
  | recv _ | empty _ | disconnected | finish _ _ => cases hstep

/-- **Repair symbols are minted once.** In every run with a writer, the repair ids of a block
sent in-band are `0, …, n - 1` with `n` between the baseline and the ceiling; an extra repair
symbol is of a block within the horizon at the pruning before it; and in an idle slot that finds
a block to protect, the next repair symbol of such a block is sent. -/
theorem repair_minted_once (hs : Serves enc args S) (hle : args.baselineRepair ≤ args.maxRepair)
    {rng : R} {acts : List EncoderAction}
    (hrun : Machine.run (step enc coin args) (init rng) acts = some s)
    (halive : ∀ a ∈ acts, a ≠ .dropped) (hreads : Reads S s) :
    (∀ l < s.received.length, (∀ x ∈ inBandOf enc args S l, x ∈ s.sent) →
      ∃ n, repairIds S l s.sent = List.range n ∧ args.baselineRepair ≤ n ∧
        n ≤ args.maxRepair) ∧
    (CreatedInOrder acts → ∀ x ∈ s.sent, inBand args S x = false →
      ∃ before clock after m bg, acts = before ++ .empty clock :: after ∧
        Machine.run (step enc coin args) (init rng) before = some m ∧
        bg ∈ pruneRing clock args.horizon m.ring ∧ bg.index = x.block ∧
        x.esi = S.k + bg.nextRepairId ∧
        elapsed (pruneTime clock args.horizon m.ring) bg.created ≤ args.horizon) ∧
    (∀ before clock after m m', acts = before ++ .empty clock :: after →
      Machine.run (step enc coin args) (init rng) before = some m →
      step enc coin args m (.empty clock) = some m' →
      (∃ bg ∈ pruneRing clock args.horizon m.ring, bg.exhausted = false) →
        ∃ bg ∈ pruneRing clock args.horizon m.ring, bg.exhausted = false ∧
          args.baselineRepair ≤ bg.nextRepairId ∧ bg.nextRepairId < args.maxRepair ∧
          m'.point = .sendingExtra (S.packet ⟨bg.index, S.k + bg.nextRepairId⟩) bg.index ∧
          ∀ a m'', a ≠ .dropped → step enc coin args m' a = some m'' →
            m''.sent = m'.sent ++ [⟨S.packet ⟨bg.index, S.k + bg.nextRepairId⟩, bg.index⟩]) := by
  have hband := run_inBandInv hs hrun halive hreads
  refine ⟨fun l hl hall => ?_, fun horder x hx hout => ?_, ?_⟩
  · exact (run_repairInv hs hle hrun halive hreads).of_inBand_sent hs hle hband hl hall
  · obtain ⟨before, clock, after, m, bg, hcut, hm, hbg, hindex, hpacket, -, hage⟩ :=
      run_mintedIdle hs hrun halive hreads x (List.mem_append_left _ hx) hout
    refine ⟨before, clock, after, m, bg, hcut, hm, hbg, hindex, ?_, hage horder⟩
    unfold Sent.esi
    rw [hpacket]
    rfl
  · intro before clock after m m' hcut hm hstep hlive
    have hreadsm : Reads S m := by
      rw [hcut] at hrun
      obtain ⟨m₁, hm₁, hrest⟩ := Machine.run_append_eq_some.mp hrun
      obtain rfl := Option.some.inj (hm.symm.trans hm₁)
      exact hreads.mono (received_run hrest)
    have halivem : ∀ a ∈ before, a ≠ .dropped := fun a ha =>
      halive a (by rw [hcut]; exact List.mem_append_left _ ha)
    obtain ⟨bg, hmem, hlivebg, hge, hlt, hpoint⟩ := step_empty_sends hs
      (Reachable.inv hs ⟨before, hm⟩ hreadsm) (run_inBandInv hs hm halivem hreadsm) hstep hlive
    exact ⟨bg, hmem, hlivebg, hge, hlt, hpoint, fun a m'' ha => step_sendingExtra hpoint ha⟩

/-- Three repair symbols have been sent of the first block, and two of the last one. -/
theorem repair_minted_once_idle : ∃ s : Encoder Reference.Encoder Xorshift64,
    Machine.run (step Reference.encoder Xorshift64.coin oneExtra) (init (.new 1)) idleRun
        = some s ∧
      s.sent = idleSent ∧ ∀ l < 3, ∃ n, repairIds Reference.pairStream l idleSent = List.range n ∧
        2 ≤ n ∧ n ≤ 3 := by
  obtain ⟨s, hrun, halive, hreads, hreceived, hsent⟩ := exists_idleRun
  have hall : ∀ l < 3, ∀ x ∈ inBandOf Reference.encoder oneExtra Reference.pairStream l,
      x ∈ idleSent := by
    decide +kernel
  refine ⟨s, hrun, hsent, fun l hl => ?_⟩
  rw [← hsent] at hall ⊢
  exact (repair_minted_once oneExtra_serves (by decide) hrun halive hreads).1 l
    (by rw [hreceived]; simpa using hl) (hall l hl)

end Encoder

end RaptorqTs.Enc
