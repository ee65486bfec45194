import RaptorqTs.Dec.Window

/-!
# Routing by source block number

A frame is routed to the block number nearest to the cursor with the frame's SBN. The clamp
at zero breaks this for one kind of state: while the cursor is zero, a frame of the upper
half of the SBNs, which belongs to a block before the first, is routed to block 0.
-/

namespace RaptorqTs

variable {D : Type} {env : Env D}

/-! ## The decoders in the pool -/

/-- Every decoder in the pool was constructed with the SBN of its key, and the block the
numbering was joined at is in the pool until the cursor passes it. -/
structure SbnInv (env : Env D) (w : Window D) : Prop where
  decoder_sbn : ∀ {k b}, w.pool[k]? = some b → env.dec.sourceBlockId b.decoder = sbnOf k
  first_mem : w.started = true → w.cursor = w.first → ∃ b, w.pool[w.first]? = some b

lemma BlockState.ingest_sourceBlockId {dec : SourceBlockDecoder D} (hlaws : dec.SbnLaws)
    {b b' : BlockState D} {p : EncodingPacket} (h : b.ingest dec p = some b') :
    dec.sourceBlockId b'.decoder = dec.sourceBlockId b.decoder := by
  rcases BlockState.ingest_cases h with ⟨-, rfl⟩ | ⟨-, r, d, hdecode, rfl⟩
  · rfl
  · exact hlaws.decode_sourceBlockId hdecode

/-- A frame that is not redundant is routed to a block number with its SBN, unless it is
clamped to a cursor at zero. -/
lemma Window.route_mod {w : Window D} {sbnU8 : UInt8} (hred : w.redundant sbnU8 = false) :
    w.route sbnU8 % 256 = sbnU8.toNat ∨
      (w.started = true ∧ w.cursor = 0 ∧ 128 ≤ sbnU8.toNat ∧ w.route sbnU8 = 0) := by
  cases hstarted : w.started with
  | false =>
    left
    rw [Window.route_of_idle hstarted]
    exact Nat.mod_eq_of_lt sbnU8.toNat_lt
  | true =>
    have hle := Window.cursor_le_route hred
    rw [Window.joined_of_started hstarted, Window.route_of_started hstarted] at hle
    rw [Window.route_of_started hstarted]
    rcases unwrapSbn_mod_or_clamped w.cursor sbnU8 with hmod | ⟨hzero, -, hge⟩
    · exact Or.inl hmod
    · rw [hzero] at hle
      exact Or.inr ⟨rfl, by omega, by omega, hzero⟩

lemma sbnOf_of_mod {t : ℕ} {sbnU8 : UInt8} (h : t % 256 = sbnU8.toNat) : sbnOf t = sbnU8 := by
  apply UInt8.toNat_inj.mp
  rw [toNat_sbnOf, h]

/-- The pool entry a frame is ingested into has the SBN of its key, whether it is in the
pool or new. -/
lemma SbnInv.entry_sbn (hlaws : env.dec.SbnLaws) {w : Window D} (hwf : w.Wf)
    (h : SbnInv env w) {sbnU8 : UInt8} (hred : w.redundant sbnU8 = false) (now : Instant)
    (oti : ObjectTransmissionInformation) :
    env.dec.sourceBlockId (w.entry env now (w.route sbnU8) sbnU8 oti).decoder
      = sbnOf (w.route sbnU8) := by
  cases hb : w.pool[w.route sbnU8]? with
  | some b =>
    rw [Window.entry_of_get hb]
    exact h.decoder_sbn hb
  | none =>
    rw [Window.entry_of_absent hb]
    have hmod : w.route sbnU8 % 256 = sbnU8.toNat := by
      rcases Window.route_mod hred with hmod | ⟨hstarted, hcursor, -, hroute⟩
      · exact hmod
      · -- a clamped frame finds block 0 in the pool
        have hfirst := hwf.first_le
        obtain ⟨b, hfirst⟩ := h.first_mem hstarted (by omega)
        rw [show w.first = 0 by omega, ← hroute, hb] at hfirst
        cases hfirst
    rw [sbnOf_of_mod hmod]
    exact hlaws.new_sourceBlockId _ _ _

lemma SbnInv.accept {w : Window D} (h : SbnInv env w) {sbnU8 : UInt8} {b : BlockState D}
    (hb : env.dec.sourceBlockId b.decoder = sbnOf (w.route sbnU8)) :
    SbnInv env ((w.joined sbnU8).hold (w.route sbnU8) b) := by
  refine ⟨fun {k b'} hk => ?_, fun _ hcursor => ?_⟩
  · rcases Window.get_of_get_hold hk with ⟨rfl, rfl⟩ | ⟨-, hbefore⟩
    · exact hb
    · exact h.decoder_sbn hbefore
  · rw [Window.hold_first, Window.hold_cursor] at *
    rw [Window.get_hold, Window.joined_pool]
    by_cases hroute : w.route sbnU8 = (w.joined sbnU8).first
    · exact ⟨b, if_pos hroute⟩
    · rw [if_neg hroute]
      cases hstarted : w.started with
      | false => exact absurd (by rw [Window.route_of_idle hstarted,
          Window.joined_of_idle hstarted]) hroute
      | true =>
        rw [Window.joined_of_started hstarted] at hcursor ⊢
        exact h.first_mem hstarted hcursor

lemma SbnInv.advance {w : Window D} (hwf : w.Wf) (h : SbnInv env w) :
    SbnInv env w.advance where
  decoder_sbn hk := h.decoder_sbn (Window.get_of_get_advance hk).2
  first_mem _ hcursor := by
    have hle := hwf.first_le
    rw [Window.advance_cursor, Window.advance_first] at hcursor
    omega

lemma Reachable.sbnInv (hlaws : env.dec.SbnLaws) {c : Conf D} (h : Reachable env c)
    (hopen : c.point ≠ .closed) : SbnInv env c.window := by
  apply h.open_induction (P := SbnInv env) _ _ _ hopen
  · refine ⟨fun hk => ?_, fun hs _ => ?_⟩
    · rw [Window.get_init] at hk
      cases hk
    · cases hs
  · intro w now oti pkt b hwf hsbn hred hb
    apply hsbn.accept
    rw [BlockState.ingest_sourceBlockId hlaws hb]
    exact hsbn.entry_sbn hlaws hwf hred _ _
  · intro w t hwf hsbn _
    exact hsbn.advance hwf

/-! ## The routing law -/

/-- A data frame is routed by its SBN. `t` is the index of the block it belongs to, in the
decoder's numbering: `first - 1` for a late packet of the block just before the one the
decoder started on. -/
structure RoutedBySbn (env : Env D) (w : Window D) (oti : ObjectTransmissionInformation)
    (pkt : EncodingPacket) (t : ℤ) (ev : Event) : Prop where
  key : ∀ {logical}, acceptedBlock env w ev = some logical →
    logical % 256 = pkt.payloadId.sourceBlockNumber.toNat
  decoder : ∀ {logical}, acceptedBlock env w ev = some logical → ∀ now,
    env.dec.sourceBlockId
      (w.entry env now logical pkt.payloadId.sourceBlockNumber oti).decoder
      = pkt.payloadId.sourceBlockNumber
  late : w.started = true → t = w.first - 1 → acceptedBlock env w ev = none

/-- When a packet of the block before the first is recognised as late. -/
lemma redundant_late {w : Window D} (hwf : w.Wf) (hstarted : w.started = true)
    {sbnU8 : UInt8} (hsbn : ((w.first : ℤ) - 1) % 256 = sbnU8.toNat)
    (hclamp : w.cursor = 0 → sbnU8.toNat < 128) :
    w.redundant sbnU8 = true ↔ (w.cursor - w.first) % 256 < 128 := by
  have hle := hwf.first_le
  have hs := sbnU8.toNat_lt
  rw [Window.redundant_of_started hstarted, decide_eq_true_eq]
  obtain ⟨diff, hlo, hhi, hmod, heq⟩ := unwrapSbn_spec w.cursor sbnU8
  rw [heq]
  by_cases hzero : w.cursor = 0
  · have := hclamp hzero
    omega
  · constructor <;> intro h <;> omega

/-- **SBN routing.** A sane data frame is routed by its SBN exactly when it is not from the
upper half of the SBNs while the cursor is zero, and, if it is a late packet of the block
before the first, when it is late by less than half a period of the SBN. -/
theorem routedBySbn_iff (hlaws : env.dec.SbnLaws) {c : Conf D} (h : Reachable env c)
    (hrecv : c.point = .recv) {ev : Event} {oti : ObjectTransmissionInformation}
    {pkt : EncodingPacket} (hev : saneFrame env ev = some (oti, pkt)) {t : ℤ}
    (ht : t % 256 = pkt.payloadId.sourceBlockNumber.toNat) :
    RoutedBySbn env c.window oti pkt t ev ↔
      (c.window.started = true →
        (c.window.cursor = 0 → pkt.payloadId.sourceBlockNumber.toNat < 128) ∧
        (t = c.window.first - 1 → (c.window.cursor - c.window.first) % 256 < 128)) := by
  have hopen : c.point ≠ .closed := by
    rw [hrecv]
    decide
  have hwf := h.wf hopen
  have hsbn := h.sbnInv hlaws hopen
  have haccept : ∀ {logical}, acceptedBlock env c.window ev = some logical ↔
      c.window.redundant pkt.payloadId.sourceBlockNumber = false ∧
        c.window.route pkt.payloadId.sourceBlockNumber = logical := by
    intro logical
    rw [acceptedBlock_eq_some, hev]
    constructor
    · rintro ⟨_, _, hpkt, hred, hroute⟩
      obtain ⟨rfl, rfl⟩ := Prod.mk.inj (Option.some.inj hpkt)
      exact ⟨hred, hroute⟩
    · rintro ⟨hred, hroute⟩
      exact ⟨oti, pkt, rfl, hred, hroute⟩
  have hnone : acceptedBlock env c.window ev = none ↔
      c.window.redundant pkt.payloadId.sourceBlockNumber = true := by
    simp only [acceptedBlock, hev]
    simp
  constructor
  · rintro ⟨hkey, -, hlate⟩ hstarted
    have hclamp : c.window.cursor = 0 → pkt.payloadId.sourceBlockNumber.toNat < 128 := by
      intro hzero
      by_contra hge
      -- the frame is clamped to block 0 and accepted there
      have hroute : c.window.route pkt.payloadId.sourceBlockNumber = 0 := by
        rw [Window.route_of_started hstarted, hzero]
        exact unwrapSbn_zero_of_ge (by omega)
      have hred : c.window.redundant pkt.payloadId.sourceBlockNumber = false := by
        rw [Window.redundant, Window.joined_of_started hstarted, hzero]
        simp
      have := hkey (haccept.mpr ⟨hred, hroute⟩)
      omega
    refine ⟨hclamp, fun hfirst => ?_⟩
    rw [hfirst] at ht
    exact (redundant_late hwf hstarted ht hclamp).mp (hnone.mp (hlate hstarted hfirst))
  · intro hcond
    have hkey : ∀ {logical}, acceptedBlock env c.window ev = some logical →
        logical % 256 = pkt.payloadId.sourceBlockNumber.toNat := by
      intro logical hlogical
      obtain ⟨hred, rfl⟩ := haccept.mp hlogical
      rcases Window.route_mod hred with hmod | ⟨hstarted, hzero, hge, -⟩
      · exact hmod
      · have := (hcond hstarted).1 hzero
        omega
    refine ⟨hkey, fun hlogical now => ?_, fun hstarted hfirst => ?_⟩
    · have hmod := hkey hlogical
      obtain ⟨hred, rfl⟩ := haccept.mp hlogical
      rw [hsbn.entry_sbn hlaws hwf hred, sbnOf_of_mod hmod]
    · obtain ⟨hclamp, hlate⟩ := hcond hstarted
      rw [hfirst] at ht
      exact hnone.mpr ((redundant_late hwf hstarted ht hclamp).mpr (hlate hfirst))

/-- The block with SBN 0 that the decoder joins at in the examples below, as its packets with
ESI 0. -/
def joinAtZero : List Action :=
  [.event 0 (Reference.frame 2 0 0 (Reference.flat 1)), .pass (Clock.at 0)]

/-- With block 0 open, a packet of block 1 is routed by its SBN. -/
theorem routedBySbn_next : ∃ c : Conf Reference.Decoder,
    RoutedBySbn (Reference.env 8) c.window (blockOti (2 * symbolSize) symbolSize)
      ⟨⟨1, 0⟩, Reference.flat 2⟩ 1 (Reference.frame 2 1 0 (Reference.flat 2)) := by
  have hrun : (runFrom (Reference.env 8) 0 joinAtZero).map
      (fun c => (c.point, c.window.first)) = some (.recv, 0) := by
    decide +kernel
  obtain ⟨c, hc, hobs⟩ := exists_of_run_map hrun
  simp only [Prod.mk.injEq] at hobs
  refine ⟨c, (routedBySbn_iff Reference.decoder_sbnLaws ⟨0, _, hc⟩ hobs.1 (by decide +kernel)
    (by decide)).mpr fun _ => ⟨fun _ => by decide, fun ht => ?_⟩⟩
  rw [hobs.2] at ht
  cases ht

/-- With block 0 open, a late packet of the block before it, which has SBN 255, is routed to
block 0, and the FEC decoder panics. -/
theorem routedBySbn_clamped : ∃ c : Conf Reference.Decoder,
    Reachable (Reference.env 8) c ∧ c.point = .recv ∧
      saneFrame (Reference.env 8) (Reference.frame 2 255 0 (Reference.flat 2)) =
        some (blockOti (2 * symbolSize) symbolSize, ⟨⟨255, 0⟩, Reference.flat 2⟩) ∧
      (-1 : ℤ) % 256 = (255 : UInt8).toNat ∧
      ¬ RoutedBySbn (Reference.env 8) c.window (blockOti (2 * symbolSize) symbolSize)
        ⟨⟨255, 0⟩, Reference.flat 2⟩ (-1) (Reference.frame 2 255 0 (Reference.flat 2)) ∧
      (step (Reference.env 8) c (.event 0 (Reference.frame 2 255 0 (Reference.flat 2)))).isNone := by
  have hrun : (runFrom (Reference.env 8) 0 joinAtZero).map
      (fun c => (c.point, acceptedBlock (Reference.env 8) c.window
          (Reference.frame 2 255 0 (Reference.flat 2)),
        (step (Reference.env 8) c
          (.event 0 (Reference.frame 2 255 0 (Reference.flat 2)))).isNone))
        = some (.recv, some 0, true) := by
    decide +kernel
  obtain ⟨c, hc, hobs⟩ := exists_of_run_map hrun
  simp only [Prod.mk.injEq] at hobs
  refine ⟨c, ⟨0, _, hc⟩, hobs.1, by decide +kernel, by decide, fun h => ?_, hobs.2.2⟩
  have hmod := h.key hobs.2.1
  revert hmod
  decide

end RaptorqTs
