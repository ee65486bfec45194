import RaptorqTs.Dec.TuneIn
import RaptorqTs.Enc.Shutdown

/-!
# What the link may lose

The in-band packets of a block are `k + baseline_repair` different ones, and all of them are
sent before any packet of a later block. So if `k + δ` packets suffice for a block, a link that
loses at most `baseline_repair - δ` in-band packets of each block delivers every block in time,
and what happens to the extra repair symbols does not matter.
-/

namespace RaptorqTs

/-! ## The order of the packets -/

namespace Enc

namespace Encoder

variable {E : Type} {enc : SourceBlockEncoder E} {args : Params} {S : Stream}

/-- The in-band packets of each block have the first ESIs. -/
lemma inBandOf_esis (hs : Serves enc args S) (l : ℕ) :
    ((inBandOf enc args S l).map fun x => x.origin.esi).Perm
      (List.range (S.k + args.baselineRepair)) := by
  have hperm := (inBandOf_perm hs l).map fun x => x.origin.esi
  rw [List.map_map] at hperm
  refine hperm.trans (List.Perm.of_eq ?_)
  exact List.map_id _

/-- The packets of block `l` among the in-band packets. -/
lemma filter_inBandUpTo (n l : ℕ) :
    (inBandUpTo enc args S n).filter (fun x => x.block = l) =
      if l < n then inBandOf enc args S l else [] := by
  have hown (i : ℕ) : (inBandOf enc args S i).filter (fun x => x.block = l) =
      if i = l then inBandOf enc args S l else [] := by
    split_ifs with hil
    · subst hil
      rw [List.filter_eq_self]
      intro x hx
      exact decide_eq_true (block_of_mem_ofBlock hx).1
    · rw [List.filter_eq_nil_iff]
      intro x hx
      rw [(block_of_mem_ofBlock hx).1, decide_eq_true_eq]
      exact hil
  induction n with
  | zero => rfl
  | succ n ih =>
    rw [inBandUpTo_succ, List.filter_append, ih, hown]
    by_cases hlt : l < n
    · rw [if_pos hlt, if_neg (by omega), if_pos (by omega), List.append_nil]
    · by_cases hn : n = l
      · rw [if_neg hlt, if_pos hn, if_pos (by omega), List.nil_append]
      · rw [if_neg hlt, if_neg hn, if_neg (by omega), List.nil_append]

lemma inBandUpTo_pairwise (n : ℕ) :
    (inBandUpTo enc args S n).Pairwise fun x y => x.block ≤ y.block := by
  induction n with
  | zero => exact List.Pairwise.nil
  | succ n ih =>
    rw [inBandUpTo_succ, List.pairwise_append]
    refine ⟨ih, ?_, fun x hx y hy => ?_⟩
    · apply List.pairwise_of_forall_mem_list
      intro x hx y hy
      exact ((block_of_mem_ofBlock hx).1.trans (block_of_mem_ofBlock hy).1.symm).le
    · rw [(block_of_mem_ofBlock hy).1]
      exact (mem_inBandUpTo.mp hx).1.le

/-- What is sent in-band later belongs to the same block or a later one. -/
lemma InBandInv.sent_pairwise {R : Type} {s : Encoder E R} (h : InBandInv enc args S s) {n : ℕ}
    (hall : s.sent.filter (inBand args S) = inBandUpTo enc args S n) :
    s.sent.Pairwise fun x y => inBand args S y = true → x.block ≤ y.block := by
  apply List.pairwise_of_forall_sublist
  intro x y hxy hy
  obtain ⟨front, back, hsent, hx, hback⟩ := List.cons_sublist_iff.mp hxy
  obtain ⟨pre, mid, rfl⟩ := List.append_of_mem hx
  have hcut : s.sent = pre ++ x :: (mid ++ back) := by
    rw [hsent, List.append_assoc, List.cons_append]
  have hafter : y ∈ (mid ++ back).filter (inBand args S) :=
    List.mem_filter.mpr ⟨List.mem_append_right _ (List.singleton_sublist.mp hback), hy⟩
  rw [hcut, List.filter_append] at hall
  cases hin : inBand args S x with
  | true =>
    rw [List.filter_cons_of_pos hin] at hall
    have hsorted := @inBandUpTo_pairwise _ enc args S n
    rw [← hall, List.pairwise_append, List.pairwise_cons] at hsorted
    exact hsorted.2.1.1 y hafter
  | false =>
    -- the in-band packets of the first `m` blocks have been sent, those of `x`'s among them
    obtain ⟨m, hm, hpre⟩ := h.extras _ _ _ hcut hin
    rw [List.filter_cons_of_neg (by rw [hin]; nofun), hpre] at hall
    by_cases hmn : m ≤ n
    · obtain ⟨d, rfl⟩ := Nat.exists_eq_add_of_le hmn
      rw [inBandUpTo_add] at hall
      rw [List.append_cancel_left hall, List.mem_flatMap] at hafter
      obtain ⟨i, -, hi⟩ := hafter
      have hblock := (block_of_mem_ofBlock hi).1
      omega
    · obtain ⟨d, rfl⟩ := Nat.exists_eq_add_of_lt (Nat.lt_of_not_le hmn)
      rw [Nat.add_assoc, inBandUpTo_add, List.append_assoc] at hall
      have hnil := (List.append_eq_nil_iff.mp (List.append_right_eq_self.mp hall)).2
      rw [hnil] at hafter
      cases hafter

end Encoder

/-- The origins on the wire are those of the items. -/
lemma Numbered.origins_eq {codec : WireCodec} {pid : UInt16}
    {oti : ObjectTransmissionInformation} {items : List (Option Sent)} {frames : List WireFrame}
    (h : Numbered codec pid oti items frames) :
    origins frames = (items.filterMap id).map Sent.origin := by
  have horigins : frames.map WireFrame.origin = items.map (Option.map Sent.origin) := by
    apply List.ext_getElem (by rw [List.length_map, List.length_map, h.length_eq])
    intro i hi hi'
    rw [List.length_map] at hi hi'
    rw [List.getElem_map, List.getElem_map]
    exact (h.carries i _ _ (List.getElem?_eq_getElem hi') (List.getElem?_eq_getElem hi)).origin
  calc origins frames = (frames.map WireFrame.origin).filterMap id := by
        rw [List.filterMap_map]
        rfl
    _ = (items.filterMap id).map Sent.origin := by
        rw [horigins, List.filterMap_map, List.map_filterMap]
        rfl

end Enc

/-! ## Losses -/

/-- The ESIs of the in-band packets of block `l` among some packets. -/
def inBandEsis (args : Enc.Params) (k l : ℕ) (os : List Origin) : List ℕ :=
  (esisOf l os).filter fun esi => esi < k + args.baselineRepair

/-- The link delivers some of the frames on the wire, in order, and loses at most `m` of the
in-band packets of each block. -/
structure Loses (args : Enc.Params) (k m : ℕ) (wire frames : List WireFrame) : Prop where
  sublist : frames.Sublist wire
  le_delivered : ∀ l, (inBandEsis args k l (origins wire)).length ≤
    (inBandEsis args k l (origins frames)).length + m

/-- Any `k + δ` of the first `n` packets of a block of `k` symbols suffice. -/
def FountainCode.Overhead (code : FountainCode) (k n δ : ℕ) : Prop :=
  ∀ esis ⊆ Finset.range n, k + δ ≤ esis.card → code.Sufficient k esis

/-- The packets of `n` blocks, each of which is sent in-band before any later block. -/
structure InBandFirst (args : Enc.Params) (k n : ℕ) (os : List Origin) : Prop where
  esis : ∀ l < n, (inBandEsis args k l os).Perm (List.range (k + args.baselineRepair))
  order : os.Pairwise fun o o' => o'.esi < k + args.baselineRepair → o.block ≤ o'.block
  block_lt : ∀ o ∈ os, o.block < n
  esi_lt : ∀ o ∈ os, o.esi < 2 ^ 24

section Margin

variable {args : Enc.Params} {k l m n δ maxInFlight : ℕ} {os pre post : List Origin} {o : Origin}
  {wire frames : List WireFrame} {code : FountainCode}

lemma inBandEsis_sublist {os' : List Origin} (h : os.Sublist os') :
    (inBandEsis args k l os).Sublist (inBandEsis args k l os') :=
  ((h.filter _).map _).filter _

/-- When a later block begins, the block has been sent in-band. -/
lemma inBandEsis_of_cut
    (horder : os.Pairwise fun o o' => o'.esi < k + args.baselineRepair → o.block ≤ o'.block)
    (hcut : os = pre ++ o :: post) (hl : l < o.block) :
    inBandEsis args k l os = inBandEsis args k l pre := by
  rw [hcut, List.pairwise_append, List.pairwise_cons] at horder
  have hrest : inBandEsis args k l (o :: post) = [] := by
    rw [inBandEsis, List.filter_eq_nil_iff]
    intro esi hesi
    rw [decide_eq_true_eq]
    intro hin
    rcases List.mem_cons.mp (mem_esisOf.mp hesi) with heq | hpost
    · rw [← heq] at hl
      exact Nat.lt_irrefl l hl
    · have hle : o.block ≤ l := horder.2.1.1 _ hpost hin
      omega
  rw [hcut, inBandEsis, esisOf_append, List.filter_append]
  show _ ++ inBandEsis args k l (o :: post) = _
  rw [hrest, List.append_nil]
  rfl

/-- A part of the delivery makes a block ready if it holds all in-band packets of the block that
are delivered, and not too many are lost. -/
lemma ready_of_margin (hwire : InBandFirst args k n (origins wire))
    (hsub : (origins frames).Sublist (origins wire)) (hmono : code.Monotone k)
    (hcode : code.Overhead k (k + args.baselineRepair) δ)
    (hm : m + δ ≤ args.baselineRepair) (hl : l < n)
    (hlost : (inBandEsis args k l (origins wire)).length ≤
      (inBandEsis args k l (origins frames)).length + m)
    (hsame : inBandEsis args k l (origins frames) = inBandEsis args k l pre) :
    k + δ ≤ (inBandEsis args k l pre).length ∧ Ready code k l pre := by
  have hlen : k + δ ≤ (inBandEsis args k l pre).length := by
    rw [(hwire.esis l hl).length_eq, List.length_range, hsame] at hlost
    omega
  have hnodup : (inBandEsis args k l pre).Nodup := by
    rw [← hsame]
    apply List.Nodup.sublist (inBandEsis_sublist hsub)
    exact (hwire.esis l hl).nodup_iff.mpr List.nodup_range
  have hinBand : (inBandEsis args k l pre).toFinset ⊆ Finset.range (k + args.baselineRepair) := by
    intro esi hesi
    rw [Finset.mem_range]
    exact of_decide_eq_true (List.mem_filter.mp (List.mem_toFinset.mp hesi)).2
  have hall : (inBandEsis args k l pre).toFinset ⊆ (esisOf l pre).toFinset := by
    intro esi hesi
    rw [List.mem_toFinset] at hesi ⊢
    exact List.mem_of_mem_filter hesi
  refine ⟨hlen, pre, List.prefix_rfl, hmono _ _ hall (hcode _ hinBand ?_)⟩
  rw [List.toFinset_card_of_nodup hnodup]
  exact hlen

/-- **Margin.** A link that loses no more in-band packets of a block than its baseline repair,
less the overhead of the code, delivers every block in time. -/
theorem Loses.inTime (h : Loses args k m wire frames)
    (hwire : InBandFirst args k n (origins wire)) (hmono : code.Monotone k)
    (hcode : code.Overhead k (k + args.baselineRepair) δ)
    (hm : m + δ ≤ args.baselineRepair) (hk : 1 ≤ k) (hM : 1 ≤ maxInFlight) :
    InTime code k maxInFlight (origins frames) ∧ ∀ l < n, Ready code k l (origins frames) := by
  have hsub : (origins frames).Sublist (origins wire) := h.sublist.filterMap _
  have horder := hwire.order.sublist hsub
  have hcut {pre post : List Origin} {o : Origin} (hcut : origins frames = pre ++ o :: post)
      {l : ℕ} (hl : l < o.block) :
      k + δ ≤ (inBandEsis args k l pre).length ∧ Ready code k l pre := by
    have ho : o ∈ origins frames := by
      rw [hcut]
      exact List.mem_append_right _ (List.mem_cons_self ..)
    exact ready_of_margin hwire hsub hmono hcode hm (hl.trans (hwire.block_lt o (hsub.subset ho)))
      (h.le_delivered l) (inBandEsis_of_cut horder hcut hl)
  refine ⟨⟨fun o ho => ?_, fun pre o post hos l hl => (hcut hos (by omega)).2⟩, fun l hl =>
    (ready_of_margin hwire hsub hmono hcode hm hl (h.le_delivered l) rfl).2⟩
  obtain ⟨post, hpost⟩ : ∃ post, origins frames = [] ++ o :: post :=
    ⟨_, (List.cons_head?_tail ho).symm⟩
  by_contra hne
  -- the first block is not ready before its first packet
  have hlen := (hcut hpost (Nat.pos_of_ne_zero hne)).1
  have hnil : (inBandEsis args k 0 []).length = 0 := rfl
  omega

/-- The link delivers nothing before some packet of block `j`, and then no packet of an earlier
block; it loses at most `m` of the in-band packets of each later block. -/
structure JoinsAt (args : Enc.Params) (k m j : ℕ) (wire frames : List WireFrame) : Prop where
  sublist : frames.Sublist wire
  head : ∀ o ∈ (origins frames).head?, o.block = j
  le_block : ∀ o ∈ origins frames, j ≤ o.block
  le_delivered : ∀ l, j < l → (inBandEsis args k l (origins wire)).length ≤
    (inBandEsis args k l (origins frames)).length + m

/-- With the same margin every block after the one tuned in is delivered in time. -/
theorem JoinsAt.tunesIn {j : ℕ} (h : JoinsAt args k m j wire frames)
    (hwire : InBandFirst args k n (origins wire)) (hmono : code.Monotone k)
    (hcode : code.Overhead k (k + args.baselineRepair) δ) (hm : m + δ ≤ args.baselineRepair)
    (hlag : (origins frames).Pairwise fun o o' => o.block < o'.block + 128) :
    TunesIn code k j n (origins frames) ∧
      ∀ l, j < l → l < n → Ready code k l (origins frames) := by
  have hsub : (origins frames).Sublist (origins wire) := h.sublist.filterMap _
  refine ⟨⟨h.head, h.le_block, fun o ho => hwire.block_lt o (hsub.subset ho),
    fun o ho => hwire.esi_lt o (hsub.subset ho), hlag, fun pre o post hcut l hjl hl => ?_⟩,
    fun l hjl hln => ?_⟩
  · have ho : o ∈ origins frames := by
      rw [hcut]
      exact List.mem_append_right _ (List.mem_cons_self ..)
    exact (ready_of_margin hwire hsub hmono hcode hm (hl.trans (hwire.block_lt o (hsub.subset ho)))
      (h.le_delivered l hjl) (inBandEsis_of_cut (hwire.order.sublist hsub) hcut hl)).2
  · exact (ready_of_margin hwire hsub hmono hcode hm hln (h.le_delivered l hjl) rfl).2

end Margin

/-! ## The wire of a pipeline that has ended -/

namespace Enc.Pipeline

variable {E R : Type} {setup : Setup E R} {stdin : Bytes} {rng : R} {p : Pipeline E R}
  {code : FountainCode} {k : ℕ}

lemma inBandEsis_sent (args : Params) (S : Stream) (l : ℕ) (sent : List Sent) :
    inBandEsis args S.k l (sent.map Sent.origin) =
      ((sent.filter (Encoder.inBand args S)).filter fun x => x.block = l).map
        fun x => x.origin.esi := by
  rw [inBandEsis, esisOf, List.filter_map, List.filter_filter, List.filter_map, List.map_map,
    List.filter_filter]
  exact congrArg _ (List.filter_congr fun x _ => Bool.and_comm _ _)

/-- The whole input is on the wire, block by block. -/
lemma Inv.inBandFirst (h : Inv setup stdin rng p) (hended : p.Ended) (hfits : setup.args.Fits k)
    (hcode : code.Laws symbolSize) (henc : setup.enc.Laws code setup.args.oti k) :
    InBandFirst setup.args k (numBlocks (k * symbolSize) stdin) (origins p.writer.wire) := by
  have hpos : 0 < k * symbolSize := Nat.mul_pos hfits.k_pos symbolSize_pos
  have hserves := h.serves hfits henc
  obtain ⟨all, hall⟩ := h.writer_run.numbered (h.fitting hfits hcode henc)
  obtain ⟨items, hitems, -, hend⟩ := hall.wire
  obtain ⟨hreceived, hwritten⟩ := h.ended hended
  have hblocks : p.reader.sent.length = numBlocks (k * symbolSize) stdin :=
    numBlocks_of_flatten hpos (h.sent_length hfits) (h.sent_flatten hended hfits)
  have hinBand := h.inBand hended hfits henc
  rw [hblocks] at hinBand
  obtain ⟨acts, hrun, hdrop⟩ := h.encoder_run
  have halive : ∀ a ∈ acts, a ≠ .dropped := by
    intro a ha hdropped
    have herror := hdrop (hdropped ▸ ha)
    rw [hended.2.2] at herror
    cases herror
  have hinv := Encoder.run_inBandInv hserves hrun halive h.reads
  have hmints := (Encoder.Reachable.inv hserves ⟨acts, hrun⟩ h.reads).mints
  rw [hitems.origins_eq, hend hended.2.2, hwritten]
  refine ⟨fun l hl => ?_, ?_, ?_, ?_⟩
  · have hesis := inBandEsis_sent setup.args (streamOf code k p.reader.sent) l p.encoder.sent
    rw [hinBand, Encoder.filter_inBandUpTo, if_pos hl] at hesis
    show (inBandEsis setup.args (streamOf code k p.reader.sent).k l _).Perm _
    rw [hesis]
    exact Encoder.inBandOf_esis hserves l
  · exact List.pairwise_map.mpr ((hinv.sent_pairwise hinBand).imp fun hle hesi =>
      hle (decide_eq_true hesi))
  · intro o ho
    obtain ⟨x, hx, rfl⟩ := List.mem_map.mp ho
    have hlt := (hmints x hx).2
    rw [hreceived, hblocks] at hlt
    exact hlt
  · intro o ho
    obtain ⟨x, hx, rfl⟩ := List.mem_map.mp ho
    exact (hmints x hx).1.2

end Enc.Pipeline

end RaptorqTs
