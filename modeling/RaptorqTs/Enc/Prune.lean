import RaptorqTs.Enc.Repair

/-!
# Pruning from the front

`prune_ring` looks at the front of the ring only, while blocks further back are exhausted in any
order. It is enough for the horizon, the blocks being in the order of their creation, and
`pick_block` passes over the blocks that are exhausted.
-/

namespace RaptorqTs.Enc

section Ring

variable {E : Type} {clock : ℕ → Instant} {horizon : ℕ} {ring : List (BlockGen E)}

/-- The newest blocks, as many as the cap allows. -/
def newest (ring : List (BlockGen E)) : List (BlockGen E) :=
  ring.drop (ring.length - maxRing)

/-- Expired or exhausted. -/
def BlockGen.stale (now : Instant) (horizon : ℕ) (bg : BlockGen E) : Bool :=
  decide (horizon < elapsed now bg.created) || bg.exhausted

/-- From front to back, the blocks are in the order of their creation. -/
def InOrder (ring : List (BlockGen E)) : Prop :=
  (ring.map BlockGen.created).Pairwise (· ≤ ·)

lemma BlockGen.stale_eq_false_iff {now : Instant} {bg : BlockGen E} :
    bg.stale now horizon = false ↔ elapsed now bg.created ≤ horizon ∧ bg.exhausted = false := by
  unfold BlockGen.stale
  rw [Bool.or_eq_false_iff, decide_eq_false_iff_not, not_lt]

lemma capRing_eq_newest (ring : List (BlockGen E)) : capRing ring = newest ring := by
  induction ring with
  | nil => rfl
  | cons front ring ih =>
    unfold capRing
    split
    · rename_i hlong
      rw [List.length_cons] at hlong
      have hsub : ring.length + 1 - maxRing = ring.length - maxRing + 1 := by omega
      rw [ih]
      unfold newest
      rw [List.length_cons, hsub, List.drop_succ_cons]
    · rename_i hshort
      unfold newest
      rw [Nat.sub_eq_zero_of_le (not_lt.mp hshort), List.drop_zero]

/-! ## The prefix that is dropped -/

lemma dropFront_stale {i : ℕ} {front : BlockGen E} (h : front.stale (clock i) horizon = true) :
    dropFront clock horizon i (front :: ring) = dropFront clock horizon (i + 1) ring := by
  unfold BlockGen.stale at h
  rw [Bool.or_eq_true, decide_eq_true_eq] at h
  exact if_pos h

lemma dropFront_fresh {i : ℕ} {front : BlockGen E} (h : front.stale (clock i) horizon = false) :
    dropFront clock horizon i (front :: ring) = front :: ring := by
  rw [BlockGen.stale_eq_false_iff] at h
  refine if_neg (not_or.mpr ⟨not_lt.mpr h.1, ?_⟩)
  rw [h.2]
  exact Bool.false_ne_true

/-- Every block dropped was stale at the reading for it. -/
lemma stale_of_dropped {i j : ℕ} {bg : BlockGen E}
    (hj : j < ring.length - (dropFront clock horizon i ring).length) (hbg : ring[j]? = some bg) :
    bg.stale (clock (i + j)) horizon = true := by
  induction ring generalizing i j with
  | nil => cases hbg
  | cons front ring ih =>
    cases hfront : front.stale (clock i) horizon with
    | false =>
      rw [dropFront_fresh hfront] at hj
      omega
    | true =>
      rw [dropFront_stale hfront] at hj
      cases j with
      | zero =>
        obtain rfl := Option.some.inj hbg
        exact hfront
      | succ j =>
        rw [List.length_cons] at hj
        have hstale := ih (i := i + 1) (j := j) (by omega) hbg
        rwa [Nat.add_right_comm] at hstale

/-- With one reading of the clock, the longest stale prefix is dropped. -/
lemma dropFront_const (now : Instant) (horizon i : ℕ) (ring : List (BlockGen E)) :
    dropFront (fun _ => now) horizon i ring = ring.dropWhile (BlockGen.stale now horizon) := by
  induction ring generalizing i with
  | nil => rfl
  | cons front ring ih =>
    cases hfront : front.stale now horizon with
    | false => rw [dropFront_fresh hfront, List.dropWhile_cons_of_neg (by simp [hfront])]
    | true => rw [dropFront_stale hfront, ih, List.dropWhile_cons_of_pos hfront]

theorem pruneRing_const (now : Instant) (horizon : ℕ) (ring : List (BlockGen E)) :
    pruneRing (fun _ => now) horizon ring =
      (newest ring).dropWhile (BlockGen.stale now horizon) := by
  rw [← capRing_eq_newest]
  exact dropFront_const now horizon 0 (capRing ring)

/-- A block that is exhausted behind the front is kept. -/
example : (pruneRing (fun _ => 10) 5
    [⟨(), 3, 3, 9, 0⟩, ⟨(), 0, 3, 9, 1⟩, ⟨(), 3, 3, 10, 2⟩]).map BlockGen.index = [1, 2] := by
  decide

/-- How many of the newest blocks are dropped. -/
def dropped (clock : ℕ → Instant) (horizon : ℕ) (ring : List (BlockGen E)) : ℕ :=
  (newest ring).length - (pruneRing clock horizon ring).length

lemma pruneRing_eq_drop (clock : ℕ → Instant) (horizon : ℕ) (ring : List (BlockGen E)) :
    pruneRing clock horizon ring = (newest ring).drop (dropped clock horizon ring) := by
  have hsuffix : pruneRing clock horizon ring <:+ newest ring := by
    rw [← capRing_eq_newest]
    exact dropFront_suffix clock horizon 0 _
  exact List.suffix_iff_eq_drop.mp hsuffix

lemma pruneTime_eq (clock : ℕ → Instant) (horizon : ℕ) (ring : List (BlockGen E)) :
    pruneTime clock horizon ring = clock (dropped clock horizon ring) := by
  unfold pruneTime dropped
  rw [capRing_eq_newest]

/-- The blocks before the new front were stale. -/
lemma stale_of_lt_dropped {i : ℕ} {bg : BlockGen E} (hi : i < dropped clock horizon ring)
    (hbg : (newest ring)[i]? = some bg) : bg.stale (clock i) horizon = true := by
  unfold dropped at hi
  rw [← capRing_eq_newest] at hi hbg
  have hstale := stale_of_dropped hi hbg
  rwa [Nat.zero_add] at hstale

/-- The new front is not. -/
lemma fresh_of_dropped {bg : BlockGen E}
    (hbg : (newest ring)[dropped clock horizon ring]? = some bg) :
    bg.stale (clock (dropped clock horizon ring)) horizon = false := by
  have hfront : (pruneRing clock horizon ring)[0]? = some bg := by
    rw [pruneRing_eq_drop, List.getElem?_drop, Nat.add_zero]
    exact hbg
  cases hpruned : pruneRing clock horizon ring with
  | nil =>
    rw [hpruned] at hfront
    cases hfront
  | cons front rest =>
    rw [hpruned] at hfront
    obtain rfl := Option.some.inj hfront
    obtain ⟨hage, hlive⟩ := dropFront_front hpruned
    rw [Nat.zero_add, capRing_eq_newest, ← hpruned] at hage
    exact BlockGen.stale_eq_false_iff.mpr ⟨hage, hlive⟩

/-- **Live blocks are retained** unless they had expired when they were examined. -/
lemma retained {i : ℕ} {bg : BlockGen E} (hbg : (newest ring)[i]? = some bg)
    (hage : elapsed (clock (min i (dropped clock horizon ring))) bg.created ≤ horizon)
    (hlive : bg.exhausted = false) :
    dropped clock horizon ring ≤ i ∧
      (pruneRing clock horizon ring)[i - dropped clock horizon ring]? = some bg := by
  have hle : dropped clock horizon ring ≤ i := by
    by_contra hlt
    have hstale := stale_of_lt_dropped (not_le.mp hlt) hbg
    rw [min_eq_left (by omega)] at hage
    rw [BlockGen.stale_eq_false_iff.mpr ⟨hage, hlive⟩] at hstale
    cases hstale
  refine ⟨hle, ?_⟩
  rw [pruneRing_eq_drop, List.getElem?_drop, Nat.add_sub_cancel' hle]
  exact hbg

/-! ## Picking -/

variable {R : Type}

/-- **Picking is complete**: a live block if there is one, and none only if there is none. -/
lemma pickBlock_complete (coin : R → Bool × R) (ring : List (BlockGen E)) (rng : R) :
    ((∃ bg ∈ ring, bg.exhausted = false) →
      ∃ idx bg, (pickBlock coin ring rng).1 = some idx ∧ ring[idx]? = some bg ∧
        bg.exhausted = false) ∧
    ((pickBlock coin ring rng).1 = none → ∀ bg ∈ ring, bg.exhausted = true) := by
  constructor
  · intro ⟨bg, hmem, hlive⟩
    obtain ⟨idx, hidx⟩ := Option.isSome_iff_exists.mp (pickBlock_isSome coin hmem hlive rng)
    obtain ⟨bg', hbg', hlive'⟩ := pickBlock_live coin hidx
    exact ⟨idx, bg', hidx, hbg', hlive'⟩
  · intro hnone bg hmem
    by_contra hlive
    have hsome := pickBlock_isSome coin hmem (by simpa using hlive) rng
    rw [hnone] at hsome
    cases hsome

end Ring

/-! ## The order of creation -/

namespace Encoder

variable {E R : Type} {enc : SourceBlockEncoder E} {coin : R → Bool × R} {args : Params}
  {s s' : Encoder E R}

lemma inOrder_push {ring : List (BlockGen E)} {bg : BlockGen E} (h : InOrder ring)
    (hlater : ∀ bg' ∈ ring, bg'.created ≤ bg.created) : InOrder (ring ++ [bg]) := by
  unfold InOrder
  rw [List.map_append, List.pairwise_append]
  refine ⟨h, List.pairwise_singleton .., ?_⟩
  intro time htime created hcreated
  obtain ⟨bg', hbg', rfl⟩ := List.mem_map.mp htime
  rw [List.mem_singleton.mp hcreated]
  exact hlater bg' hbg'

/-- A block is later than those in the ring when it is pushed. -/
def PushesInOrder (s : Encoder E R) (a : EncoderAction) : Prop :=
  ∀ created, EncoderAction.created? a = some created → ∀ bg ∈ s.ring, bg.created ≤ created

lemma inOrder_step {a : EncoderAction} (h : InOrder s.ring) (hpush : PushesInOrder s a)
    (hstep : step enc coin args s a = some s') : InOrder s'.ring := by
  refine List.Pairwise.sublist (created_step hstep) (List.pairwise_append.mpr ⟨h, ?_, ?_⟩)
  · cases EncoderAction.created? a with
    | none => exact List.Pairwise.nil
    | some created => exact List.pairwise_singleton ..
  · intro time htime created hcreated
    rw [Option.mem_toList] at hcreated
    obtain ⟨bg, hbg, rfl⟩ := List.mem_map.mp htime
    exact hpush created hcreated bg hbg

/-- With a monotonic clock, every push is in order. -/
lemma run_inOrder {rng : R} {acts : List EncoderAction}
    (hrun : Machine.run (step enc coin args) (init rng) acts = some s)
    (horder : CreatedInOrder acts) : InOrder s.ring :=
  List.Pairwise.sublist (run_created hrun) horder

lemma run_pushesInOrder {rng : R} {acts : List EncoderAction} {a : EncoderAction}
    (hrun : Machine.run (step enc coin args) (init rng) acts = some s)
    (horder : CreatedInOrder (acts ++ [a])) : PushesInOrder s a := by
  intro created hcreated bg hbg
  unfold CreatedInOrder at horder
  rw [List.filterMap_append, List.pairwise_append] at horder
  refine horder.2.2 bg.created ?_ created ?_
  · exact (run_created hrun).subset (List.mem_map_of_mem hbg)
  · exact List.mem_filterMap.mpr ⟨a, List.mem_singleton_self a, hcreated⟩

variable (enc coin args)

/-- **Pruning from the front is complete.** Of a ring in order, `prune_ring` leaves the newest
blocks up to the cap without their longest stale prefix, each block examined being judged by its
own reading of the clock. No block left is older than the horizon at the last reading, the front
is live, and every live block that has not expired is left. `pick_block` then finds a live block
exactly if there is one. The ring stays in order in every step that pushes in order, hence with a
monotonic clock in every run, and it is in order whenever it is pruned. -/
theorem front_pruning_complete :
    (∀ (clock : ℕ → Instant) (horizon : ℕ) (ring : List (BlockGen E)), InOrder ring →
      ∃ m ≤ (newest ring).length, pruneRing clock horizon ring = (newest ring).drop m ∧
        (∀ i < m, ∀ bg, (newest ring)[i]? = some bg → bg.stale (clock i) horizon = true) ∧
        (∀ bg, (newest ring)[m]? = some bg → bg.stale (clock m) horizon = false) ∧
        (∀ bg ∈ pruneRing clock horizon ring, elapsed (clock m) bg.created ≤ horizon) ∧
        (∀ bg, (pruneRing clock horizon ring).head? = some bg → bg.exhausted = false) ∧
        ∀ i bg, (newest ring)[i]? = some bg → elapsed (clock (min i m)) bg.created ≤ horizon →
          bg.exhausted = false → m ≤ i ∧ (pruneRing clock horizon ring)[i - m]? = some bg) ∧
    (∀ (now : Instant) (horizon : ℕ) (ring : List (BlockGen E)),
      pruneRing (fun _ => now) horizon ring =
        (newest ring).dropWhile (BlockGen.stale now horizon)) ∧
    (∀ (clock : ℕ → Instant) (horizon : ℕ) (ring : List (BlockGen E)) (rng : R),
      ((∃ bg ∈ pruneRing clock horizon ring, bg.exhausted = false) →
        ∃ idx bg, (pickBlock coin (pruneRing clock horizon ring) rng).1 = some idx ∧
          (pruneRing clock horizon ring)[idx]? = some bg ∧ bg.exhausted = false) ∧
      ((pickBlock coin (pruneRing clock horizon ring) rng).1 = none →
        ∀ bg ∈ pruneRing clock horizon ring, bg.exhausted = true)) ∧
    (∀ (s s' : Encoder E R) (a : EncoderAction), InOrder s.ring → PushesInOrder s a →
      step enc coin args s a = some s' → InOrder s'.ring) ∧
    ∀ (rng : R) (acts : List EncoderAction) (s : Encoder E R),
      Machine.run (step enc coin args) (init rng) acts = some s → CreatedInOrder acts →
      InOrder s.ring ∧
        ∀ created clock, CreatedInOrder (acts ++ [.finish created clock]) →
          ∀ bg : BlockGen E, bg.created = created → InOrder (s.ring ++ [bg]) := by
  refine ⟨?_, pruneRing_const, ?_, ?_, ?_⟩
  · intro clock horizon ring hsorted
    refine ⟨dropped clock horizon ring, Nat.sub_le .., pruneRing_eq_drop .., ?_, ?_, ?_, ?_, ?_⟩
    · intro i hi bg hbg
      exact stale_of_lt_dropped hi hbg
    · intro bg hbg
      exact fresh_of_dropped hbg
    · intro bg hbg
      have hage := pruneRing_age hsorted hbg
      rwa [pruneTime_eq] at hage
    · intro bg hbg
      rw [pruneRing_eq_drop, List.head?_drop] at hbg
      exact (BlockGen.stale_eq_false_iff.mp (fresh_of_dropped hbg)).2
    · intro i bg hbg hage hlive
      exact retained hbg hage hlive
  · intro clock horizon ring rng
    exact pickBlock_complete coin _ rng
  · intro s s' a hsorted hpush hstep
    exact inOrder_step hsorted hpush hstep
  · intro rng acts s hrun horder
    refine ⟨run_inOrder hrun horder, ?_⟩
    rintro created clock horder' bg rfl
    exact inOrder_push (run_inOrder hrun horder) (run_pushesInOrder hrun horder' bg.created rfl)

end Encoder

end RaptorqTs.Enc
