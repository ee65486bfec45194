import RaptorqTs.Enc.Xorshift

/-!
# Which block is picked

`pick_block` flips a coin for each live block, freshest first, and falls back to the oldest live
one. The flips of `Xorshift64` are equidistributed over its states, so the blocks are picked in
the geometric proportions that the source promises, exactly.
-/

namespace RaptorqTs.Enc

/-! ## The live blocks -/

section Ring

variable {E R : Type}

/-- The live blocks among the first `n`, freshest first. -/
def liveFrom (ring : List (BlockGen E)) : ℕ → List ℕ
  | 0 => []
  | i + 1 =>
    match ring[i]? with
    | none => liveFrom ring i
    | some bg => if bg.exhausted then liveFrom ring i else i :: liveFrom ring i

/-- The number of live blocks fresher than the one at the index. -/
def fresherLive (ring : List (BlockGen E)) (i : ℕ) : ℕ :=
  (ring.drop (i + 1)).countP fun bg => !bg.exhausted

/-- No live block is older than the one at the index. -/
def OldestLive (ring : List (BlockGen E)) (i : ℕ) : Prop :=
  ∀ bg ∈ ring.take i, bg.exhausted = true

instance (ring : List (BlockGen E)) (i : ℕ) : Decidable (OldestLive ring i) :=
  inferInstanceAs (Decidable (∀ bg ∈ ring.take i, bg.exhausted = true))

/-- The loop of `pick_block` over the live blocks alone. -/
def choose (coin : R → Bool × R) : Option ℕ → List ℕ → R → Option ℕ
  | oldestLive, [], _ => oldestLive
  | _, i :: live, rng =>
    if (coin rng).1 then some i else choose coin (some i) live (coin rng).2

/-- The flips that pick a block behind fresher ones, unless it is the last. -/
def tails (newer older : List ℕ) : List Bool :=
  List.replicate newer.length false ++ if older = [] then [] else [true]

variable {ring : List (BlockGen E)}

lemma liveFrom_succ_live {n : ℕ} (h : Live ring n) :
    liveFrom ring (n + 1) = n :: liveFrom ring n := by
  obtain ⟨bg, hbg, hex⟩ := h
  rw [liveFrom, hbg]
  exact if_neg (by rw [hex]; exact Bool.false_ne_true)

lemma liveFrom_succ_dead {n : ℕ} (h : ¬ Live ring n) :
    liveFrom ring (n + 1) = liveFrom ring n := by
  rw [liveFrom]
  cases hbg : ring[n]? with
  | none => rfl
  | some bg =>
    have hex : bg.exhausted = true := by
      by_contra hex
      exact h ⟨bg, hbg, by simpa using hex⟩
    exact if_pos hex

/-- **The loop** passes over the exhausted blocks. -/
lemma pickFrom_eq_choose (coin : R → Bool × R) (ring : List (BlockGen E)) (n : ℕ)
    (oldest : Option ℕ) (rng : R) :
    (pickFrom coin ring n oldest rng).1 = choose coin oldest (liveFrom ring n) rng := by
  induction n generalizing oldest rng with
  | zero => rfl
  | succ n ih =>
    unfold pickFrom liveFrom
    cases ring[n]? with
    | none => exact ih oldest rng
    | some bg =>
      simp only
      by_cases hex : bg.exhausted = true
      · rw [if_pos hex, if_pos hex]
        exact ih oldest rng
      · rw [if_neg hex, if_neg hex, choose]
        by_cases hheads : (coin rng).1 = true
        · rw [if_pos hheads, if_pos hheads]
        · rw [if_neg hheads, if_neg hheads]
          exact ih (some n) (coin rng).2

lemma lt_of_mem_liveFrom {n i : ℕ} (h : i ∈ liveFrom ring n) : i < n := by
  induction n with
  | zero => cases h
  | succ n ih =>
    by_cases hlive : Live ring n
    · rw [liveFrom_succ_live hlive] at h
      rcases List.mem_cons.mp h with rfl | h
      · exact Nat.lt_succ_self i
      · exact Nat.lt_succ_of_lt (ih h)
    · rw [liveFrom_succ_dead hlive] at h
      exact Nat.lt_succ_of_lt (ih h)

lemma nodup_liveFrom (ring : List (BlockGen E)) (n : ℕ) : (liveFrom ring n).Nodup := by
  induction n with
  | zero => exact List.nodup_nil
  | succ n ih =>
    by_cases hlive : Live ring n
    · rw [liveFrom_succ_live hlive]
      refine List.nodup_cons.mpr ⟨fun h => ?_, ih⟩
      exact absurd (lt_of_mem_liveFrom h) (Nat.lt_irrefl n)
    · rw [liveFrom_succ_dead hlive]
      exact ih

lemma live_iff {i : ℕ} (hi : i < ring.length) : Live ring i ↔ ring[i].exhausted = false := by
  constructor
  · rintro ⟨bg, hbg, hex⟩
    rw [List.getElem?_eq_getElem hi, Option.some.injEq] at hbg
    rw [hbg]
    exact hex
  · intro hex
    exact ⟨ring[i], List.getElem?_eq_getElem hi, hex⟩

lemma not_live_iff {i : ℕ} (hi : i < ring.length) : ¬ Live ring i ↔ ring[i].exhausted = true := by
  rw [live_iff hi, Bool.not_eq_false]

lemma liveFrom_eq_nil_iff {i : ℕ} (hi : i ≤ ring.length) :
    liveFrom ring i = [] ↔ OldestLive ring i := by
  induction i with
  | zero =>
    refine iff_of_true rfl ?_
    intro bg hbg
    rw [List.take_zero] at hbg
    cases hbg
  | succ i ih =>
    have htake : OldestLive ring (i + 1) ↔ OldestLive ring i ∧ ring[i].exhausted = true := by
      unfold OldestLive
      rw [List.take_succ_eq_append_getElem (by omega), List.forall_mem_append,
        List.forall_mem_singleton]
    rw [htake]
    by_cases hlive : Live ring i
    · have hex := (live_iff (by omega)).mp hlive
      rw [liveFrom_succ_live hlive, hex]
      simp
    · have hex := (not_live_iff (by omega)).mp hlive
      rw [liveFrom_succ_dead hlive, ih (by omega), hex]
      simp

/-- A live block comes behind the fresher ones. -/
lemma liveFrom_eq_append {i : ℕ} (hlive : Live ring i) {n : ℕ} (hi : i < n) (hn : n ≤ ring.length) :
    ∃ newer, liveFrom ring n = newer ++ i :: liveFrom ring i ∧
      newer.length = ((ring.take n).drop (i + 1)).countP fun bg => !bg.exhausted := by
  induction n with
  | zero => cases hi
  | succ n ih =>
    rcases Nat.lt_succ_iff_lt_or_eq.mp hi with hlt | rfl
    · obtain ⟨newer, hnewer, hlen⟩ := ih hlt (by omega)
      have hdrop : (ring.take (n + 1)).drop (i + 1) =
          (ring.take n).drop (i + 1) ++ [ring[n]] := by
        rw [List.take_succ_eq_append_getElem (by omega),
          List.drop_append_of_le_length (by rw [List.length_take]; omega)]
      rw [hdrop, List.countP_append, ← hlen, List.countP_singleton]
      by_cases hn' : Live ring n
      · refine ⟨n :: newer, ?_, ?_⟩
        · rw [liveFrom_succ_live hn', hnewer, List.cons_append]
        · rw [(live_iff (by omega)).mp hn']
          rfl
      · refine ⟨newer, ?_, ?_⟩
        · rw [liveFrom_succ_dead hn', hnewer]
        · rw [(not_live_iff (by omega)).mp hn']
          rfl
    · refine ⟨[], liveFrom_succ_live hlive, ?_⟩
      rw [List.drop_eq_nil_of_le (by rw [List.length_take]; omega)]
      rfl

/-- The choice falls on one of the blocks, if there are any. -/
lemma exists_choose (coin : R → Bool × R) (oldest : Option ℕ) {live : List ℕ} (h : live ≠ [])
    (rng : R) : ∃ j ∈ live, choose coin oldest live rng = some j := by
  induction live generalizing oldest rng with
  | nil => exact absurd rfl h
  | cons i live ih =>
    rw [choose]
    by_cases hheads : (coin rng).1 = true
    · exact ⟨i, List.mem_cons_self, if_pos hheads⟩
    · rw [if_neg hheads]
      by_cases hlast : live = []
      · rw [hlast]
        exact ⟨i, List.mem_cons_self, rfl⟩
      · obtain ⟨j, hj, hpick⟩ := ih (some i) hlast (coin rng).2
        exact ⟨j, List.mem_cons_of_mem i hj, hpick⟩

end Ring

namespace Xorshift64

variable {E : Type}

/-- **The choice** falls on a block exactly if the flips are tails for the fresher blocks and
heads for this one, where the last block needs no heads. -/
lemma choose_eq_some_iff {newer older : List ℕ} {i : ℕ} (hnodup : (newer ++ i :: older).Nodup)
    (oldest : Option ℕ) (rng : Xorshift64) :
    choose coin oldest (newer ++ i :: older) rng = some i ↔
      flips (tails newer older).length rng = tails newer older := by
  induction newer generalizing oldest rng with
  | nil =>
    rw [List.nil_append] at hnodup ⊢
    have hi := (List.nodup_cons.mp hnodup).1
    rw [choose]
    by_cases hlast : older = []
    · -- heads or tails, the last block is picked
      subst hlast
      refine iff_of_true ?_ rfl
      by_cases hheads : rng.coin.1 = true
      · exact if_pos hheads
      · exact if_neg hheads
    · have htails : tails [] older = [true] := by
        rw [tails, if_neg hlast]
        rfl
      have hflips : flips [true].length rng = [true] ↔ rng.coin.1 = true := by
        show [rng.coin.1] = [true] ↔ _
        rw [List.singleton_inj]
      rw [htails, hflips]
      by_cases hheads : rng.coin.1 = true
      · exact iff_of_true (if_pos hheads) hheads
      · refine iff_of_false ?_ hheads
        rw [if_neg hheads]
        obtain ⟨j, hj, hpick⟩ := exists_choose coin (some i) hlast rng.coin.2
        rw [hpick, Option.some.injEq]
        rintro rfl
        exact hi hj
  | cons k newer ih =>
    rw [List.cons_append] at hnodup ⊢
    obtain ⟨hk, hnodup⟩ := List.nodup_cons.mp hnodup
    have htails : tails (k :: newer) older = false :: tails newer older := by
      rw [tails, tails, List.length_cons, List.replicate_succ, List.cons_append]
    rw [choose, htails, List.length_cons, flips, List.cons.injEq]
    by_cases hheads : rng.coin.1 = true
    · rw [if_pos hheads, Option.some.injEq]
      refine iff_of_false ?_ ?_
      · rintro rfl
        exact hk (List.mem_append_right _ List.mem_cons_self)
      · rintro ⟨hfalse, -⟩
        rw [hheads] at hfalse
        cases hfalse
    · rw [if_neg hheads, ih hnodup]
      have hfalse : rng.coin.1 = false := by simpa using hheads
      exact ⟨fun h => ⟨hfalse, h⟩, And.right⟩

lemma bits_bijective : Function.Bijective bits :=
  ⟨bits_injective, fun x => ⟨⟨⟨x⟩⟩, rfl⟩⟩

/-- **Equidistribution**, for the flips of the program's generator. -/
lemma ncard_flips {tape : List Bool} (htape : tape.length ≤ 64) :
    {rng : Xorshift64 | flips tape.length rng = tape}.ncard = 2 ^ (64 - tape.length) := by
  rw [← recovers.ncard_outputs htape]
  refine Set.ncard_congr (fun rng _ => rng.bits) ?_ ?_ ?_
  · intro rng hrng
    show generator.outputs tape.length rng.bits = tape
    rw [← flips_eq_outputs]
    exact hrng
  · intro rng rng' _ _ h
    exact bits_injective h
  · intro x hx
    obtain ⟨rng, rfl⟩ := bits_bijective.2 x
    refine ⟨rng, ?_, rfl⟩
    show flips tape.length rng = tape
    rw [flips_eq_outputs]
    exact hx

lemma flips_zero (n : ℕ) : flips n ⟨0⟩ = List.replicate n false := by
  rw [flips_eq_outputs]
  exact XorLinear.Generator.outputs_zero n

/-- In the state zero, all flips are tails. -/
lemma ncard_flips_alive {tape : List Bool} (htape : tape.length ≤ 64) :
    {rng : Xorshift64 | rng.state ≠ 0 ∧ flips tape.length rng = tape}.ncard =
      if true ∈ tape then 2 ^ (64 - tape.length) else 2 ^ (64 - tape.length) - 1 := by
  have hzero : ⟨0⟩ ∈ {rng : Xorshift64 | flips tape.length rng = tape} ↔ true ∉ tape := by
    show flips tape.length ⟨0⟩ = tape ↔ _
    rw [flips_zero, eq_comm, List.eq_replicate_iff]
    simp
  have halive : {rng : Xorshift64 | rng.state ≠ 0 ∧ flips tape.length rng = tape} =
      {rng : Xorshift64 | flips tape.length rng = tape} \ {⟨0⟩} := by
    ext rng
    have hstate : rng.state ≠ 0 ↔ rng ≠ ⟨0⟩ := by
      cases rng
      simp
    show rng.state ≠ 0 ∧ flips tape.length rng = tape ↔ flips tape.length rng = tape ∧ rng ≠ ⟨0⟩
    rw [hstate, and_comm]
  rw [halive]
  by_cases hheads : true ∈ tape
  · rw [if_pos hheads, Set.sdiff_singleton_eq_self (hzero.not.mpr (not_not.mpr hheads)),
      ncard_flips htape]
  · rw [if_neg hheads, Set.ncard_sdiff_singleton_of_mem (hzero.mpr hheads), ncard_flips htape]

/-- **The blocks are picked in geometric proportions.** Of the states that the generator can be in,
half pick the freshest live block, a quarter the next one, and so on, and the rest pick the oldest
live block; the state zero, which is never reached, would pick the oldest one too. -/
theorem pick_block_geometric (clock : ℕ → Instant) (horizon : ℕ) (ring : List (BlockGen E))
    {i : ℕ} (hlive : Live (pruneRing clock horizon ring) i) :
    {rng : Xorshift64 | rng.state ≠ 0 ∧
        (pickBlock coin (pruneRing clock horizon ring) rng).1 = some i}.ncard =
      if OldestLive (pruneRing clock horizon ring) i then
        2 ^ (64 - fresherLive (pruneRing clock horizon ring) i) - 1
      else 2 ^ (63 - fresherLive (pruneRing clock horizon ring) i) := by
  have hring := length_pruneRing_le clock horizon ring
  generalize pruneRing clock horizon ring = ring at hlive hring ⊢
  have hi : i < ring.length := by
    obtain ⟨bg, hbg, -⟩ := hlive
    exact (List.getElem?_eq_some_iff.mp hbg).1
  obtain ⟨newer, hfrom, hnewer⟩ := liveFrom_eq_append hlive hi (Nat.le_refl _)
  rw [List.take_length] at hnewer
  have hpick (rng : Xorshift64) : (pickBlock coin ring rng).1 = some i ↔
      flips (tails newer (liveFrom ring i)).length rng = tails newer (liveFrom ring i) := by
    rw [pickBlock, pickFrom_eq_choose, hfrom]
    exact choose_eq_some_iff (hfrom ▸ nodup_liveFrom ring ring.length) none rng
  have hfresher : newer.length < 64 := by
    have hle : newer.length ≤ (ring.drop (i + 1)).length := hnewer ▸ List.countP_le_length
    rw [List.length_drop] at hle
    have hcap : ring.length ≤ 64 := hring
    omega
  simp only [hpick]
  rw [fresherLive, ← hnewer]
  by_cases holdest : OldestLive ring i
  · have htails : tails newer (liveFrom ring i) = List.replicate newer.length false := by
      rw [tails, if_pos ((liveFrom_eq_nil_iff hi.le).mpr holdest), List.append_nil]
    rw [if_pos holdest, htails, ncard_flips_alive (by rw [List.length_replicate]; omega),
      List.length_replicate, if_neg (by simp)]
  · have htails : tails newer (liveFrom ring i) = List.replicate newer.length false ++ [true] := by
      rw [tails, if_neg ((liveFrom_eq_nil_iff hi.le).not.mpr holdest)]
    have hlen : (List.replicate newer.length false ++ [true]).length = newer.length + 1 := by
      rw [List.length_append, List.length_replicate, List.length_singleton]
    rw [if_neg holdest, htails, ncard_flips_alive (by rw [hlen]; omega), hlen, if_pos (by simp)]
    congr 1
    omega

/-- A ring of two live blocks with an exhausted one between them. -/
theorem pick_block_geometric_two :
    let bg (nextRepairId : ℕ) : BlockGen Unit := ⟨(), nextRepairId, 2, 0, 0⟩
    let ring := [bg 0, bg 2, bg 1]
    {rng : Xorshift64 | rng.state ≠ 0 ∧
        (pickBlock coin (pruneRing (fun _ => 0) 5 ring) rng).1 = some 2}.ncard = 2 ^ 63 ∧
      {rng : Xorshift64 | rng.state ≠ 0 ∧
        (pickBlock coin (pruneRing (fun _ => 0) 5 ring) rng).1 = some 0}.ncard = 2 ^ 63 - 1 := by
  intro bg ring
  exact ⟨pick_block_geometric (fun _ => 0) 5 ring ⟨bg 1, rfl, rfl⟩,
    pick_block_geometric (fun _ => 0) 5 ring ⟨bg 0, rfl, rfl⟩⟩

end Xorshift64

end RaptorqTs.Enc
