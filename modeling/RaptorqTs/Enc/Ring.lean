import RaptorqTs.Common.Raptorq

/-!
# The repair ring

The encoder keeps the encoders of recent blocks in a ring, from which idle airtime draws
extra repair symbols. The front of the ring is the head of the list. Random choices come
from a generator `coin`, of which `Xorshift64.coin` is the one in the program.
-/

namespace RaptorqTs.Enc

structure BlockGen (E : Type) where
  encoder : E
  nextRepairId : ℕ
  maxRepair : ℕ
  created : Instant
  /-- History variable: the index of the block. No branch reads it. -/
  index : ℕ

def BlockGen.exhausted {E : Type} (bg : BlockGen E) : Bool :=
  decide (bg.maxRepair ≤ bg.nextRepairId)

/-! ## The generator -/

structure Xorshift64 where
  state : UInt64
deriving DecidableEq, Repr

namespace Xorshift64

def new (seed : UInt64) : Xorshift64 := ⟨seed ||| 1⟩

def nextU64 (rng : Xorshift64) : UInt64 × Xorshift64 :=
  let x := rng.state
  let x := x ^^^ (x <<< 13)
  let x := x ^^^ (x >>> 7)
  let x := x ^^^ (x <<< 17)
  (x, ⟨x⟩)

def coin (rng : Xorshift64) : Bool × Xorshift64 :=
  let (x, rng) := rng.nextU64
  ((x >>> 33) &&& 1 == 1, rng)

end Xorshift64

/-! ## Pruning -/

def maxRing : ℕ := 64

section Ring

variable {E : Type}

/-- The first loop of `prune_ring`. -/
def capRing : List (BlockGen E) → List (BlockGen E)
  | [] => []
  | front :: ring => if maxRing < (front :: ring).length then capRing ring else front :: ring

/-- The second loop of `prune_ring`. `clock i` is the reading by the `i`-th `elapsed`. -/
def dropFront (clock : ℕ → Instant) (horizon : ℕ) : ℕ → List (BlockGen E) → List (BlockGen E)
  | _, [] => []
  | i, front :: ring =>
    if horizon < elapsed (clock i) front.created ∨ front.exhausted = true then
      dropFront clock horizon (i + 1) ring
    else front :: ring

def pruneRing (clock : ℕ → Instant) (horizon : ℕ) (ring : List (BlockGen E)) :
    List (BlockGen E) :=
  dropFront clock horizon 0 (capRing ring)

lemma capRing_suffix (ring : List (BlockGen E)) : capRing ring <:+ ring := by
  induction ring with
  | nil => exact List.suffix_rfl
  | cons front ring ih =>
    unfold capRing
    split
    · exact ih.trans (List.suffix_cons front ring)
    · exact List.suffix_rfl

lemma length_capRing_le (ring : List (BlockGen E)) : (capRing ring).length ≤ maxRing := by
  induction ring with
  | nil => exact Nat.zero_le _
  | cons front ring ih =>
    unfold capRing
    split
    · exact ih
    · omega

lemma dropFront_suffix (clock : ℕ → Instant) (horizon i : ℕ) (ring : List (BlockGen E)) :
    dropFront clock horizon i ring <:+ ring := by
  induction ring generalizing i with
  | nil => exact List.suffix_rfl
  | cons front ring ih =>
    unfold dropFront
    split
    · exact (ih (i + 1)).trans (List.suffix_cons front ring)
    · exact List.suffix_rfl

/-- Pruning takes blocks off the front only. -/
theorem pruneRing_suffix (clock : ℕ → Instant) (horizon : ℕ) (ring : List (BlockGen E)) :
    pruneRing clock horizon ring <:+ ring :=
  (dropFront_suffix clock horizon 0 _).trans (capRing_suffix ring)

theorem length_pruneRing_le (clock : ℕ → Instant) (horizon : ℕ) (ring : List (BlockGen E)) :
    (pruneRing clock horizon ring).length ≤ maxRing :=
  le_trans (dropFront_suffix clock horizon 0 _).length_le (length_capRing_le ring)

/-! ## Picking a block -/

variable {R : Type}

/-- The loop of `pick_block`, from index `i - 1` downwards. -/
def pickFrom (coin : R → Bool × R) (ring : List (BlockGen E)) : ℕ → Option ℕ → R → Option ℕ × R
  | 0, oldestLive, rng => (oldestLive, rng)
  | i + 1, oldestLive, rng =>
    match ring[i]? with
    | none => pickFrom coin ring i oldestLive rng
    | some bg =>
      if bg.exhausted then pickFrom coin ring i oldestLive rng
      else
        let (heads, rng) := coin rng
        if heads then (some i, rng) else pickFrom coin ring i (some i) rng

def pickBlock (coin : R → Bool × R) (ring : List (BlockGen E)) (rng : R) : Option ℕ × R :=
  pickFrom coin ring ring.length none rng

/-- The block at an index can still mint repair symbols. -/
def Live (ring : List (BlockGen E)) (i : ℕ) : Prop :=
  ∃ bg, ring[i]? = some bg ∧ bg.exhausted = false

lemma pickFrom_live (coin : R → Bool × R) (ring : List (BlockGen E)) {n idx : ℕ}
    {oldest : Option ℕ} {rng : R} (holdest : ∀ i ∈ oldest, Live ring i)
    (h : (pickFrom coin ring n oldest rng).1 = some idx) : Live ring idx := by
  induction n generalizing oldest rng with
  | zero => exact holdest idx h
  | succ n ih =>
    unfold pickFrom at h
    cases hbg : ring[n]? with
    | none =>
      rw [hbg] at h
      exact ih holdest h
    | some bg =>
      rw [hbg] at h
      simp only at h
      -- an exhausted block is passed over, a live one may be picked or remembered
      by_cases hex : bg.exhausted = true
      · rw [if_pos hex] at h
        exact ih holdest h
      · have hlive : Live ring n := ⟨bg, hbg, by simpa using hex⟩
        rw [if_neg hex] at h
        by_cases hheads : (coin rng).1 = true
        · rw [if_pos hheads, Option.some.injEq] at h
          rw [← h]
          exact hlive
        · rw [if_neg hheads] at h
          exact ih (fun i hi => by rw [← Option.some.inj hi]; exact hlive) h

/-- **The block picked** is in the ring and not exhausted, whatever the generator does. -/
theorem pickBlock_live (coin : R → Bool × R) {ring : List (BlockGen E)} {rng : R} {idx : ℕ}
    (h : (pickBlock coin ring rng).1 = some idx) : Live ring idx :=
  pickFrom_live coin ring (fun i hi => by cases hi) h

end Ring

end RaptorqTs.Enc
