import Mathlib.Data.BitVec
import Mathlib.Data.Fintype.BigOperators
import Mathlib.Data.Fintype.EquivFin
import Mathlib.Data.Set.Card
import Mathlib.Logic.Function.Iterate
import Mathlib.Tactic.Common

/-!
# Maps that are linear over xor

Bit vectors with xor are a vector space over the field of two elements. Shifts are linear and
nilpotent, so the sum of a word and its shift can be undone. A linear map is determined by its
values on the single bits, so facts about all words are checked on those; in this way the state of
a generator with a linear update is got back from the bits that it puts out. With as many bits as
the state has, each sequence of bits then comes from one state, so the bits are equidistributed.
-/

/-- The map takes xor to xor. -/
def XorLinear {v w : ℕ} (f : BitVec v → BitVec w) : Prop :=
  ∀ x y, f (x ^^^ y) = f x ^^^ f y

namespace XorLinear

variable {u v w : ℕ} {f g : BitVec v → BitVec w}

lemma xor_xor_xor_comm (a b c d : BitVec w) : a ^^^ b ^^^ (c ^^^ d) = a ^^^ c ^^^ (b ^^^ d) := by
  rw [BitVec.xor_assoc, BitVec.xor_assoc, ← BitVec.xor_assoc b, BitVec.xor_comm b,
    BitVec.xor_assoc c]

lemma map_zero (hf : XorLinear f) : f 0#v = 0#w := by
  have h := hf 0#v 0#v
  rwa [BitVec.xor_self, BitVec.xor_self] at h

lemma id : XorLinear (fun x : BitVec w => x) := fun _ _ => rfl

lemma comp {h : BitVec u → BitVec v} (hf : XorLinear f) (hh : XorLinear h) :
    XorLinear fun x => f (h x) := by
  intro x y
  show f (h (x ^^^ y)) = f (h x) ^^^ f (h y)
  rw [hh, hf]

lemma xor (hf : XorLinear f) (hg : XorLinear g) : XorLinear fun x => f x ^^^ g x := by
  intro x y
  show f (x ^^^ y) ^^^ g (x ^^^ y) = f x ^^^ g x ^^^ (f y ^^^ g y)
  rw [hf, hg, xor_xor_xor_comm]

/-! ## Bijections -/

lemma injective (hf : XorLinear f) (h : ∀ x, f x = 0#w → x = 0#v) : Function.Injective f := by
  intro x y hxy
  have hzero : f (x ^^^ y) = 0#w := by
    rw [hf, hxy, BitVec.xor_self]
  exact BitVec.xor_eq_zero_iff.mp (h _ hzero)

/-- **A nilpotent map** is added to the identity. -/
theorem bijective_xor_of_nilpotent {N : BitVec w → BitVec w} (hN : XorLinear N) {n : ℕ}
    (hnil : ∀ x, N^[n] x = 0#w) : Function.Bijective fun x => x ^^^ N x := by
  have : Finite (BitVec w) :=
    Finite.of_injective BitVec.toFin fun x y h => BitVec.eq_of_toFin_eq h
  refine Finite.injective_iff_bijective.mp ((id.xor hN).injective fun x hx => ?_)
  -- such a word is fixed by `N`
  have hfix : N x = x := (BitVec.xor_eq_zero_iff.mp hx).symm
  rw [← hnil x, Function.iterate_fixed hfix]

/-- Shifts in one direction by any number of places: they add up, and in the end nothing is left
of the word. -/
structure IsShift (op : ℕ → BitVec w → BitVec w) : Prop where
  linear : ∀ n, XorLinear (op n)
  zero : ∀ x, op 0 x = x
  add : ∀ n m x, op (n + m) x = op m (op n x)
  eq_zero : ∀ n x, w ≤ n → op n x = 0#w

lemma isShift_left : IsShift fun n (x : BitVec w) => x <<< n where
  linear n x y := BitVec.shiftLeft_xor_distrib x y n
  zero := BitVec.shiftLeft_zero
  add n m x := BitVec.shiftLeft_add x n m
  eq_zero _ _ hn := BitVec.shiftLeft_eq_zero hn

lemma isShift_right : IsShift fun n (x : BitVec w) => x >>> n where
  linear n x y := BitVec.ushiftRight_xor_distrib x y n
  zero := BitVec.ushiftRight_zero
  add n m x := BitVec.shiftRight_add x n m
  eq_zero _ _ hn := BitVec.ushiftRight_eq_zero hn

namespace IsShift

variable {op : ℕ → BitVec w → BitVec w}

lemma iterate (h : IsShift op) (k n : ℕ) (x : BitVec w) : (op k)^[n] x = op (n * k) x := by
  induction n with
  | zero => rw [Nat.zero_mul, h.zero, Function.iterate_zero_apply]
  | succ n ih => rw [Function.iterate_succ_apply', ih, Nat.succ_mul, h.add]

lemma xor_linear (h : IsShift op) (k : ℕ) : XorLinear fun x => x ^^^ op k x :=
  XorLinear.id.xor (h.linear k)

/-- **A word and its shift** determine the word by their xor. -/
theorem xor_bijective (h : IsShift op) {k : ℕ} (hk : 0 < k) :
    Function.Bijective fun x => x ^^^ op k x := by
  refine bijective_xor_of_nilpotent (n := w) (h.linear k) fun x => ?_
  rw [h.iterate]
  exact h.eq_zero _ x (Nat.le_mul_of_pos_right w hk)

end IsShift

/-! ## Single bits -/

/-- The highest bit of a word can be split off. -/
lemma getLsbD_xor_twoPow {x : BitVec w} {n : ℕ} (hx : ∀ j, n + 1 ≤ j → x.getLsbD j = false)
    (hn : x.getLsbD n = true) : ∀ j, n ≤ j → (x ^^^ BitVec.twoPow w n).getLsbD j = false := by
  intro j hj
  rw [BitVec.getLsbD_xor, BitVec.getLsbD_twoPow]
  rcases Nat.eq_or_lt_of_le hj with rfl | hlt
  · rw [hn, decide_eq_true (BitVec.lt_of_getLsbD hn), decide_eq_true rfl]
    rfl
  · rw [hx j hlt, decide_eq_false (Nat.ne_of_lt hlt), Bool.and_false]
    rfl

/-- **Linear maps that agree on the single bits are the same.** -/
theorem ext_twoPow (hf : XorLinear f) (hg : XorLinear g)
    (h : ∀ i < v, f (BitVec.twoPow v i) = g (BitVec.twoPow v i)) (x : BitVec v) : f x = g x := by
  suffices hbelow : ∀ n ≤ v, ∀ x : BitVec v, (∀ j, n ≤ j → x.getLsbD j = false) → f x = g x from
    hbelow v (Nat.le_refl v) x fun j hj => BitVec.getLsbD_of_ge x j hj
  intro n
  induction n with
  | zero =>
    intro _ x hx
    have hzero : x = 0#v := by
      apply BitVec.eq_of_getLsbD_eq
      intro i _
      rw [hx i (Nat.zero_le i), BitVec.getLsbD_zero]
    rw [hzero, hf.map_zero, hg.map_zero]
  | succ n ih =>
    intro hn x hx
    cases hbit : x.getLsbD n with
    | false =>
      refine ih (by omega) x fun j hj => ?_
      rcases Nat.eq_or_lt_of_le hj with rfl | hlt
      · exact hbit
      · exact hx j hlt
    | true =>
      have hrest := ih (by omega) _ (getLsbD_xor_twoPow hx hbit)
      have hsplit : x = x ^^^ BitVec.twoPow v n ^^^ BitVec.twoPow v n := by
        rw [BitVec.xor_assoc, BitVec.xor_self, BitVec.xor_zero]
      rw [hsplit, hf, hg, hrest, h n hn]

/-! ## Generators of bits -/

/-- A generator that puts out a bit of each new state. -/
structure Generator (w : ℕ) where
  update : BitVec w → BitVec w
  out : BitVec w → Bool
  update_linear : XorLinear update
  out_linear : ∀ x y, out (x ^^^ y) = (out x ^^ out y)

/-- The xor of the weights of the bits that are set. -/
def weigh : List (BitVec w) → List Bool → BitVec w
  | m :: ms, b :: bs => (if b then m else 0#w) ^^^ weigh ms bs
  | _, _ => 0#w

lemma weigh_zipWith (ms : List (BitVec w)) {bs bs' : List Bool} (h : bs.length = bs'.length) :
    weigh ms (List.zipWith Bool.xor bs bs') = weigh ms bs ^^^ weigh ms bs' := by
  induction ms generalizing bs bs' with
  | nil =>
    unfold weigh
    rw [BitVec.xor_self]
  | cons m ms ih =>
    cases bs with
    | nil =>
      obtain rfl := List.eq_nil_of_length_eq_zero h.symm
      exact BitVec.xor_self.symm
    | cons b bs =>
      cases bs' with
      | nil => cases h
      | cons b' bs' =>
        have hbit : (if (b ^^ b') = true then m else 0#w) =
            (if b = true then m else 0#w) ^^^ (if b' = true then m else 0#w) := by
          cases b <;> cases b' <;> simp
        rw [List.zipWith_cons_cons, weigh, weigh, weigh, ih (Nat.succ.inj h), hbit,
          xor_xor_xor_comm]

namespace Generator

variable (G : Generator w)

/-- The next `n` bits. -/
def outputs : ℕ → BitVec w → List Bool
  | 0, _ => []
  | n + 1, x => G.out (G.update x) :: outputs n (G.update x)

variable {G} {x y : BitVec w} {n : ℕ}

@[simp] lemma length_outputs (n : ℕ) (x : BitVec w) : (G.outputs n x).length = n := by
  induction n generalizing x with
  | zero => rfl
  | succ n ih => rw [outputs, List.length_cons, ih]

lemma outputs_xor (n : ℕ) (x y : BitVec w) :
    G.outputs n (x ^^^ y) = List.zipWith Bool.xor (G.outputs n x) (G.outputs n y) := by
  induction n generalizing x y with
  | zero => rfl
  | succ n ih =>
    rw [outputs, outputs, outputs, List.zipWith_cons_cons, G.update_linear, G.out_linear, ih]

lemma outputs_zero (n : ℕ) : G.outputs n 0#w = List.replicate n false := by
  have hout : G.out 0#w = false := by
    have h := G.out_linear 0#w 0#w
    rwa [BitVec.xor_self, Bool.xor_self] at h
  induction n with
  | zero => rfl
  | succ n ih => rw [outputs, G.update_linear.map_zero, hout, ih, List.replicate_succ]

lemma mem_outputs_succ {b : Bool} (h : b ∈ G.outputs n x) : b ∈ G.outputs (n + 1) x := by
  induction n generalizing x with
  | zero => cases h
  | succ n ih =>
    rw [outputs] at h ⊢
    rcases List.mem_cons.mp h with rfl | h
    · exact List.mem_cons_self
    · exact List.mem_cons_of_mem _ (ih h)

/-- The weights get back the state from the next `n` bits. -/
def Recovers (G : Generator w) (n : ℕ) (ms : List (BitVec w)) : Prop :=
  ∀ x, weigh ms (G.outputs n x) = x

/-- **Recovery** is checked on the single bits. -/
theorem recovers_of_twoPow {ms : List (BitVec w)}
    (h : ∀ i < w, weigh ms (G.outputs n (BitVec.twoPow w i)) = BitVec.twoPow w i) :
    G.Recovers n ms := by
  refine ext_twoPow (fun x y => ?_) XorLinear.id h
  rw [outputs_xor, weigh_zipWith ms (by rw [length_outputs, length_outputs])]

variable {ms : List (BitVec w)}

lemma Recovers.injective (h : G.Recovers n ms) : Function.Injective (G.outputs n) :=
  Function.LeftInverse.injective h

/-- Some bit is set unless the state is zero. -/
theorem Recovers.true_mem (h : G.Recovers n ms) (hx : x ≠ 0#w) : true ∈ G.outputs n x := by
  by_contra hno
  have hall : G.outputs n x = List.replicate n false := by
    refine List.eq_replicate_iff.mpr ⟨length_outputs n x, fun b hb => ?_⟩
    cases b with
    | false => rfl
    | true => exact absurd hb hno
  rw [← outputs_zero] at hall
  exact hx (h.injective hall)

/-- Only one state has all bits set, so if that one goes on with another bit, every one does. -/
theorem Recovers.false_mem (h : G.Recovers n ms)
    (hone : false ∈ G.outputs (n + 1) (weigh ms (List.replicate n true))) (x : BitVec w) :
    false ∈ G.outputs (n + 1) x := by
  by_cases hno : false ∈ G.outputs n x
  · exact mem_outputs_succ hno
  · have hall : G.outputs n x = List.replicate n true := by
      refine List.eq_replicate_iff.mpr ⟨length_outputs n x, fun b hb => ?_⟩
      cases b with
      | true => rfl
      | false => exact absurd hb hno
    rw [← hall, h x] at hone
    exact hone

/-! ## Equidistribution -/

lemma take_outputs {m : ℕ} (hm : m ≤ n) (x : BitVec w) :
    (G.outputs n x).take m = G.outputs m x := by
  induction m generalizing n x with
  | zero => exact List.take_zero
  | succ m ih =>
    obtain ⟨n, rfl⟩ : ∃ k, n = k + 1 := ⟨n - 1, by omega⟩
    rw [outputs, outputs, List.take_succ_cons, ih (by omega)]

/-- As many bits as the state has: every sequence of them is put out by some state. -/
theorem Recovers.exists_outputs (h : G.Recovers w ms) {tape : List Bool}
    (htape : tape.length = w) : ∃ x, G.outputs w x = tape := by
  let f : BitVec w → List.Vector Bool w := fun x => ⟨G.outputs w x, length_outputs w x⟩
  have hinj : Function.Injective f := fun x y hxy => h.injective (congrArg Subtype.val hxy)
  have : Finite (BitVec w) := Finite.of_equiv _ BitVec.equivFin.symm.toEquiv
  have hcard : Nat.card (BitVec w) = Nat.card (List.Vector Bool w) := by
    rw [Nat.card_congr BitVec.equivFin.toEquiv, Nat.card_fin, Nat.card_eq_fintype_card, card_vector,
      Fintype.card_bool]
  obtain ⟨x, hx⟩ := ((Nat.bijective_iff_injective_and_card f).mpr ⟨hinj, hcard⟩).2 ⟨tape, htape⟩
  exact ⟨x, congrArg Subtype.val hx⟩

lemma ncard_tapes (n : ℕ) : {tape : List Bool | tape.length = n}.ncard = 2 ^ n := by
  have hcard : Nat.card (List.Vector Bool n) = 2 ^ n := by
    rw [Nat.card_eq_fintype_card, card_vector, Fintype.card_bool]
  exact hcard

/-- **Equidistribution.** Each sequence of the next few bits comes from the same number of
states. -/
theorem Recovers.ncard_outputs (h : G.Recovers w ms) {tape : List Bool} (htape : tape.length ≤ w) :
    {x | G.outputs tape.length x = tape}.ncard = 2 ^ (w - tape.length) := by
  rw [← ncard_tapes (w - tape.length)]
  -- the state is known from the bits that follow
  refine Set.ncard_congr (fun x _ => (G.outputs w x).drop tape.length) ?_ ?_ ?_
  · intro x _
    show ((G.outputs w x).drop tape.length).length = w - tape.length
    rw [List.length_drop, length_outputs]
  · intro x y hx hy hxy
    have htake : (G.outputs w x).take tape.length = (G.outputs w y).take tape.length := by
      rw [take_outputs htape, take_outputs htape, hx, hy]
    apply h.injective
    rw [← List.take_append_drop tape.length (G.outputs w x), htake, hxy, List.take_append_drop]
  · intro rest hrest
    have hlen : (tape ++ rest).length = w := by
      rw [List.length_append, hrest]
      omega
    obtain ⟨x, hx⟩ := h.exists_outputs hlen
    refine ⟨x, ?_, ?_⟩
    · show G.outputs tape.length x = tape
      rw [← take_outputs htape, hx, List.take_left]
    · show (G.outputs w x).drop tape.length = rest
      rw [hx, List.drop_left]

end Generator

end XorLinear
