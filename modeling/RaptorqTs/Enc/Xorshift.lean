import RaptorqTs.Enc.Encoder
import RaptorqTs.Lib.XorLinear

/-!
# The generator of random choices

The update of `Xorshift64` is linear over xor and a bijection, so no state but zero leads to zero,
and `new` does not start there. The flips of `coin` tell states apart within as many flips as a
state has bits, so they are never the same for long.
-/

namespace RaptorqTs.Enc

namespace Xorshift64

/-- The calls by which a generator moves on. -/
inductive Call where
  | nextU64
  | coin
deriving DecidableEq, Repr

def call (rng : Xorshift64) : Call → Xorshift64
  | .nextU64 => rng.nextU64.2
  | .coin => rng.coin.2

/-- The results of the next `n` calls of `coin`. -/
def flips : ℕ → Xorshift64 → List Bool
  | 0, _ => []
  | n + 1, rng => rng.coin.1 :: flips n rng.coin.2

/-! ## The update as a linear map -/

/-- What `next_u64` does to the state. -/
def update (x : BitVec 64) : BitVec 64 :=
  let x := x ^^^ (x <<< 13)
  let x := x ^^^ (x >>> 7)
  x ^^^ (x <<< 17)

def bits (rng : Xorshift64) : BitVec 64 := rng.state.toBitVec

lemma bits_nextU64 (rng : Xorshift64) : rng.nextU64.2.bits = update rng.bits := rfl

lemma bits_coin (rng : Xorshift64) : rng.coin.2.bits = update rng.bits := rfl

lemma bits_injective : Function.Injective bits := by
  intro rng rng' h
  obtain ⟨x⟩ := rng
  obtain ⟨y⟩ := rng'
  rw [Xorshift64.mk.injEq]
  exact UInt64.toBitVec_inj.mp h

lemma linear_update : XorLinear update :=
  (XorLinear.isShift_left.xor_linear 17).comp
    ((XorLinear.isShift_right.xor_linear 7).comp (XorLinear.isShift_left.xor_linear 13))

lemma bijective_update : Function.Bijective update :=
  (XorLinear.isShift_left.xor_bijective (by decide : 0 < 17)).comp
    ((XorLinear.isShift_right.xor_bijective (by decide : 0 < 7)).comp
      (XorLinear.isShift_left.xor_bijective (by decide : 0 < 13)))

/-- The same on the words of the program. -/
lemma bijective_state : Function.Bijective fun x : UInt64 => (Xorshift64.mk x).nextU64.2.state := by
  have hbits : Function.Bijective UInt64.toBitVec :=
    ⟨fun _ _ h => UInt64.toBitVec_inj.mp h, fun x => ⟨⟨x⟩, rfl⟩⟩
  exact (hbits.of_comp_iff' _).mp (bijective_update.comp hbits)

/-- The bit that `coin` looks at. -/
lemma coin_eq_getLsbD (rng : Xorshift64) : rng.coin.1 = (update rng.bits).getLsbD 33 := by
  have hbit (x : UInt64) : ((x >>> 33) &&& 1 == 1) = x.toBitVec.getLsbD 33 := by
    have hone : ((x >>> 33) &&& 1).toBitVec =
        BitVec.setWidth 64 (BitVec.ofBool (x.toBitVec.getLsbD 33)) := by
      show (x.toBitVec >>> 33) &&& 1#64 = _
      rw [BitVec.and_one_eq_setWidth_ofBool_getLsbD, BitVec.getLsbD_ushiftRight]
    rw [Bool.eq_iff_iff, beq_iff_eq, ← UInt64.toBitVec_inj, hone]
    cases x.toBitVec.getLsbD 33 <;> decide
  exact hbit _

def generator : XorLinear.Generator 64 where
  update := update
  out x := x.getLsbD 33
  update_linear := linear_update
  out_linear _ _ := BitVec.getLsbD_xor

lemma flips_eq_outputs (n : ℕ) (rng : Xorshift64) : flips n rng = generator.outputs n rng.bits := by
  induction n generalizing rng with
  | zero => rfl
  | succ n ih =>
    rw [flips, XorLinear.Generator.outputs, coin_eq_getLsbD, ih, bits_coin]
    rfl

/-- For each of the next 64 flips, the bits of the state in which it counts. They are the columns
of the inverse of the matrix that takes the state to the flips. -/
def weights : List (BitVec 64) :=
  [0x017ee1e863c8ed45, 0xddbfd2acaa76be79, 0x7772ae1d9c1bba4d, 0xc08246ec339f2586,
  0x5d47986ddf05ea93, 0xa33f353c43674092, 0x653527e020e8c6df, 0x226de7f5e07dccc6,
  0x928cc6cbcd1b2ddd, 0x9db02f301547746a, 0xc6779c0d23589540, 0x5c2424d6b47066cd,
  0xe47e57d71fbbd032, 0xf504ec1d05348af8, 0x4c8913c1e0533cc1, 0x918ceed31d53b2a4,
  0x1cab67b544280139, 0xeb99053488ece4f0, 0x43dd3eb575c173d7, 0x91e730170ef8649e,
  0x2cc8f46d5830af9e, 0xe101c490cafa9632, 0xe150976f21228ae7, 0x54d4ac9db2a2492a,
  0x0a842d648b6dcff5, 0x83340b151163b947, 0x386117e706392c9e, 0x2ba4ec53964d0dda,
  0xb31559dccdbe56a8, 0x48a655bf764fddd3, 0xffdfba418b8bd8fd, 0x7678a13e8be1a773,
  0x09e7a7feb330dfd3, 0x89990390086305c7, 0x905882ace6d04709, 0xc5f79c983423220d,
  0x6cea858a77b7f4e4, 0x37ffa40c5b6adc43, 0x3b8e51cae024f9b0, 0xc0264e24b4e45a1b,
  0xa307e4f4cc71ca4f, 0x3df1a593b8efe447, 0xc24d499cd91c5a2c, 0x035737cfca35ac74,
  0x8e4ba7cdde58ecf2, 0xb613446e8f8db216, 0x844e433f4864c7c6, 0xebb95a9156aa2fc6,
  0x220ac7e313a9b62a, 0x4b5624567e9abd4f, 0x8cba11b278d382d5, 0xb931f7ff5670a89b,
  0xac21d10a18b3dd7e, 0xc1c4d40d09c4e1e2, 0x4a385b3d26705140, 0x19dfbc0288281e7c,
  0xb326ecc1756a2a37, 0x46054b798a268cae, 0x6f9f9dddc0d6ecb7, 0x7a8a414551fdecee,
  0x088e8dddb56eecf7, 0xd2bb96697e3266ba, 0xcaa7cd8886bc5f04, 0x086dd37347228ddf]

/-- **A state is known from the next 64 flips.** -/
lemma recovers : generator.Recovers 64 weights :=
  XorLinear.Generator.recovers_of_twoPow (by decide +kernel)

/-- Two states are told apart by the next 64 flips. -/
theorem flips_injective : Function.Injective (flips 64) := by
  intro rng rng' h
  rw [flips_eq_outputs, flips_eq_outputs] at h
  exact bits_injective (recovers.injective h)

/-! ## Runs of the generator -/

lemma bits_call (rng : Xorshift64) (c : Call) : (rng.call c).bits = update rng.bits := by
  cases c with
  | nextU64 => exact bits_nextU64 rng
  | coin => exact bits_coin rng

lemma bits_calls (calls : List Call) (rng : Xorshift64) :
    (calls.foldl call rng).bits = update^[calls.length] rng.bits := by
  induction calls generalizing rng with
  | nil => rfl
  | cons c calls ih =>
    rw [List.foldl_cons, ih, bits_call, List.length_cons, Function.iterate_succ_apply]

lemma state_ne_zero_iff {rng : Xorshift64} : rng.state ≠ 0 ↔ rng.bits ≠ 0#64 :=
  not_congr UInt64.toBitVec_inj.symm

/-- The lowest bit is set. -/
lemma bits_new_ne_zero (seed : UInt64) : (new seed).bits ≠ 0#64 := by
  rw [← state_ne_zero_iff]
  intro hzero
  have hle : 1 ≤ (seed ||| 1).toNat := by
    rw [UInt64.toNat_or]
    exact Nat.right_le_or
  have hnat : (seed ||| 1).toNat = 0 := congrArg UInt64.toNat hzero
  omega

/-- The update leads from zero to zero, and nothing else does. -/
lemma iterate_update_ne_zero {x : BitVec 64} (hx : x ≠ 0#64) (n : ℕ) : update^[n] x ≠ 0#64 := by
  have hzero : update^[n] 0#64 = 0#64 := Function.iterate_fixed linear_update.map_zero n
  intro h
  exact hx (bijective_update.injective.iterate n (h.trans hzero.symm))

lemma calls_ne_zero (seed : UInt64) (calls : List Call) :
    (calls.foldl call (new seed)).bits ≠ 0#64 := by
  rw [bits_calls]
  exact iterate_update_ne_zero (bits_new_ne_zero seed) calls.length

end Xorshift64

/-! ## The generator of the encoder -/

section Ring

variable {E R : Type}

/-- Picking a block flips the coin some number of times. -/
lemma pickFrom_rng (coin : R → Bool × R) (ring : List (BlockGen E)) (n : ℕ)
    (oldest : Option ℕ) (rng : R) :
    ∃ k, (pickFrom coin ring n oldest rng).2 = (fun r => (coin r).2)^[k] rng := by
  induction n generalizing oldest rng with
  | zero => exact ⟨0, rfl⟩
  | succ n ih =>
    unfold pickFrom
    cases ring[n]? with
    | none => exact ih oldest rng
    | some bg =>
      simp only
      by_cases hex : bg.exhausted = true
      · rw [if_pos hex]
        exact ih oldest rng
      · rw [if_neg hex]
        by_cases hheads : (coin rng).1 = true
        · rw [if_pos hheads]
          exact ⟨1, rfl⟩
        · rw [if_neg hheads]
          obtain ⟨k, hk⟩ := ih (some n) (coin rng).2
          exact ⟨k + 1, by rw [hk, Function.iterate_succ_apply]⟩

end Ring

namespace Encoder

variable {E R : Type} {enc : SourceBlockEncoder E} {coin : R → Bool × R} {args : Params}
  {s s' : Encoder E R}

/-- The generator moves on by flips only. -/
lemma rng_step {a : EncoderAction} (hstep : step enc coin args s a = some s') :
    ∃ k, s'.rng = (fun r => (coin r).2)^[k] s.rng := by
  have hpick (clock : ℕ → Instant) {picked : Option ℕ} {rng : R}
      (h : pickBlock coin (pruneRing clock args.horizon s.ring) s.rng = (picked, rng)) :
      ∃ k, rng = (fun r => (coin r).2)^[k] s.rng := by
    obtain ⟨k, hk⟩ := pickFrom_rng coin (pruneRing clock args.horizon s.ring) _ none s.rng
    exact ⟨k, (congrArg Prod.snd h).symm.trans hk⟩
  cases step_moves hstep with
  | recv _ => exact ⟨0, rfl⟩
  | @nap clock _ _ _ h => exact hpick clock h
  | @mint clock _ _ _ _ _ h _ => exact hpick clock h
  | send _ _ => exact ⟨0, rfl⟩
  | finish _ _ => exact ⟨0, rfl⟩
  | sendExtra _ => exact ⟨0, rfl⟩
  | exit _ => exact ⟨0, rfl⟩

theorem Reachable.rng_eq {rng : R} (h : Reachable enc coin args rng s) :
    ∃ k, s.rng = (fun r => (coin r).2)^[k] rng := by
  refine Machine.Reachable.invariant
    (P := fun s : Encoder E R => ∃ k, s.rng = (fun r => (coin r).2)^[k] rng) ⟨0, rfl⟩ ?_ h
  rintro s _ s' _ ⟨k, hk⟩ hstep
  obtain ⟨m, hm⟩ := rng_step hstep
  exact ⟨m + k, by rw [hm, hk, Function.iterate_add_apply]⟩

end Encoder

namespace Xorshift64

/-- The generator of the encoder is one that has been flipped some number of times. -/
lemma exists_calls {E : Type} {enc : SourceBlockEncoder E} {args : Params} {rng : Xorshift64}
    {s : Encoder E Xorshift64} (h : Encoder.Reachable enc coin args rng s) :
    ∃ calls : List Call, s.rng = calls.foldl call rng := by
  obtain ⟨k, hk⟩ := h.rng_eq
  refine ⟨List.replicate k .coin, hk.trans ?_⟩
  clear hk h
  induction k generalizing rng with
  | zero => rfl
  | succ k ih =>
    rw [Function.iterate_succ_apply, ih, List.replicate_succ, List.foldl_cons]
    rfl

/-- **The generator is never stuck.** The update of the state is a bijection that fixes zero, so
the state is never zero, whatever the seed and however many calls there have been, and generators
in different states stay different. From zero all flips would be tails; from a state that is
reached, 64 flips in a row are never all tails, and 65 never all heads. So it is in every state
that the encoder reaches. -/
theorem xorshift_never_stuck :
    (∀ (seed : UInt64) (calls : List Call), (calls.foldl call (new seed)).state ≠ 0) ∧
    (Function.Bijective (fun x : UInt64 => (Xorshift64.mk x).nextU64.2.state) ∧
      (Xorshift64.mk 0).nextU64 = (0, ⟨0⟩)) ∧
    (∀ (rng rng' : Xorshift64) (calls calls' : List Call), rng ≠ rng' →
      calls.length = calls'.length → calls.foldl call rng ≠ calls'.foldl call rng') ∧
    (∀ n, flips n ⟨0⟩ = List.replicate n false) ∧
    (∀ (seed : UInt64) (calls : List Call), true ∈ flips 64 (calls.foldl call (new seed)) ∧
      false ∈ flips 65 (calls.foldl call (new seed))) ∧
    ∀ (E : Type) (enc : SourceBlockEncoder E) (args : Params) (seed : UInt64)
      (s : Encoder E Xorshift64), Encoder.Reachable enc coin args (new seed) s →
      s.rng.state ≠ 0 ∧ true ∈ flips 64 s.rng ∧ false ∈ flips 65 s.rng := by
  have hstate (seed : UInt64) (calls : List Call) : (calls.foldl call (new seed)).state ≠ 0 :=
    state_ne_zero_iff.mpr (calls_ne_zero seed calls)
  have hflips (seed : UInt64) (calls : List Call) :
      true ∈ flips 64 (calls.foldl call (new seed)) ∧
        false ∈ flips 65 (calls.foldl call (new seed)) := by
    rw [flips_eq_outputs, flips_eq_outputs]
    exact ⟨recovers.true_mem (calls_ne_zero seed calls), recovers.false_mem (by decide +kernel) _⟩
  refine ⟨hstate, ⟨bijective_state, by decide⟩, ?_, ?_, hflips, ?_⟩
  · intro rng rng' calls calls' hne hlen h
    have hbits := congrArg bits h
    rw [bits_calls, bits_calls, hlen] at hbits
    exact hne (bits_injective (bijective_update.injective.iterate _ hbits))
  · intro n
    rw [flips_eq_outputs]
    exact XorLinear.Generator.outputs_zero n
  · intro E enc args seed s hreach
    obtain ⟨calls, hcalls⟩ := exists_calls hreach
    rw [hcalls]
    exact ⟨hstate seed calls, hflips seed calls⟩

end Xorshift64

end RaptorqTs.Enc
