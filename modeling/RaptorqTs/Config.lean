import RaptorqTs.Cli
import RaptorqTs.Lib.Rounding
import RaptorqTs.System
import Mathlib.Data.Rat.Floor

/-!
# The configuration of the encoder

`main` of the encoder computes the counts of repair symbols from the fractions on its command line,
in `f32`, and starts the three threads with them. The counts are the fractions of `k`, rounded up,
but for the errors of two roundings.
-/

namespace RaptorqTs

open Rounding

namespace Enc

/-! ## `f32` -/

/-- The significands and exponents of `f32`; the numbers from `2 ^ 128` on are infinite. -/
def binary32 : Format := ⟨24, by decide, -149⟩

/-- `n as f32`, of a `u32`. -/
def asF32 (n : ℕ) : ℚ := binary32.round (n : ℚ)

/-- The product of two `f32`, `none` if it is infinite. -/
def mulF32 (x y : ℚ) : Option ℚ :=
  if binary32.round (x * y) < 2 ^ 128 then some (binary32.round (x * y)) else none

/-- `x.ceil() as u32`, which saturates. -/
def ceilAsU32 : Option ℚ → ℕ
  | some x => min ⌈x⌉₊ (2 ^ 32 - 1)
  | none => 2 ^ 32 - 1

/-- `(k as f32 * overhead).ceil() as u32`. -/
def repairSymbols (k : ℕ) (overhead : Option ℚ) : ℕ :=
  ceilAsU32 (overhead.bind fun overhead => mulF32 (asF32 k) overhead)

/-- Thirty percent of 50 are 16 symbols, since the `f32` next to 0.3 is greater. -/
example : repairSymbols 50 (some (binary32.round (3 / 10))) = 16 := by decide +kernel

section RepairSymbols

variable {k n : ℕ} {o o' : ℚ}

lemma representable_of_le (h : n ≤ 2 ^ 24) : binary32.Representable (n : ℚ) :=
  Format.representable_natCast (by decide) h

lemma asF32_of_le (h : n ≤ 2 ^ 24) : asF32 n = n :=
  Format.round_of_representable (representable_of_le h)

/-- An infinite product is past the greatest `u32` in any case. -/
lemma repairSymbols_some (hk : k ≤ 2 ^ 24) (o : ℚ) :
    repairSymbols k (some o) = min ⌈binary32.round (k * o)⌉₊ (2 ^ 32 - 1) := by
  unfold repairSymbols mulF32
  rw [Option.bind_some, asF32_of_le hk]
  split_ifs with hfinite
  · rfl
  · have hle : 2 ^ 128 ≤ ⌈binary32.round (k * o)⌉₊ := by
      have hceil := (not_lt.mp hfinite).trans (Nat.le_ceil _)
      exact_mod_cast hceil
    rw [ceilAsU32, Nat.min_eq_right (by omega)]

variable (hk : k ≤ 2 ^ 24) (ho : 0 ≤ o)
include hk ho

lemma repairSymbols_le (hn : n ≤ 2 ^ 24) (h : k * o ≤ n) : repairSymbols k (some o) ≤ n := by
  have hround := Format.round_le_of_representable (mul_nonneg (Nat.cast_nonneg k) ho) h
    (representable_of_le hn)
  rw [repairSymbols_some hk]
  exact (Nat.min_le_left _ _).trans (Nat.ceil_le.mpr hround)

omit ho in
lemma le_repairSymbols (hn : n ≤ 2 ^ 24) (h : n ≤ k * o) : n ≤ repairSymbols k (some o) := by
  have hround := Format.le_round_of_representable (Nat.cast_nonneg n) h (representable_of_le hn)
  rw [repairSymbols_some hk]
  refine Nat.le_min_of_le_of_le ?_ (by omega)
  exact_mod_cast hround.trans (Nat.le_ceil _)

lemma repairSymbols_mono (h : o ≤ o') :
    repairSymbols k (some o) ≤ repairSymbols k (some o') := by
  rw [repairSymbols_some hk, repairSymbols_some hk]
  refine min_le_min_right _ (Nat.ceil_mono ?_)
  exact Format.round_mono (mul_nonneg (Nat.cast_nonneg k) ho)
    (mul_le_mul_of_nonneg_left h (Nat.cast_nonneg k))

/-- A multiple of an `f32` is a multiple of the least `f32`. -/
lemma le_repairSymbols_mul (hf32 : binary32.Representable |o|) (h : k * o ≤ 2 ^ 24) :
    k * o ≤ repairSymbols k (some o) * (1 + (2 ^ 24)⁻¹) := by
  have hx : 0 ≤ k * o := mul_nonneg (Nat.cast_nonneg k) ho
  rw [abs_of_nonneg ho] at hf32
  obtain ⟨m, e, -, he, hmul⟩ := hf32
  obtain ⟨d, hd⟩ := Format.exists_multiple (α := ℚ) he
  have hmultiple : k * o = ((k * (m * d) : ℤ) : ℚ) * 2 ^ binary32.minExp := by
    rw [hmul, hd]
    push_cast
    ring
  have hround : k * o ≤ binary32.round (k * o) * (1 + (2 ^ 24)⁻¹) :=
    Format.le_round_mul hx hmultiple
  have hle : binary32.round (k * o) ≤ 2 ^ 24 := by
    have hrep := representable_of_le (Nat.le_refl (2 ^ 24))
    push_cast at hrep
    exact Format.round_le_of_representable hx h hrep
  have hceil : ⌈binary32.round (k * o)⌉₊ ≤ 2 ^ 24 := by
    rw [Nat.ceil_le]
    exact_mod_cast hle
  rw [repairSymbols_some hk, Nat.min_eq_left (by omega)]
  exact hround.trans (mul_le_mul_of_nonneg_right (Nat.le_ceil _) (by norm_num))

end RepairSymbols

/-! ## `main` -/

/-- The command line. -/
structure CommandLine extends Args where
  adaptiveFec : Bool
  repairHorizonMs : ℕ
  queueBlocks : UInt64
  repairOverhead_f32 : ∀ o ∈ repairOverhead, binary32.Representable |o|
  maxRepairOverhead_f32 : ∀ o ∈ maxRepairOverhead, binary32.Representable |o|

section Configure

variable {E R D : Type} {enc : SourceBlockEncoder E} {coin : R → Bool × R} {codec : WireCodec}

/-- What `main` starts the threads with. The `u32` sum and the `usize` product wrap around. -/
def CommandLine.setup (args : CommandLine) (enc : SourceBlockEncoder E) (coin : R → Bool × R)
    (codec : WireCodec) (oti : ObjectTransmissionInformation) : Setup E R :=
  let k := args.blockSize / symbolSize % 2 ^ 32
  let repair := repairSymbols k args.repairOverhead
  let maxRepair := repairSymbols k args.maxRepairOverhead
  { enc := enc
    coin := coin
    codec := codec
    pid := args.pid
    args :=
      { oti := oti
        baselineRepair := repair
        maxRepair := maxRepair
        adaptive := args.adaptiveFec
        horizon := args.repairHorizonMs * 1000000 }
    blockCap := args.queueBlocks.toNat
    packetCap := args.queueBlocks.toNat * ((k + repair) % 2 ^ 32) % 2 ^ 64 }

/-- `main`, up to the point at which the threads are started; it is `none` when the crate panics
on the block size. -/
def CommandLine.configure (args : CommandLine) (enc : SourceBlockEncoder E) (coin : R → Bool × R)
    (codec : WireCodec) : Option (Except String (Setup E R)) :=
  match args.validate with
  | .error e => some (.error e)
  | .ok () => (makeBlockOti args.blockSize symbolSize).map fun oti =>
      .ok (args.setup enc coin codec oti)

lemma CommandLine.configure_eq_ok {args : CommandLine} {setup : Setup E R}
    (h : args.configure enc coin codec = some (.ok setup)) :
    args.validate = .ok () ∧ ∃ oti, makeBlockOti args.blockSize symbolSize = some oti ∧
      args.setup enc coin codec oti = setup := by
  unfold configure at h
  cases hvalid : args.validate with
  | error e => simp [hvalid] at h
  | ok u =>
    rw [hvalid] at h
    obtain ⟨oti, hoti, hsetup⟩ := Option.map_eq_some_iff.mp h
    exact ⟨rfl, oti, hoti, Except.ok.inj hsetup⟩

/-- What is left of the arguments that `main` has checked. -/
lemma Args.of_validate {args : Args} (h : args.validate = .ok ()) :
    ∃ o o', args.repairOverhead = some o ∧ args.maxRepairOverhead = some o' ∧ 0 ≤ o ∧ o ≤ o' := by
  unfold validate at h
  by_cases hsize : args.blockSize = 0 ∨ args.blockSize % symbolSize ≠ 0
  · rw [if_pos hsize] at h
    cases h
  rw [if_neg hsize] at h
  cases hrepair : args.repairOverhead with
  | none => simp [hrepair] at h
  | some o =>
    by_cases hneg : o < 0
    · simp [hrepair, hneg] at h
    cases hmax : args.maxRepairOverhead with
    | none => simp [hrepair, hneg, hmax] at h
    | some o' =>
      by_cases hlt : o' < o
      · simp [hrepair, hneg, hmax, hlt] at h
      exact ⟨o, o', rfl, rfl, not_lt.mp hneg, not_lt.mp hlt⟩

/-- `n` is `x`, rounded up, unless `x` is an integer but for one part in `2 ^ 24`. -/
structure RoundedUp (x : ℚ) (n : ℕ) : Prop where
  floor_le : ⌊x⌋₊ ≤ n
  le_ceil : n ≤ ⌈x⌉₊
  le_mul : x ≤ n * (1 + (2 ^ 24)⁻¹)

lemma repairSymbols_roundedUp {k : ℕ} {o : ℚ} (hk : k ≤ 2 ^ 24) (ho : 0 ≤ o)
    (hf32 : binary32.Representable |o|) (h : k * o ≤ 2 ^ 24) :
    RoundedUp (k * o) (repairSymbols k (some o)) where
  floor_le := by
    have hfloor := Nat.floor_le (mul_nonneg (Nat.cast_nonneg k) ho)
    have hle : ⌊k * o⌋₊ ≤ 2 ^ 24 := by exact_mod_cast hfloor.trans h
    exact le_repairSymbols hk hle hfloor
  le_ceil := by
    have hceil : ⌈k * o⌉₊ ≤ 2 ^ 24 := by
      rw [Nat.ceil_le]
      exact_mod_cast h
    exact repairSymbols_le hk ho hceil (Nat.le_ceil _)
  le_mul := le_repairSymbols_mul hk ho hf32 h

/-- The arguments are admitted, with blocks of `k` symbols and the fractions `o` and `o'`. -/
structure CommandLine.Admitted (args : CommandLine) (k : ℕ) (o o' : ℚ) : Prop where
  size_eq : args.blockSize = k * symbolSize
  k_pos : 1 ≤ k
  k_le : k ≤ maxSourceSymbolsPerBlock
  repair_eq : args.repairOverhead = some o
  maxRepair_eq : args.maxRepairOverhead = some o'
  nonneg : 0 ≤ o
  le : o ≤ o'

/-- The arguments with which `main` starts the threads. -/
lemma CommandLine.exists_admitted {args : CommandLine} {setup : Setup E R}
    (h : args.configure enc coin codec = some (.ok setup)) :
    ∃ k o o', args.Admitted k o o' ∧
      setup = args.setup enc coin codec (blockOti (k * symbolSize) symbolSize) := by
  obtain ⟨hvalid, oti, hoti, rfl⟩ := CommandLine.configure_eq_ok h
  obtain ⟨k, hpos, hk⟩ := Args.blockSize_of_validate hvalid
  obtain ⟨o, o', ho, ho', hnonneg, hle⟩ := Args.of_validate hvalid
  rw [hk] at hoti
  obtain ⟨hkmax, rfl⟩ := makeBlockOti_eq_some.mp hoti
  exact ⟨k, o, o', ⟨hk, hpos, hkmax, ho, ho', hnonneg, hle⟩, rfl⟩

namespace CommandLine.Admitted

variable {args : CommandLine} {k : ℕ} {o o' : ℚ}

lemma k_le_two_pow (h : args.Admitted k o o') : k ≤ 2 ^ 24 := h.k_le.trans (by decide)

/-- The casts of `main` to `u32` are exact. -/
lemma setup_eq (h : args.Admitted k o o') :
    args.setup enc coin codec (blockOti (k * symbolSize) symbolSize) =
    { enc := enc
      coin := coin
      codec := codec
      pid := args.pid
      args :=
        { oti := blockOti (k * symbolSize) symbolSize
          baselineRepair := repairSymbols k (some o)
          maxRepair := repairSymbols k (some o')
          adaptive := args.adaptiveFec
          horizon := args.repairHorizonMs * 1000000 }
      blockCap := args.queueBlocks.toNat
      packetCap :=
        args.queueBlocks.toNat * ((k + repairSymbols k (some o)) % 2 ^ 32) % 2 ^ 64 } := by
  have hk := h.k_le_two_pow
  have hdiv : args.blockSize / symbolSize % 2 ^ 32 = k := by
    rw [h.size_eq, Nat.mul_div_cancel k symbolSize_pos, Nat.mod_eq_of_lt (by omega)]
  unfold CommandLine.setup
  rw [hdiv, h.repair_eq, h.maxRepair_eq]

lemma repair_le (h : args.Admitted k o o') :
    repairSymbols k (some o) ≤ repairSymbols k (some o') :=
  repairSymbols_mono h.k_le_two_pow h.nonneg h.le

lemma maxRepair_le (h : args.Admitted k o o') (hfit : k + k * o' ≤ 2 ^ 24) :
    k + repairSymbols k (some o') ≤ 2 ^ 24 := by
  have hk := h.k_le_two_pow
  have hceiling : k * o' ≤ (2 ^ 24 - k : ℕ) := by
    rw [Nat.cast_sub hk]
    push_cast
    linarith
  have hmax := repairSymbols_le hk (h.nonneg.trans h.le) (Nat.sub_le _ _) hceiling
  omega

lemma lt_maxRepair (h : args.Admitted k o o') (hfar : 2 ^ 24 + 1 ≤ k + k * o') :
    2 ^ 24 < k + repairSymbols k (some o') := by
  have hk := h.k_le_two_pow
  have hk' := h.k_pos
  have hceiling : ((2 ^ 24 - k + 1 : ℕ) : ℚ) ≤ k * o' := by
    rw [Nat.cast_add, Nat.cast_sub hk]
    push_cast
    linarith
  have hmax := le_repairSymbols hk (by omega) hceiling
  omega

lemma fits (h : args.Admitted k o o') (hfit : k + k * o' ≤ 2 ^ 24) :
    (args.setup enc coin codec (blockOti (k * symbolSize) symbolSize)).args.Fits k := by
  rw [h.setup_eq]
  refine ⟨rfl, h.k_pos, h.k_le, ?_⟩
  show k + max (repairSymbols k (some o)) (repairSymbols k (some o')) ≤ 2 ^ 24
  rw [Nat.max_eq_right h.repair_le]
  exact h.maxRepair_le hfit

end CommandLine.Admitted

/-- `main` panics on the blocks that the FEC crate does not take. -/
lemma CommandLine.configure_eq_none_iff {args : CommandLine} (h : args.validate = .ok ()) :
    args.configure enc coin codec = none ↔
      maxSourceSymbolsPerBlock * symbolSize < args.blockSize := by
  obtain ⟨k, -, hk⟩ := Args.blockSize_of_validate h
  unfold configure
  rw [h, hk]
  show Option.map _ (makeBlockOti (k * symbolSize) symbolSize) = none ↔ _
  rw [Option.map_eq_none_iff, Nat.mul_lt_mul_right symbolSize_pos,
    Option.eq_none_iff_forall_ne_some]
  simp [makeBlockOti_eq_some]

/-- **The counts of repair symbols.** With arguments that pass its checks `main` panics exactly
when a block has more symbols than the FEC crate takes. Otherwise it starts the threads: the two
counts are the two fractions of `k`, rounded up, as long as these are at most `2 ^ 24`, and the
ceiling is not below the baseline. The arguments fit the numbers of the packets if the symbols of a
block and the fraction for the ceiling are at most `2 ^ 24`, and then the channel to the writer has
room for the packets of `queue_blocks` blocks, unless their number wraps around; if they are
`2 ^ 24 + 1` or more, the arguments do not fit. -/
theorem configured {args : CommandLine} (hvalid : args.validate = .ok ()) :
    (args.configure enc coin codec = none ↔
      maxSourceSymbolsPerBlock * symbolSize < args.blockSize) ∧
    ∀ setup : Setup E R, args.configure enc coin codec = some (.ok setup) →
      ∃ (k : ℕ) (o o' : ℚ), args.Admitted k o o' ∧
        setup.args.baselineRepair ≤ setup.args.maxRepair ∧
        (k * o ≤ 2 ^ 24 → RoundedUp (k * o) setup.args.baselineRepair) ∧
        (k * o' ≤ 2 ^ 24 → RoundedUp (k * o') setup.args.maxRepair) ∧
        (k + k * o' ≤ 2 ^ 24 → setup.args.Fits k ∧
          (setup.packetCap = args.queueBlocks.toNat * (k + setup.args.baselineRepair) ↔
            args.queueBlocks.toNat * (k + setup.args.baselineRepair) < 2 ^ 64)) ∧
        (2 ^ 24 + 1 ≤ k + k * o' → ¬ setup.args.Fits k) := by
  refine ⟨CommandLine.configure_eq_none_iff hvalid, fun setup h => ?_⟩
  obtain ⟨k, o, o', hargs, rfl⟩ := CommandLine.exists_admitted h
  have hk := hargs.k_le_two_pow
  have hrepair := args.repairOverhead_f32 o hargs.repair_eq
  have hmax := args.maxRepairOverhead_f32 o' hargs.maxRepair_eq
  have hle := hargs.repair_le
  refine ⟨k, o, o', hargs, ?_, fun hfit => ?_, fun hfit => ?_,
    fun hfit => ⟨hargs.fits hfit, ?_⟩, fun hfar hfits => ?_⟩
  · rw [hargs.setup_eq]
    exact hle
  · rw [hargs.setup_eq]
    exact repairSymbols_roundedUp hk hargs.nonneg hrepair hfit
  · rw [hargs.setup_eq]
    exact repairSymbols_roundedUp hk (hargs.nonneg.trans hargs.le) hmax hfit
  · have hceiling := hargs.maxRepair_le hfit
    rw [hargs.setup_eq, Nat.mod_eq_of_lt (a := k + _) (by omega)]
    show _ % 2 ^ 64 = _ ↔ _
    rw [Nat.mod_eq_iff_lt (by decide)]
  · have hesi : k + max (repairSymbols k (some o)) (repairSymbols k (some o')) ≤ 2 ^ 24 := by
      have hle := hfits.esi_le
      rwa [hargs.setup_eq] at hle
    have hceiling := hargs.lt_maxRepair hfar
    rw [Nat.max_eq_right hle] at hesi
    omega

/-- The default command line, at 10 Mbit/s. -/
def CommandLine.default : CommandLine where
  toArgs := Args.default
  adaptiveFec := true
  repairHorizonMs := 700
  queueBlocks := 4
  repairOverhead_f32 o ho := by
    obtain rfl : o = 1 / 4 := by simpa [Args.default, eq_comm] using ho
    exact ⟨1, -2, by decide, by decide, by norm_num⟩
  maxRepairOverhead_f32 o ho := by
    obtain rfl : o = 1 := by simpa [Args.default, eq_comm] using ho
    exact ⟨1, 0, by decide, by decide, by norm_num⟩

/-- By default a block of 392 symbols has 98 repair symbols, and at most 392. -/
theorem configured_default : ∃ setup : Setup Reference.Encoder Unit,
    CommandLine.default.configure Reference.encoder (fun _ => (true, ())) Reference.codec =
      some (.ok setup) ∧ setup.args.baselineRepair = 98 ∧ setup.args.maxRepair = 392 := by
  have hvalid : CommandLine.default.validate = .ok () := by decide +kernel
  have hmake : makeBlockOti defaultBlockSize symbolSize =
      some (blockOti defaultBlockSize symbolSize) := makeBlockOti_eq_some.mpr ⟨by decide, rfl⟩
  have hconfigure : CommandLine.default.configure Reference.encoder (fun _ : Unit => (true, ()))
      Reference.codec = some (.ok (CommandLine.default.setup Reference.encoder
        (fun _ => (true, ())) Reference.codec (blockOti defaultBlockSize symbolSize))) := by
    unfold CommandLine.configure
    rw [hvalid]
    exact Option.map_eq_some_iff.mpr ⟨_, hmake, rfl⟩
  obtain ⟨k, o, o', hargs, -, hbase, hmax, -⟩ := (configured hvalid).2 _ hconfigure
  obtain rfl : 392 = k := Nat.eq_of_mul_eq_mul_right symbolSize_pos hargs.size_eq
  obtain rfl : 1 / 4 = o := Option.some.inj hargs.repair_eq
  obtain rfl : 1 = o' := Option.some.inj hargs.maxRepair_eq
  have hquarter : (392 : ℕ) * (1 / 4 : ℚ) = (98 : ℕ) := by norm_num
  have hwhole : (392 : ℕ) * (1 : ℚ) = (392 : ℕ) := by norm_num
  rw [hquarter] at hbase
  rw [hwhole] at hmax
  have hbase := hbase (by norm_num)
  have hmax := hmax (by norm_num)
  refine ⟨_, hconfigure, Nat.le_antisymm ?_ ?_, Nat.le_antisymm ?_ ?_⟩
  · simpa using hbase.le_ceil
  · simpa using hbase.floor_le
  · simpa using hmax.le_ceil
  · simpa using hmax.floor_le

/-- The two processes, started with command lines that agree: the margin of the link is the
fraction of `k` that the encoder has been given. -/
theorem CommandLine.matched {args : CommandLine} {setup : Setup E R} {env : Env D}
    {code : FountainCode} {k : ℕ} {o o' : ℚ}
    (h : args.configure enc coin env.wire = some (.ok setup))
    (hargs : args.Admitted k o o') (hfit : k + k * o' ≤ 2 ^ 24)
    (hcrate : CrateLaws enc env code (blockOti (k * symbolSize) symbolSize) k)
    (hpid : args.pid = env.args.pid) (hnarrow : args.pid < 0x2000) (hpos : 1 ≤ env.maxInFlight)
    (hle : env.maxInFlight ≤ 128) :
    Matched setup env code k ∧ ∀ lost : ℕ, lost ≤ k * o → lost ≤ setup.args.baselineRepair := by
  obtain ⟨-, oti, hoti, rfl⟩ := CommandLine.configure_eq_ok h
  rw [hargs.size_eq] at hoti
  obtain ⟨-, rfl⟩ := makeBlockOti_eq_some.mp hoti
  refine ⟨⟨hargs.fits hfit, ?_, ?_, ?_, hpid ▸ hnarrow, hpos, hle⟩, fun lost hlost => ?_⟩
  · rw [hargs.setup_eq]
    exact hcrate
  · rw [hargs.setup_eq]
  · rw [hargs.setup_eq]
    exact hpid
  · have hceiling : (lost : ℚ) ≤ 2 ^ 24 := by
      have hmono : (k : ℚ) * o ≤ k * o' := mul_le_mul_of_nonneg_left hargs.le (Nat.cast_nonneg k)
      have hk : (0 : ℚ) ≤ k := Nat.cast_nonneg k
      linarith
    rw [hargs.setup_eq]
    exact le_repairSymbols hargs.k_le_two_pow (by exact_mod_cast hceiling) hlost

end Configure

end Enc

end RaptorqTs
