import Mathlib.Algebra.Order.Floor.Ring
import Mathlib.Data.Int.Log
import Mathlib.Tactic.FieldSimp
import Mathlib.Tactic.Linarith
import Mathlib.Tactic.Ring

/-!
# Rounding to floating-point numbers

A binary format has the multiples of powers of two with so many significant bits, down to a least
exponent. A number is rounded to the nearest one of the format, and of two to the one with the even
significand. Only numbers that are not negative are rounded, and nothing overflows: a format has
no greatest number here.
-/

namespace Rounding

section RoundEven

variable {α : Type*} [Field α] [LinearOrder α] [FloorRing α]

/-- The nearest integer, and of two the even one. -/
def roundEven (x : α) : ℤ :=
  if 2 * Int.fract x < 1 then ⌊x⌋
  else if 1 < 2 * Int.fract x then ⌊x⌋ + 1
  else ⌊x⌋ + ⌊x⌋ % 2

lemma floor_le_roundEven (x : α) : ⌊x⌋ ≤ roundEven x := by
  unfold roundEven
  split_ifs <;> omega

lemma roundEven_le_floor_add_one (x : α) : roundEven x ≤ ⌊x⌋ + 1 := by
  unfold roundEven
  split_ifs <;> omega

variable [IsStrictOrderedRing α]

@[simp] lemma roundEven_intCast (n : ℤ) : roundEven (n : α) = n := by
  simp [roundEven]

lemma roundEven_mono {x y : α} (h : x ≤ y) : roundEven x ≤ roundEven y := by
  have hfloor : ⌊x⌋ ≤ ⌊y⌋ := Int.floor_le_floor h
  rcases hfloor.lt_or_eq with hlt | heq
  · calc roundEven x ≤ ⌊x⌋ + 1 := roundEven_le_floor_add_one x
      _ ≤ ⌊y⌋ := hlt
      _ ≤ roundEven y := floor_le_roundEven y
  · have hfract : Int.fract x ≤ Int.fract y := by
      rw [Int.fract, Int.fract, heq]
      exact sub_le_sub_right h _
    unfold roundEven
    rw [heq]
    split_ifs with hx hy hy' hx' hy hy' hy <;> first | omega | (exfalso; linarith)

/-- No further from it than half. -/
lemma le_roundEven_add_half (x : α) : x ≤ roundEven x + 1 / 2 := by
  have hparts := Int.floor_add_fract x
  have hfract := Int.fract_lt_one x
  have hmod : (0 : α) ≤ ((⌊x⌋ % 2 : ℤ) : α) :=
    Int.cast_nonneg (Int.emod_nonneg ⌊x⌋ two_ne_zero)
  unfold roundEven
  split_ifs <;> push_cast <;> linarith

end RoundEven

/-- The numbers with `precision` significant bits that are multiples of `2 ^ minExp`. -/
structure Format where
  precision : ℕ
  precision_pos : 0 < precision
  minExp : ℤ

namespace Format

section Representable

variable {α : Type*} [Field α] {F : Format}

/-- A number of the format. -/
def Representable (F : Format) (x : α) : Prop :=
  ∃ (m : ℕ) (e : ℤ), m < 2 ^ F.precision ∧ F.minExp ≤ e ∧ x = m * 2 ^ e

lemma representable_natCast (hmin : F.minExp ≤ 0) {n : ℕ} (h : n ≤ 2 ^ F.precision) :
    F.Representable (n : α) := by
  rcases h.eq_or_lt with rfl | hlt
  · refine ⟨1, F.precision, Nat.one_lt_two_pow F.precision_pos.ne', by omega, ?_⟩
    simp
  · exact ⟨n, 0, hlt, hmin, by simp⟩

end Representable

/-- A power of two is a multiple of every unit that is not greater. -/
lemma exists_multiple {α : Type*} [Field α] [NeZero (2 : α)] {e e' : ℤ} (h : e ≤ e') :
    ∃ n : ℤ, (2 : α) ^ e' = n * 2 ^ e := by
  obtain ⟨d, rfl⟩ := Int.le.dest h
  refine ⟨2 ^ d, ?_⟩
  rw [zpow_add₀ two_ne_zero, zpow_natCast]
  push_cast
  ring

variable {α : Type*} [Field α] [LinearOrder α] [FloorRing α] {F : Format} {x y : α}

/-- The exponent of the unit in the last place. -/
def exponent (F : Format) (x : α) : ℤ := max F.minExp (Int.log 2 x + 1 - F.precision)

/-- The nearest number of the format, and of two the one with the even significand. -/
def round (F : Format) (x : α) : α := roundEven (x / 2 ^ F.exponent x) * 2 ^ F.exponent x

variable [IsStrictOrderedRing α]

lemma two_zpow_pos (e : ℤ) : (0 : α) < 2 ^ e := zpow_pos two_pos e

@[simp] lemma round_zero (F : Format) : F.round (0 : α) = 0 := by
  have hzero : roundEven (0 : α) = 0 := by simpa using roundEven_intCast (α := α) 0
  simp [round, hzero]

/-- A multiple of the unit is not changed. -/
lemma round_of_multiple {n : ℤ} (h : x = n * 2 ^ F.exponent x) : F.round x = x := by
  have hquot : x / 2 ^ F.exponent x = n := (div_eq_iff (two_zpow_pos _).ne').mpr h
  rw [round, hquot, roundEven_intCast, ← h]

/-- Rounding does not go past a multiple of the unit. -/
lemma round_le_multiple {n : ℤ} (h : x ≤ n * 2 ^ F.exponent x) :
    F.round x ≤ n * 2 ^ F.exponent x := by
  have hquot : x / 2 ^ F.exponent x ≤ n := (div_le_iff₀ (two_zpow_pos _)).mpr h
  have hle := roundEven_mono hquot
  rw [roundEven_intCast] at hle
  exact mul_le_mul_of_nonneg_right (Int.cast_le.mpr hle) (two_zpow_pos _).le

lemma multiple_le_round {n : ℤ} (h : n * 2 ^ F.exponent x ≤ x) :
    n * 2 ^ F.exponent x ≤ F.round x := by
  have hquot : (n : α) ≤ x / 2 ^ F.exponent x := (le_div_iff₀ (two_zpow_pos _)).mpr h
  have hle := roundEven_mono hquot
  rw [roundEven_intCast] at hle
  exact mul_le_mul_of_nonneg_right (Int.cast_le.mpr hle) (two_zpow_pos _).le

lemma round_nonneg (hx : 0 ≤ x) : 0 ≤ F.round x := by
  have hzero : ((0 : ℤ) : α) * 2 ^ F.exponent x ≤ x := by simpa using hx
  simpa using multiple_le_round hzero

lemma exponent_mono (hx : 0 < x) (h : x ≤ y) : F.exponent x ≤ F.exponent y := by
  have hlog := @Int.log_mono_right α _ _ _ _ 2 x y hx h
  unfold exponent
  omega

lemma round_mono (hx : 0 ≤ x) (h : x ≤ y) : F.round x ≤ F.round y := by
  rcases hx.eq_or_lt with rfl | hpos
  · rw [round_zero]
    exact round_nonneg h
  have hle : F.exponent x ≤ F.exponent y := exponent_mono hpos h
  rcases hle.eq_or_lt with heq | hlt
  · have hquot : x / 2 ^ F.exponent x ≤ y / 2 ^ F.exponent x :=
      div_le_div_of_nonneg_right h (two_zpow_pos _).le
    unfold round
    rw [← heq]
    exact mul_le_mul_of_nonneg_right (Int.cast_le.mpr (roundEven_mono hquot))
      (two_zpow_pos _).le
  · -- the power of two that starts the binade of `y` is between the two
    have hprec := F.precision_pos
    have hlog : Int.log 2 x < Int.log 2 y := by
      unfold exponent at hlt
      omega
    have hexp : F.exponent y = Int.log 2 y + 1 - F.precision := by
      unfold exponent at hlt ⊢
      omega
    have hbelow : x ≤ 2 ^ Int.log 2 y := by
      have hlt := (Int.lt_zpow_iff_log_lt (b := 2) one_lt_two hpos).mpr hlog
      exact_mod_cast hlt.le
    have habove : (2 : α) ^ Int.log 2 y ≤ y := by
      exact_mod_cast Int.zpow_log_le_self (b := 2) one_lt_two (hpos.trans_le h)
    obtain ⟨n, hn⟩ := exists_multiple (α := α) (show F.exponent x ≤ Int.log 2 y by omega)
    obtain ⟨m, hm⟩ := exists_multiple (α := α) (show F.exponent y ≤ Int.log 2 y by omega)
    calc F.round x ≤ n * 2 ^ F.exponent x := round_le_multiple (hn ▸ hbelow)
      _ = m * 2 ^ F.exponent y := hn.symm.trans hm
      _ ≤ F.round y := multiple_le_round (hm ▸ habove)

/-! ## Exact results -/

/-- The numbers of the format are not changed. -/
theorem round_of_representable (h : F.Representable x) : F.round x = x := by
  obtain ⟨m, e, hm, he, rfl⟩ := h
  rcases Nat.eq_zero_or_pos m with rfl | hpos
  · simp
  have hx : (0 : α) < m * 2 ^ e := mul_pos (Nat.cast_pos.mpr hpos) (two_zpow_pos e)
  have hlt : (m : α) * 2 ^ e < 2 ^ (F.precision + e) := by
    rw [zpow_add₀ two_ne_zero, zpow_natCast]
    exact mul_lt_mul_of_pos_right (by exact_mod_cast hm) (two_zpow_pos e)
  have hlog : Int.log 2 ((m : α) * 2 ^ e) < F.precision + e :=
    (Int.lt_zpow_iff_log_lt (b := 2) one_lt_two hx).mp (by exact_mod_cast hlt)
  have hle : F.exponent ((m : α) * 2 ^ e) ≤ e := by
    unfold exponent
    omega
  obtain ⟨n, hn⟩ := exists_multiple (α := α) hle
  refine @round_of_multiple α _ _ _ F _ _ (m * n) ?_
  calc (m : α) * 2 ^ e = m * (n * 2 ^ F.exponent ((m : α) * 2 ^ e)) := by rw [← hn]
    _ = ((m * n : ℤ) : α) * 2 ^ F.exponent ((m : α) * 2 ^ e) := by push_cast; ring

lemma round_le_of_representable (hx : 0 ≤ x) (h : x ≤ y) (hy : F.Representable y) :
    F.round x ≤ y := by
  rw [← round_of_representable hy]
  exact round_mono hx h

lemma le_round_of_representable (hx : 0 ≤ x) (h : x ≤ y) (hx' : F.Representable x) :
    x ≤ F.round y := by
  rw [← round_of_representable hx']
  exact round_mono hx h

/-! ## The error -/

/-- What rounding takes off is at most one part in `2 ^ precision` of what is left. A number that
is a multiple of the least number of the format is exact where the format is coarser than that. -/
theorem le_round_mul (hx : 0 ≤ x) {n : ℤ} (hn : x = n * 2 ^ F.minExp) :
    x ≤ F.round x * (1 + (2 ^ F.precision)⁻¹) := by
  have hpow : (0 : α) < 2 ^ F.precision := pow_pos two_pos _
  have hround := round_nonneg (F := F) hx
  rcases le_or_gt (Int.log 2 x + 1 - F.precision) F.minExp with hle | hgt
  · have hexp : F.exponent x = F.minExp := max_eq_left hle
    have hmultiple : x = n * 2 ^ F.exponent x := by rwa [hexp]
    rw [round_of_multiple hmultiple]
    exact le_mul_of_one_le_right hx (le_add_of_nonneg_right (inv_pos.mpr hpow).le)
  rcases hx.eq_or_lt with rfl | hpos
  · simp
  have hexp : F.exponent x = Int.log 2 x + 1 - F.precision := max_eq_right hgt.le
  -- the significand is at least half of the powers of two that have the precision
  have hprec := F.precision_pos
  have hfirst : (2 : α) ^ (F.precision - 1) * 2 ^ F.exponent x ≤ F.round x := by
    have hlog : (2 : α) ^ (F.precision - 1) * 2 ^ F.exponent x = 2 ^ Int.log 2 x := by
      rw [← zpow_natCast, ← zpow_add₀ two_ne_zero]
      congr 1
      omega
    have hle : (2 : α) ^ Int.log 2 x ≤ x := by
      exact_mod_cast Int.zpow_log_le_self (b := 2) one_lt_two hpos
    have hmul := @multiple_le_round α _ _ _ F x _ (2 ^ (F.precision - 1))
    push_cast at hmul
    exact hmul (hlog ▸ hle)
  have hhalf : 2 ^ F.exponent x / 2 ≤ F.round x * (2 ^ F.precision)⁻¹ := by
    have hdouble : (2 : α) ^ F.precision = 2 * 2 ^ (F.precision - 1) := by
      rw [← pow_succ', Nat.sub_add_cancel hprec]
    rw [← div_eq_mul_inv, le_div_iff₀ hpow]
    calc 2 ^ F.exponent x / 2 * 2 ^ F.precision
        = 2 ^ (F.precision - 1) * 2 ^ F.exponent x := by rw [hdouble]; ring
      _ ≤ F.round x := hfirst
  have hnear : x ≤ F.round x + 2 ^ F.exponent x / 2 := by
    have hquot := le_roundEven_add_half (x / 2 ^ F.exponent x)
    rw [div_le_iff₀ (two_zpow_pos _)] at hquot
    calc x ≤ (roundEven (x / 2 ^ F.exponent x) + 1 / 2) * 2 ^ F.exponent x := hquot
      _ = F.round x + 2 ^ F.exponent x / 2 := by unfold round; ring
  calc x ≤ F.round x + 2 ^ F.exponent x / 2 := hnear
    _ ≤ F.round x + F.round x * (2 ^ F.precision)⁻¹ := add_le_add_right hhalf _
    _ = F.round x * (1 + (2 ^ F.precision)⁻¹) := by ring

end Format

end Rounding
