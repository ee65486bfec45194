import Mathlib.Data.List.Sort
import Mathlib.Data.List.Nodup
import Mathlib.Order.Compare
import Mathlib.Order.Interval.Finset.Nat

/-!
# Ordered maps

`BTreeMap κ β` is the extensional tree map of the standard library at the order of `κ`:
two maps are equal as soon as all their lookups agree. The lemmas restate lookups after
an update with `=` in place of `compare`, and describe the iteration order: `keys` is
strictly increasing, and its last element is the largest key.
-/

/-- A finite map with ordered keys. -/
abbrev BTreeMap (κ : Type) (β : Type) [LinearOrder κ] : Type := Std.ExtTreeMap κ β compare

namespace BTreeMap

variable {κ β : Type} [LinearOrder κ] {m : BTreeMap κ β} {k a : κ} {v v' : β}

/-! ## Lookups -/

lemma get_insert : (m.insert k v)[a]? = if k = a then some v else m[a]? := by
  rw [Std.ExtTreeMap.getElem?_insert]
  simp only [compare_eq_iff_eq]

/-- A binding after an insertion is the new one or was there before. -/
lemma get_of_get_insert (h : (m.insert k v)[a]? = some v') :
    (k = a ∧ v' = v) ∨ (k ≠ a ∧ m[a]? = some v') := by
  rw [get_insert] at h
  by_cases hka : k = a
  · rw [if_pos hka, Option.some.injEq] at h
    exact Or.inl ⟨hka, h.symm⟩
  · rw [if_neg hka] at h
    exact Or.inr ⟨hka, h⟩

lemma get_erase : (m.erase k)[a]? = if k = a then none else m[a]? := by
  rw [Std.ExtTreeMap.getElem?_erase]
  simp only [compare_eq_iff_eq]

lemma get_erase_ne (h : k ≠ a) : (m.erase k)[a]? = m[a]? := by
  rw [get_erase, if_neg h]

/-- A binding that survives an erasure was there before. -/
lemma get_of_get_erase (h : (m.erase k)[a]? = some v) : k ≠ a ∧ m[a]? = some v := by
  rw [get_erase] at h
  by_cases hka : k = a
  · simp [hka] at h
  · exact ⟨hka, by simpa [hka] using h⟩

/-- Erasing an absent key changes nothing. -/
lemma erase_of_get_eq_none (h : m[k]? = none) : m.erase k = m := by
  refine Std.ExtTreeMap.ext_getElem? fun a => ?_
  rw [get_erase]
  by_cases hka : k = a
  · rw [if_pos hka, ← hka, h]
  · rw [if_neg hka]

lemma mem_iff : k ∈ m ↔ ∃ v, m[k]? = some v := by
  rw [Std.ExtTreeMap.mem_iff_isSome_getElem?, Option.isSome_iff_exists]

lemma not_mem_iff : k ∉ m ↔ m[k]? = none := by
  rw [mem_iff]
  cases m[k]? <;> simp

/-! ## Iteration order -/

lemma mem_keys : k ∈ m.keys ↔ ∃ v, m[k]? = some v := by
  rw [Std.ExtTreeMap.mem_keys, mem_iff]

lemma keys_sorted (m : BTreeMap κ β) : m.keys.Pairwise (· < ·) := by
  have h := Std.ExtTreeMap.ordered_keys (t := m)
  simpa only [compare_lt_iff_lt] using h

/-- Maps that are defined at the same keys list them alike. -/
lemma keys_congr {m' : BTreeMap κ β} (h : ∀ k : κ, m[k]?.isSome = m'[k]?.isSome) :
    m.keys = m'.keys := by
  have hmem : ∀ k, k ∈ m.keys ↔ k ∈ m'.keys := by
    intro k
    rw [mem_keys, mem_keys, ← Option.isSome_iff_exists, ← Option.isSome_iff_exists, h]
  exact ((keys_sorted m).eq_of_mem_iff (keys_sorted m') hmem)

/-- In a strictly increasing list, the last element is an upper bound. -/
lemma le_getLast_of_sorted {l : List κ} (h : l.Pairwise (· < ·)) {hi : κ}
    (hlast : l.getLast? = some hi) : ∀ x ∈ l, x ≤ hi := by
  obtain ⟨init, rfl⟩ := List.getLast?_eq_some_iff.mp hlast
  intro x hx
  rcases List.mem_append.mp hx with hx | hx
  · exact le_of_lt ((List.pairwise_append.mp h).2.2 x hx hi (List.mem_singleton_self hi))
  · exact le_of_eq (List.mem_singleton.mp hx)

/-- `keys().next_back()` is the largest key. -/
lemma getLast?_keys_eq_some {hi : κ} :
    m.keys.getLast? = some hi ↔ (∃ v, m[hi]? = some v) ∧ ∀ (k : κ) v, m[k]? = some v → k ≤ hi := by
  constructor
  · intro h
    refine ⟨mem_keys.mp (List.mem_of_getLast? h), fun k v hk => ?_⟩
    exact le_getLast_of_sorted (keys_sorted m) h k (mem_keys.mpr ⟨v, hk⟩)
  · rintro ⟨hmem, hmax⟩
    cases hlast : m.keys.getLast? with
    | none =>
      rw [List.getLast?_eq_none_iff] at hlast
      have := mem_keys.mpr hmem
      simp [hlast] at this
    | some hi' =>
      obtain ⟨v', hv'⟩ := mem_keys.mp (List.mem_of_getLast? hlast)
      have h₁ := hmax hi' v' hv'
      have h₂ := le_getLast_of_sorted (keys_sorted m) hlast hi (mem_keys.mpr hmem)
      rw [le_antisymm h₁ h₂]

lemma getLast?_keys_eq_none : m.keys.getLast? = none ↔ ∀ k : κ, m[k]? = none := by
  rw [List.getLast?_eq_none_iff, List.eq_nil_iff_forall_not_mem]
  refine forall_congr' fun k => ?_
  rw [mem_keys]
  cases m[k]? <;> simp

/-- A map whose keys lie in an interval of length `n` has at most `n` entries. -/
lemma size_le_of_keys_in {β : Type} {m : BTreeMap ℕ β} {lo n : ℕ}
    (h : ∀ k v, m[k]? = some v → lo ≤ k ∧ k < lo + n) : m.size ≤ n := by
  rw [← Std.ExtTreeMap.length_keys, ← List.toFinset_card_of_nodup Std.ExtTreeMap.nodup_keys]
  have hsub : m.keys.toFinset ⊆ Finset.Ico lo (lo + n) := by
    intro k hk
    obtain ⟨v, hv⟩ := mem_keys.mp (List.mem_toFinset.mp hk)
    exact Finset.mem_Ico.mpr (h k v hv)
  calc m.keys.toFinset.card ≤ (Finset.Ico lo (lo + n)).card := Finset.card_le_card hsub
    _ = n := by rw [Nat.card_Ico]; omega

end BTreeMap
