import Mathlib.Algebra.BigOperators.Group.List.Basic
import Mathlib.Algebra.Ring.Nat
import Mathlib.Order.Interval.Finset.Nat

/-!
# Gaps in a numbering

Of numbered items only some arrive, in order. What a receiver can tell of the others, when it
sees the numbers modulo `m` only, is each gap modulo `m`.
-/

namespace Gaps

/-- How many numbers are left out between one member of the list and the next. -/
def gaps : List ℕ → List ℕ
  | a :: b :: ns => (b - a - 1) :: gaps (b :: ns)
  | _ => []

/-- The numbers between the first and the last member that are left out. -/
def missing (ns : List ℕ) : Finset ℕ :=
  (Finset.Ico (ns.headD 0) (ns.getLastD 0)).filter (· ∉ ns)

/-- The sum of the gaps, each seen modulo `m`. -/
def visible (m : ℕ) (ns : List ℕ) : ℕ := ((gaps ns).map (· % m)).sum

@[simp] lemma gaps_nil : gaps [] = [] := rfl

@[simp] lemma gaps_singleton (a : ℕ) : gaps [a] = [] := rfl

@[simp] lemma gaps_cons_cons (a b : ℕ) (ns : List ℕ) :
    gaps (a :: b :: ns) = (b - a - 1) :: gaps (b :: ns) := rfl

lemma visible_cons_cons (m a b : ℕ) (ns : List ℕ) :
    visible m (a :: b :: ns) = (b - a - 1) % m + visible m (b :: ns) := by
  simp [visible]

/-! ## The gaps add up to what is missing -/

section Increasing

variable {a : ℕ} {ns : List ℕ}

/-- The members of an increasing list lie between its ends. -/
lemma mem_bounds (h : (a :: ns).Pairwise (· < ·)) {n : ℕ} (hn : n ∈ a :: ns) :
    a ≤ n ∧ n ≤ ns.getLastD a := by
  induction ns generalizing a n with
  | nil =>
    rw [List.mem_singleton.mp hn]
    exact ⟨le_rfl, le_rfl⟩
  | cons b ns ih =>
    obtain ⟨hab, hb⟩ := List.pairwise_cons.mp h
    have hlt : a < b := hab b List.mem_cons_self
    rw [List.getLastD_cons]
    rcases List.mem_cons.mp hn with rfl | hn
    · -- the first member is below the last one of the rest
      have hlast := (ih hb List.getLastD_mem_cons).1
      omega
    · have hbounds := ih hb hn
      omega

lemma sum_gaps (h : (a :: ns).Pairwise (· < ·)) :
    (gaps (a :: ns)).sum + ns.length = ns.getLastD a - a := by
  induction ns generalizing a with
  | nil => simp
  | cons b ns ih =>
    obtain ⟨hab, hb⟩ := List.pairwise_cons.mp h
    have hlt : a < b := hab b List.mem_cons_self
    have hlast := (mem_bounds hb List.mem_cons_self).2
    have hrest := ih hb
    rw [gaps_cons_cons, List.sum_cons, List.length_cons, List.getLastD_cons]
    omega

/-- **The gaps add up to what is missing.** -/
theorem card_missing {ns : List ℕ} (h : ns.Pairwise (· < ·)) :
    (missing ns).card = (gaps ns).sum := by
  cases ns with
  | nil => rfl
  | cons a ns =>
    have hsub : (a :: ns).toFinset ⊆ Finset.Icc a (ns.getLastD a) := by
      intro n hn
      exact Finset.mem_Icc.mpr (mem_bounds h (List.mem_toFinset.mp hn))
    have hlast : ns.getLastD a ∈ a :: ns := List.getLastD_mem_cons
    have hmissing : missing (a :: ns) = Finset.Icc a (ns.getLastD a) \ (a :: ns).toFinset := by
      ext n
      simp only [missing, List.headD_cons, List.getLastD_cons, Finset.mem_filter, Finset.mem_Ico,
        Finset.mem_sdiff, Finset.mem_Icc, List.mem_toFinset]
      constructor
      · intro hn
        exact ⟨⟨hn.1.1, hn.1.2.le⟩, hn.2⟩
      · intro hn
        -- the last member is not missing
        have hne : n ≠ ns.getLastD a := fun heq => hn.2 (heq ▸ hlast)
        exact ⟨⟨hn.1.1, lt_of_le_of_ne hn.1.2 hne⟩, hn.2⟩
    have hnodup : (a :: ns).Nodup := h.imp (fun hlt => Nat.ne_of_lt hlt)
    have hsum := sum_gaps h
    have hle := (mem_bounds h hlast).1
    rw [hmissing, Finset.card_sdiff_of_subset hsub, Nat.card_Icc,
      List.toFinset_card_of_nodup hnodup, List.length_cons]
    omega

end Increasing

/-! ## Counting modulo `m` -/

lemma sum_map_mod_le (m : ℕ) (gs : List ℕ) : (gs.map (· % m)).sum ≤ gs.sum := by
  induction gs with
  | nil => simp
  | cons g gs ih =>
    have hg := Nat.mod_le g m
    rw [List.map_cons, List.sum_cons, List.sum_cons]
    omega

variable {m : ℕ} {ns : List ℕ}

lemma visible_le : visible m ns ≤ (gaps ns).sum := sum_map_mod_le m (gaps ns)

/-- Nothing escapes a counter modulo `m` exactly when each gap is shorter than `m`. -/
theorem visible_eq_iff (hm : 0 < m) : visible m ns = (gaps ns).sum ↔ ∀ g ∈ gaps ns, g < m := by
  unfold visible
  induction gaps ns with
  | nil => simp
  | cons g gs ih =>
    have hg := Nat.mod_le g m
    have hrest := sum_map_mod_le m gs
    rw [List.map_cons, List.sum_cons, List.sum_cons, List.forall_mem_cons, ← ih]
    constructor
    · intro h
      have hself : g % m = g := by omega
      have hlt := Nat.mod_lt g hm
      exact ⟨by omega, by omega⟩
    · intro h
      rw [Nat.mod_eq_of_lt h.1, h.2]

end Gaps
