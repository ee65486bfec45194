import Mathlib.Data.List.Basic
import Mathlib.Data.List.Induction
import Mathlib.Tactic.Common

/-!
# Deterministic labelled machines

A machine is a partial step function `step : σ → α → Option σ`: an action is either
not enabled (`none`) or leads to exactly one state. This file has the vocabulary the
program proofs are written in: finite runs, reachable states, the induction rule that
carries a fact about the actions performed so far, and forward simulation against a
second machine whose operations are read off the first machine's steps.
-/

namespace Machine

universe u v w x

variable {σ : Type u} {α : Type v} {ω : Type w} {τ : Type x}

/-! ## Runs -/

/-- Perform a list of actions; `none` as soon as one of them is not enabled. -/
def run (step : σ → α → Option σ) (s : σ) (acts : List α) : Option σ :=
  acts.foldlM step s

section Run

variable (step : σ → α → Option σ)

@[simp] lemma run_nil (s : σ) : run step s [] = some s := rfl

lemma run_cons (s : σ) (a : α) (acts : List α) :
    run step s (a :: acts) = (step s a).bind fun s' => run step s' acts := rfl

/-- A run of `xs ++ ys` is a run of `xs` followed by a run of `ys`. -/
lemma run_append (s : σ) (xs ys : List α) :
    run step s (xs ++ ys) = (run step s xs).bind fun s' => run step s' ys := by
  simp only [run, List.foldlM_append]
  rfl

lemma run_concat (s : σ) (xs : List α) (a : α) :
    run step s (xs ++ [a]) = (run step s xs).bind fun s' => step s' a := by
  rw [run_append]
  congr 1
  funext s'
  rw [run_cons]
  cases step s' a <;> rfl

variable {step}

/-- The states on both sides of the cut of a run. -/
lemma run_append_eq_some {s t : σ} {xs ys : List α} :
    run step s (xs ++ ys) = some t ↔
      ∃ m, run step s xs = some m ∧ run step m ys = some t := by
  rw [run_append, Option.bind_eq_some_iff]

lemma run_concat_eq_some {s t : σ} {xs : List α} {a : α} :
    run step s (xs ++ [a]) = some t ↔ ∃ m, run step s xs = some m ∧ step m a = some t := by
  rw [run_concat, Option.bind_eq_some_iff]

lemma run_cons_eq_some {s t : σ} {a : α} {acts : List α} :
    run step s (a :: acts) = some t ↔ ∃ m, step s a = some m ∧ run step m acts = some t := by
  rw [run_cons, Option.bind_eq_some_iff]

/-- Each action of a run is enabled in the state it is performed in. -/
lemma exists_step_of_run {s t m : σ} {pre post : List α} {a : α}
    (h : run step s (pre ++ a :: post) = some t) (hm : run step s pre = some m) :
    ∃ m', step m a = some m' ∧ run step s (pre ++ [a]) = some m' := by
  obtain ⟨m₁, hm₁, hrest⟩ := run_append_eq_some.mp h
  obtain rfl := Option.some.inj (hm.symm.trans hm₁)
  obtain ⟨m', hstep, -⟩ := run_cons_eq_some.mp hrest
  exact ⟨m', hstep, run_concat_eq_some.mpr ⟨m, hm, hstep⟩⟩

/-- **Induction over a run, with its history.** A relation between the actions performed
so far and the state reached holds of every run if it holds at the start and survives
each enabled action. -/
theorem run_induction {P : List α → σ → Prop} {s₀ : σ} (h₀ : P [] s₀)
    (hstep : ∀ acts s a s', run step s₀ acts = some s → P acts s → step s a = some s' →
      P (acts ++ [a]) s') :
    ∀ {acts : List α} {s : σ}, run step s₀ acts = some s → P acts s := by
  intro acts
  induction acts using List.reverseRecOn with
  | nil =>
    intro s h
    obtain rfl : s₀ = s := by simpa using h
    exact h₀
  | append_singleton acts a ih =>
    intro s h
    obtain ⟨m, hm, ha⟩ := run_concat_eq_some.mp h
    exact hstep acts m a s hm (ih hm) ha

/-- Two cuts of a list at which an element stands, when the list grows by one element:
the cut is an old one or it stands at the new end. -/
lemma cut_concat {pre post acts : List α} {a b : α} (h : acts ++ [b] = pre ++ a :: post) :
    (∃ post', acts = pre ++ a :: post' ∧ post = post' ++ [b]) ∨
      (acts = pre ∧ b = a ∧ post = []) := by
  rcases List.eq_nil_or_concat post with rfl | ⟨post', c, rfl⟩
  · right
    have := List.append_inj' h rfl
    simpa using this
  · left
    have h' : acts ++ [b] = (pre ++ a :: post') ++ [c] := by simpa using h
    obtain ⟨h₁, h₂⟩ := List.append_inj' h' rfl
    obtain rfl := List.singleton_inj.mp h₂
    exact ⟨post', h₁, by simp⟩

/-- **Induction over a run whose actions are all of a kind.** -/
theorem run_induction_forall {P : List α → σ → Prop} {K : α → Prop} {s₀ : σ} (h₀ : P [] s₀)
    (hstep : ∀ acts s a s', run step s₀ acts = some s → (∀ b ∈ acts, K b) → P acts s → K a →
      step s a = some s' → P (acts ++ [a]) s') {acts : List α} {s : σ}
    (hK : ∀ a ∈ acts, K a) (h : run step s₀ acts = some s) : P acts s := by
  refine run_induction (P := fun acts s => (∀ a ∈ acts, K a) → P acts s) (fun _ => h₀) ?_ h hK
  intro acts s a s' hrun hP ha hK
  have hacts : ∀ b ∈ acts, K b := fun b hb => hK b (List.mem_append_left _ hb)
  have hlast : K a := hK a (List.mem_append_right _ (List.mem_singleton_self a))
  exact hstep acts s a s' hrun hacts (hP hacts) hlast ha

end Run

/-! ## Conditions on the steps of a run -/

/-- `Q` holds of each step of a run: of each action performed and the state it is
performed in. -/
def EachStep (step : σ → α → Option σ) (s₀ : σ) (Q : σ → α → Prop) (acts : List α) : Prop :=
  ∀ pre a post s, acts = pre ++ a :: post → run step s₀ pre = some s → Q s a

/-- `S` holds of each state a run passes through. -/
def EachState (step : σ → α → Option σ) (s₀ : σ) (S : σ → Prop) (acts : List α) : Prop :=
  ∀ pre post s, acts = pre ++ post → run step s₀ pre = some s → S s

section EachStep

variable {step : σ → α → Option σ} {s₀ : σ} {Q : σ → α → Prop}

lemma EachStep.nil : EachStep step s₀ Q [] := by
  intro pre a post s h
  simp at h

lemma EachStep.of_append {xs ys : List α} (h : EachStep step s₀ Q (xs ++ ys)) :
    EachStep step s₀ Q xs := by
  intro pre a post s hcut hrun
  exact h pre a (post ++ ys) s (by rw [hcut]; simp) hrun

lemma eachStep_concat {acts : List α} {a : α} {s : σ} (hrun : run step s₀ acts = some s) :
    EachStep step s₀ Q (acts ++ [a]) ↔ EachStep step s₀ Q acts ∧ Q s a := by
  constructor
  · intro h
    exact ⟨h.of_append, h acts a [] s rfl hrun⟩
  · rintro ⟨hacts, ha⟩ pre b post s' hcut hrun'
    rcases cut_concat hcut with ⟨post', hcut', -⟩ | ⟨rfl, rfl, -⟩
    · exact hacts pre b post' s' hcut' hrun'
    · obtain rfl := Option.some.inj (hrun.symm.trans hrun')
      exact ha

lemma EachStep.mono {Q' : σ → α → Prop} {acts : List α} (h : EachStep step s₀ Q acts)
    (himp : ∀ s a, Q s a → Q' s a) : EachStep step s₀ Q' acts :=
  fun pre a post s hcut hrun => himp s a (h pre a post s hcut hrun)

/-- `EachStep` for a condition that can be tested. -/
def checkSteps (step : σ → α → Option σ) (q : σ → α → Bool) : σ → List α → Bool
  | _, [] => true
  | s, a :: acts =>
    q s a && match step s a with
      | some s' => checkSteps step q s' acts
      | none => true

lemma eachStep_of_checkSteps {q : σ → α → Bool} {acts : List α}
    (h : checkSteps step q s₀ acts = true) :
    EachStep step s₀ (fun s a => q s a = true) acts := by
  intro pre a post s hcut hrun
  induction pre generalizing s₀ acts with
  | nil =>
    obtain rfl : s₀ = s := by simpa using hrun
    subst hcut
    simp only [List.nil_append, checkSteps, Bool.and_eq_true] at h
    exact h.1
  | cons b pre ih =>
    obtain ⟨s₁, hs₁, hrun⟩ := run_cons_eq_some.mp hrun
    subst hcut
    simp only [List.cons_append, checkSteps, hs₁, Bool.and_eq_true] at h
    exact ih h.2 rfl hrun

/-- The test, for a decidable condition. -/
lemma eachStep_of_decide [∀ s a, Decidable (Q s a)] {acts : List α}
    (h : checkSteps step (fun s a => decide (Q s a)) s₀ acts = true) :
    EachStep step s₀ Q acts :=
  (eachStep_of_checkSteps h).mono fun _ _ hQ => of_decide_eq_true hQ

/-- **Induction over a run whose steps all satisfy a condition.** -/
theorem run_induction_of {P : List α → σ → Prop} (h₀ : P [] s₀)
    (hstep : ∀ acts s a s', run step s₀ acts = some s → EachStep step s₀ Q acts → P acts s →
      Q s a → step s a = some s' → P (acts ++ [a]) s') {acts : List α} {s : σ}
    (hQ : EachStep step s₀ Q acts) (h : run step s₀ acts = some s) : P acts s := by
  refine run_induction (P := fun acts s => EachStep step s₀ Q acts → P acts s)
    (fun _ => h₀) ?_ h hQ
  intro acts s a s' hrun hP ha hQ
  obtain ⟨hacts, hQa⟩ := (eachStep_concat hrun).mp hQ
  exact hstep acts s a s' hrun hacts (hP hacts) hQa ha

end EachStep

/-! ## Reachable states -/

/-- Some finite run leads from `s₀` to `s`. -/
def Reachable (step : σ → α → Option σ) (s₀ s : σ) : Prop :=
  ∃ acts, run step s₀ acts = some s

section Reachable

variable {step : σ → α → Option σ}

/-- **Invariant rule.** A predicate that holds at the start and survives each enabled
action from a reachable state holds of every reachable state. -/
theorem Reachable.invariant {P : σ → Prop} {s₀ : σ} (h₀ : P s₀)
    (hstep : ∀ s a s', Reachable step s₀ s → P s → step s a = some s' → P s') {s : σ}
    (h : Reachable step s₀ s) : P s := by
  obtain ⟨acts, hacts⟩ := h
  exact run_induction (P := fun _ s => P s) h₀
    (fun acts s a s' hr hP ha => hstep s a s' ⟨acts, hr⟩ hP ha) hacts

end Reachable

/-! ## Termination -/

section Measure

variable {step : σ → α → Option σ} {μ : σ → ℕ}

/-- A run performs no more of the actions that use up the measure than there is of it. -/
theorem countP_le_measure {q : α → Bool}
    (hstep : ∀ s a s', step s a = some s' → μ s' + (if q a then 1 else 0) ≤ μ s)
    {s t : σ} {acts : List α} (h : run step s acts = some t) : acts.countP q + μ t ≤ μ s := by
  induction acts generalizing s with
  | nil =>
    obtain rfl : s = t := by simpa using h
    simp
  | cons a acts ih =>
    obtain ⟨m, hm, hrun⟩ := run_cons_eq_some.mp h
    have hfirst := hstep s a m hm
    have hrest := ih hrun
    rw [List.countP_cons]
    omega

/-- If the actions `A` lead on from each state that is not final, and use up the measure, then
they lead to a final state. -/
theorem exists_run_of_measure {P final : σ → Prop} {A : α → Prop}
    (hstep : ∀ s, P s → ¬ final s → ∃ a s', A a ∧ step s a = some s' ∧ P s' ∧ μ s' < μ s)
    {s : σ} (hs : P s) : ∃ acts t, run step s acts = some t ∧ (∀ a ∈ acts, A a) ∧ final t := by
  induction hn : μ s using Nat.strongRecOn generalizing s with
  | ind n ih =>
    by_cases hfinal : final s
    · exact ⟨[], s, rfl, fun a ha => absurd ha List.not_mem_nil, hfinal⟩
    · obtain ⟨a, s', ha, hstep', hs', hless⟩ := hstep s hs hfinal
      obtain ⟨acts, t, hrun, hacts, ht⟩ := ih (μ s') (hn ▸ hless) hs' rfl
      refine ⟨a :: acts, t, run_cons_eq_some.mpr ⟨s', hstep', hrun⟩, ?_, ht⟩
      intro b hb
      rcases List.mem_cons.mp hb with rfl | hb
      · exact ha
      · exact hacts b hb

end Measure

/-! ## Forward simulation -/

/-- The operations a run performs, when `label s a` are those of the step from `s`. -/
def trace (step : σ → α → Option σ) (label : σ → α → List ω) : σ → List α → List ω
  | _, [] => []
  | s, a :: acts =>
    label s a ++ match step s a with
      | some s' => trace step label s' acts
      | none => []

section Simulation

variable {step : σ → α → Option σ} {label : σ → α → List ω}

lemma trace_append {s m : σ} {xs ys : List α} (h : run step s xs = some m) :
    trace step label s (xs ++ ys) = trace step label s xs ++ trace step label m ys := by
  induction xs generalizing s with
  | nil =>
    obtain rfl : s = m := by simpa using h
    rfl
  | cons x xs ih =>
    obtain ⟨s', hs', hr⟩ := run_cons_eq_some.mp h
    simp only [List.cons_append, trace, hs', ih hr, List.append_assoc]

lemma trace_concat {s m : σ} {xs : List α} (a : α) (h : run step s xs = some m) :
    trace step label s (xs ++ [a]) = trace step label s xs ++ label m a := by
  rw [trace_append h]
  simp only [trace]
  cases step m a <;> simp

/-- The operations of each step of a run are in its trace. -/
lemma mem_trace_of_cut {s m : σ} {pre post : List α} {a : α} {o : ω}
    (h : run step s pre = some m) (ho : o ∈ label m a) :
    o ∈ trace step label s (pre ++ a :: post) := by
  rw [trace_append h]
  exact List.mem_append_right _ (List.mem_append_left _ ho)

/-- **Forward simulation.** If every concrete step from related states is matched by the
abstract operations it is labelled with, then every concrete run is matched by the
abstract run of its trace. -/
theorem simulation {astep : τ → ω → Option τ} {R : σ → τ → Prop} {s₀ : σ} {t₀ : τ}
    (h₀ : R s₀ t₀)
    (hstep : ∀ s t a s', Reachable step s₀ s → R s t → step s a = some s' →
      ∃ t', run astep t (label s a) = some t' ∧ R s' t') :
    ∀ {acts : List α} {s : σ}, run step s₀ acts = some s →
      ∃ t, run astep t₀ (trace step label s₀ acts) = some t ∧ R s t := by
  refine run_induction (P := fun acts s =>
    ∃ t, run astep t₀ (trace step label s₀ acts) = some t ∧ R s t) ⟨t₀, rfl, h₀⟩ ?_
  rintro acts s a s' hr ⟨t, ht, hR⟩ ha
  obtain ⟨t', ht', hR'⟩ := hstep s t a s' ⟨acts, hr⟩ hR ha
  refine ⟨t', ?_, hR'⟩
  rw [trace_concat a hr]
  exact run_append_eq_some.mpr ⟨t, ht, ht'⟩

/-- A condition on the steps of a run, as one on the steps of its trace. No step performs more
than one operation. -/
theorem EachStep.trace {astep : τ → ω → Option τ} {f : σ → τ} {Q : τ → ω → Prop} {s₀ : σ} {t₀ : τ}
    (hsim : ∀ {acts s}, run step s₀ acts = some s →
      run astep t₀ (Machine.trace step label s₀ acts) = some (f s))
    (hone : ∀ s a, (label s a).length ≤ 1) {acts : List α} {s : σ}
    (hrun : run step s₀ acts = some s)
    (h : EachStep step s₀ (fun s a => ∀ o ∈ label s a, Q (f s) o) acts) :
    EachStep astep t₀ Q (Machine.trace step label s₀ acts) := by
  refine run_induction_of (P := fun acts _ =>
    EachStep astep t₀ Q (Machine.trace step label s₀ acts)) EachStep.nil ?_ h hrun
  intro acts s a s' hr _ ih ha _
  rw [trace_concat a hr]
  have hlength := hone s a
  cases hlabel : label s a with
  | nil =>
    rw [List.append_nil]
    exact ih
  | cons o rest =>
    rw [hlabel] at ha hlength
    obtain rfl : rest = [] := by simpa using hlength
    exact (eachStep_concat (hsim hr)).mpr ⟨ih, ha o (List.mem_singleton_self o)⟩

end Simulation

end Machine
