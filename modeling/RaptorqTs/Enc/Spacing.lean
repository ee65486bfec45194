import RaptorqTs.Enc.InBand
import RaptorqTs.Lib.Comb

/-!
# The spacing of repair packets

`interleave` yields one repair packet after every `rep_interval` source packets, and what is
left of the repair packets at the end. The positions of the repair packets follow from one
invariant of its two counters.
-/

namespace RaptorqTs.Enc

/-- Where a call of the closure takes its packet from: a repair packet that is due, the next
source packet, or a repair packet left when there are no source packets any more. -/
inductive Arm where
  | due
  | source
  | leftover
deriving DecidableEq, Repr

namespace Interleave

variable {it it' : Interleave} {p : EncodingPacket}

/-- The arm of the closure that a call takes. -/
def arm (it : Interleave) : Arm :=
  if it.nextRepAfter ≤ it.srcCount ∧ it.repair ≠ [] then .due
  else if it.source ≠ [] then .source
  else .leftover

/-- What a call does in each arm. -/
inductive Takes (it : Interleave) : Arm → EncodingPacket → Interleave → Prop
  | due {r repair} (hdue : it.nextRepAfter ≤ it.srcCount) (hrepair : it.repair = r :: repair) :
      Takes it .due r { it with
        repair := repair
        nextRepAfter := it.nextRepAfter + it.repInterval }
  | source {s source} (hwait : it.repair = [] ∨ it.srcCount < it.nextRepAfter)
      (hsource : it.source = s :: source) :
      Takes it .source s { it with source := source, srcCount := it.srcCount + 1 }
  | leftover {r repair} (hwait : it.srcCount < it.nextRepAfter) (hsource : it.source = [])
      (hrepair : it.repair = r :: repair) :
      Takes it .leftover r { it with repair := repair }

/-- A call that comes to the match on `src_it.next()`. -/
lemma nextSource_takes (hwait : it.repair = [] ∨ it.srcCount < it.nextRepAfter)
    (h : it.nextSource = some (p, it')) : Takes it it.arm p it' := by
  have hnotDue : ¬ (it.nextRepAfter ≤ it.srcCount ∧ it.repair ≠ []) := by
    rintro ⟨hle, hne⟩
    rcases hwait with hnil | hlt
    · exact hne hnil
    · omega
  unfold arm
  rw [if_neg hnotDue]
  unfold nextSource at h
  cases hs : it.source with
  | cons s source =>
    rw [hs] at h
    simp only [Option.some.injEq, Prod.mk.injEq] at h
    rw [if_pos (List.cons_ne_nil s source), ← h.1, ← h.2]
    exact .source hwait hs
  | nil =>
    rw [hs] at h
    cases hr : it.repair with
    | cons r repair =>
      rw [hr] at h
      simp only [Option.some.injEq, Prod.mk.injEq] at h
      have hit : it' = { it with repair := repair } := by rw [← h.2, hs]
      rw [if_neg (by simp), ← h.1, hit]
      refine .leftover ?_ hs hr
      rw [hr] at hwait
      exact hwait.resolve_left (List.cons_ne_nil r repair)
    | nil =>
      rw [hr] at h
      cases h

/-- **Inversion of a call.** -/
lemma next_takes (h : it.next = some (p, it')) : Takes it it.arm p it' := by
  unfold next at h
  by_cases hdue : it.nextRepAfter ≤ it.srcCount
  · rw [if_pos hdue] at h
    cases hr : it.repair with
    | cons r repair =>
      rw [hr] at h
      simp only [Option.some.injEq, Prod.mk.injEq] at h
      unfold arm
      rw [if_pos ⟨hdue, by simp [hr]⟩, ← h.1, ← h.2]
      exact .due hdue hr
    | nil =>
      rw [hr] at h
      exact nextSource_takes (Or.inl hr) h
  · rw [if_neg hdue] at h
    exact nextSource_takes (Or.inr (by omega)) h

/-! ## All packets, with their arms -/

/-- What `n` calls of the closure yield, with the arms taken. -/
def drainTagged (it : Interleave) : ℕ → List (Arm × EncodingPacket)
  | 0 => []
  | n + 1 =>
    match it.next with
    | some (p, it') => (it.arm, p) :: it'.drainTagged n
    | none => []

def toTagged (it : Interleave) : List (Arm × EncodingPacket) := it.drainTagged it.rest.length

/-- The packet is a repair packet. -/
def isRepair (x : Arm × EncodingPacket) : Bool := decide (x.1 ≠ .source)

@[simp] lemma isRepair_due : isRepair (.due, p) = true := rfl

@[simp] lemma isRepair_source : isRepair (.source, p) = false := rfl

@[simp] lemma isRepair_leftover : isRepair (.leftover, p) = true := rfl

lemma toTagged_of_next (h : it.next = some (p, it')) :
    it.toTagged = (it.arm, p) :: it'.toTagged := by
  unfold toTagged
  rw [length_rest h, drainTagged, h]

lemma toTagged_of_none (h : it.next = none) : it.toTagged = [] := by
  unfold toTagged
  cases it.rest.length with
  | zero => rfl
  | succ n => rw [drainTagged, h]

lemma map_toTagged (it : Interleave) : it.toTagged.map Prod.snd = it.toList := by
  induction it using rest_induction with
  | hnone it h => rw [toTagged_of_none h, toList_of_none h, List.map_nil]
  | hnext it p it' h ih => rw [toTagged_of_next h, toList_of_next h, List.map_cons, ih]

/-- The source packets are yielded once each, in their order. -/
lemma filter_source_toTagged (it : Interleave) :
    (it.toTagged.filter fun x => !isRepair x).map Prod.snd = it.source := by
  induction it using rest_induction with
  | hnone it h =>
    have hrest := rest_of_none h
    unfold rest at hrest
    rw [toTagged_of_none h, (List.append_eq_nil_iff.mp hrest).1]
    rfl
  | hnext it p it' h ih =>
    rw [toTagged_of_next h]
    have htakes := next_takes h
    generalize it.arm = arm at htakes
    cases htakes with
    | due _ _ => rw [List.filter_cons_of_neg (by simp), ih]
    | source _ hsource =>
      rw [List.filter_cons_of_pos (by simp), List.map_cons, ih, hsource]
    | leftover _ _ _ => rw [List.filter_cons_of_neg (by simp), ih]

/-- The repair packets are yielded once each, in their order. -/
lemma filter_repair_toTagged (it : Interleave) :
    (it.toTagged.filter isRepair).map Prod.snd = it.repair := by
  induction it using rest_induction with
  | hnone it h =>
    have hrest := rest_of_none h
    unfold rest at hrest
    rw [toTagged_of_none h, (List.append_eq_nil_iff.mp hrest).2]
    rfl
  | hnext it p it' h ih =>
    rw [toTagged_of_next h]
    have htakes := next_takes h
    generalize it.arm = arm at htakes
    cases htakes with
    | due _ hrepair => rw [List.filter_cons_of_pos (by simp), List.map_cons, ih, hrepair]
    | source _ _ => rw [List.filter_cons_of_neg (by simp), ih]
    | leftover _ _ hrepair =>
      rw [List.filter_cons_of_pos (by simp), List.map_cons, ih, hrepair]

/-! ## The counters -/

/-- The counters of an iterator that was given `k` source packets and `b` repair packets. The
threshold is that of the next repair packet until the source packets are used up, and it is
never more than one interval ahead. -/
structure Counting (k b r : ℕ) (it : Interleave) : Prop where
  interval : it.repInterval = r
  count : it.srcCount + it.source.length = k
  repair_le : it.repair.length ≤ b
  threshold_le : it.nextRepAfter ≤ (b - it.repair.length + 1) * r
  threshold : it.source ≠ [] → it.nextRepAfter = (b - it.repair.length + 1) * r
  not_past : it.repair ≠ [] → it.srcCount ≤ (b - it.repair.length + 1) * r
  ahead : it.nextRepAfter ≤ it.srcCount + r

variable {k b r : ℕ}

lemma Counting.start (source repair : List EncodingPacket) (r : ℕ) :
    Counting source.length repair.length r (interleave source repair r) where
  interval := rfl
  count := Nat.zero_add _
  repair_le := le_rfl
  threshold_le := by simp [interleave]
  threshold _ := by simp [interleave]
  not_past _ := Nat.zero_le _
  ahead := by simp [interleave]

/-- The threshold moves on with each repair packet. -/
lemma left_succ {repair : List EncodingPacket} {q : EncodingPacket}
    (hrepair : it.repair = q :: repair) (hle : it.repair.length ≤ b) :
    (b - repair.length + 1) * r = (b - it.repair.length + 1) * r + r := by
  have hlen : it.repair.length = repair.length + 1 := by
    rw [hrepair, List.length_cons]
  have hsub : b - repair.length = b - it.repair.length + 1 := by omega
  rw [hsub, Nat.succ_mul]

lemma Counting.next (h : Counting k b r it) (hnext : it.next = some (p, it')) :
    Counting k b r it' := by
  have htakes := next_takes hnext
  generalize it.arm = arm at htakes
  cases htakes with
  | @due _ repair hdue hrepair =>
    have hleft := left_succ (r := r) hrepair h.repair_le
    have hlen : it.repair.length = repair.length + 1 := by
      rw [hrepair, List.length_cons]
    have hle := h.repair_le
    refine ⟨h.interval, h.count, by show repair.length ≤ b; omega, ?_, fun hsource => ?_,
      fun _ => ?_, ?_⟩
    · show it.nextRepAfter + it.repInterval ≤ (b - repair.length + 1) * r
      rw [hleft, h.interval]
      exact Nat.add_le_add_right h.threshold_le r
    · show it.nextRepAfter + it.repInterval = (b - repair.length + 1) * r
      rw [hleft, h.interval, h.threshold hsource]
    · show it.srcCount ≤ (b - repair.length + 1) * r
      rw [hleft]
      exact Nat.le_add_right_of_le (h.not_past (by rw [hrepair]; exact List.cons_ne_nil p repair))
    · show it.nextRepAfter + it.repInterval ≤ it.srcCount + r
      rw [h.interval]
      exact Nat.add_le_add_right hdue r
  | @source _ source hwait hsource =>
    have hlen : it.source.length = source.length + 1 := by
      rw [hsource, List.length_cons]
    have hcount := h.count
    have hsome : it.source ≠ [] := by
      rw [hsource]
      exact List.cons_ne_nil p source
    refine ⟨h.interval, ?_, h.repair_le, h.threshold_le, fun _ => h.threshold hsome,
      fun hrepair => ?_, ?_⟩
    · show it.srcCount + 1 + source.length = k
      omega
    · show it.srcCount + 1 ≤ (b - it.repair.length + 1) * r
      rw [← h.threshold hsome]
      exact hwait.resolve_left hrepair
    · have hahead := h.ahead
      show it.nextRepAfter ≤ it.srcCount + 1 + r
      omega
  | @leftover _ repair hwait hsource hrepair =>
    have hleft := left_succ (r := r) hrepair h.repair_le
    have hlen : it.repair.length = repair.length + 1 := by
      rw [hrepair, List.length_cons]
    have hle := h.repair_le
    refine ⟨h.interval, h.count, by show repair.length ≤ b; omega, ?_,
      fun hne => absurd hsource hne, fun _ => ?_, h.ahead⟩
    · show it.nextRepAfter ≤ (b - repair.length + 1) * r
      rw [hleft]
      exact Nat.le_add_right_of_le h.threshold_le
    · show it.srcCount ≤ (b - repair.length + 1) * r
      rw [hleft]
      exact Nat.le_add_right_of_le (h.not_past (by rw [hrepair]; exact List.cons_ne_nil p repair))

/-- A repair packet is yielded when its share of the source packets has been, or all of them. -/
lemma Counting.srcCount_eq (h : Counting k b r it) (hnext : it.next = some (p, it'))
    (hrepair : isRepair (it.arm, p) = true) :
    it.srcCount = min ((b - it.repair.length + 1) * r) k := by
  have hcount := h.count
  have hpast := h.not_past
  have htakes := next_takes hnext
  generalize it.arm = arm at htakes hrepair
  cases htakes with
  | @due _ repair hdue hq =>
    have hle := hpast (by rw [hq]; exact List.cons_ne_nil p repair)
    cases hs : it.source with
    | nil =>
      rw [hs, List.length_nil] at hcount
      omega
    | cons s source =>
      have hthreshold := h.threshold (by rw [hs]; exact List.cons_ne_nil s source)
      omega
  | source _ _ => simp at hrepair
  | @leftover _ repair _ hs hq =>
    have hle := hpast (by rw [hq]; exact List.cons_ne_nil p repair)
    rw [hs, List.length_nil] at hcount
    omega

/-- **The place of a repair packet**, for an iterator that has yielded some packets already. -/
lemma Counting.place (h : Counting k b r it) {pre post : List (Arm × EncodingPacket)}
    {x : Arm × EncodingPacket} (hcut : it.toTagged = pre ++ x :: post)
    (hx : isRepair x = true) :
    it.srcCount + pre.countP (fun y => !isRepair y) =
      min ((b - it.repair.length + pre.countP isRepair + 1) * r) k := by
  induction it using rest_induction generalizing pre with
  | hnone it hnone =>
    rw [toTagged_of_none hnone] at hcut
    simp at hcut
  | hnext it p it' hnext ih =>
    rw [toTagged_of_next hnext] at hcut
    cases pre with
    | nil =>
      -- the packet yielded now
      simp only [List.nil_append, List.cons.injEq] at hcut
      rw [← hcut.1] at hx
      exact h.srcCount_eq hnext hx
    | cons y pre =>
      simp only [List.cons_append, List.cons.injEq] at hcut
      have hrest := ih (h.next hnext) hcut.2
      have hle := h.repair_le
      have htakes := next_takes hnext
      rw [← hcut.1]
      generalize it.arm = arm at htakes
      cases htakes with
      | @due _ repair _ hq | @leftover _ repair _ _ hq =>
        have hlen : it.repair.length = repair.length + 1 := by
          rw [hq, List.length_cons]
        have hsub : b - it.repair.length + (pre.countP isRepair + 1) =
            b - repair.length + pre.countP isRepair := by
          omega
        rw [List.countP_cons_of_neg (by simp), List.countP_cons_of_pos (by simp), hsub]
        exact hrest
      | source _ _ =>
        rw [List.countP_cons_of_pos (by simp), List.countP_cons_of_neg (by simp), ← hrest]
        show it.srcCount + (_ + 1) = it.srcCount + 1 + _
        omega

/-- With room for all repair packets among the source packets none is left over. -/
lemma Counting.not_leftover (h : Counting k b r it) (hfit : b * r ≤ k) :
    ∀ x ∈ it.toTagged, x.1 ≠ .leftover := by
  induction it using rest_induction with
  | hnone it hnone =>
    rw [toTagged_of_none hnone]
    exact fun x hx => absurd hx List.not_mem_nil
  | hnext it p it' hnext ih =>
    rw [toTagged_of_next hnext]
    intro x hx
    rcases List.mem_cons.mp hx with rfl | hx
    · intro harm
      have htakes := next_takes hnext
      simp only at harm
      rw [harm] at htakes
      cases htakes with
      | @leftover _ repair hwait hsource hrepair =>
        -- the threshold of the last repair packet has been reached
        have hcount := h.count
        rw [hsource, List.length_nil] at hcount
        have hlen : it.repair.length = repair.length + 1 := by
          rw [hrepair, List.length_cons]
        have hle := h.repair_le
        have hlast : (b - it.repair.length + 1) * r ≤ b * r := Nat.mul_le_mul_right r (by omega)
        have hthreshold := h.threshold_le
        omega
    · exact ih (h.next hnext) x hx

/-! ## The width of the counters -/

/-- One call, of which only the state is kept. -/
def call (it : Interleave) (_ : Unit) : Option Interleave := it.next.map Prod.snd

lemma Counting.reachable (h : Counting k b r it) (hreach : Machine.Reachable call it it') :
    Counting k b r it' := by
  refine Machine.Reachable.invariant h ?_ hreach
  intro m _ m' _ hm hcall
  unfold call at hcall
  obtain ⟨⟨p, _⟩, hnext, rfl⟩ := Option.map_eq_some_iff.mp hcall
  exact hm.next hnext

/-- The counters as `u32`s, in a release build. -/
def wrap (it : Interleave) : Interleave :=
  { it with srcCount := it.srcCount % 2 ^ 32, nextRepAfter := it.nextRepAfter % 2 ^ 32 }

/-- One call with wrapping counters. -/
def nextWrapping (it : Interleave) : Option (EncodingPacket × Interleave) :=
  match it.next with
  | some (p, it') => some (p, it'.wrap)
  | none => none

def drainWrapping (it : Interleave) : ℕ → List EncodingPacket
  | 0 => []
  | n + 1 =>
    match it.nextWrapping with
    | some (p, it') => p :: it'.drainWrapping n
    | none => []

def toListWrapping (it : Interleave) : List EncodingPacket := it.drainWrapping it.rest.length

/-- An iterator with wrapping counters has yielded the same packets, and its counters are the
same as long as both sequences last. -/
structure Wraps (it wit : Interleave) : Prop where
  source : wit.source = it.source
  repair : wit.repair = it.repair
  interval : wit.repInterval = it.repInterval
  counters : it.source ≠ [] → it.repair ≠ [] →
    wit.srcCount = it.srcCount ∧ wit.nextRepAfter = it.nextRepAfter

/-- The interval is small enough for the counters to be exact as long as both sequences last. -/
def Narrow (k b r : ℕ) : Prop := k < 2 ^ 32 ∧ (1 ≤ b → b * r ≤ k ∨ r = 1)

lemma Counting.lt_of_both (h : Counting k b r it) (hn : Narrow k b r) (hsource : it.source ≠ [])
    (hrepair : it.repair ≠ []) : it.srcCount < 2 ^ 32 ∧ it.nextRepAfter < 2 ^ 32 := by
  obtain ⟨hk, hr⟩ := hn
  have hcount := h.count
  have hs := List.length_pos_of_ne_nil hsource
  have hp := List.length_pos_of_ne_nil hrepair
  have hle := h.repair_le
  refine ⟨by omega, ?_⟩
  rcases hr (by omega) with hfit | rfl
  · have hlast : (b - it.repair.length + 1) * r ≤ b * r := Nat.mul_le_mul_right r (by omega)
    have hthreshold := h.threshold_le
    omega
  · have hahead := h.ahead
    omega

lemma wraps_wrap {wit : Interleave} (hsource : wit.source = it.source)
    (hrepair : wit.repair = it.repair) (hinterval : wit.repInterval = it.repInterval)
    (hcounters : it.source ≠ [] → it.repair ≠ [] →
      wit.srcCount = it.srcCount ∧ wit.nextRepAfter = it.nextRepAfter)
    (hlt : it.source ≠ [] → it.repair ≠ [] → it.srcCount < 2 ^ 32 ∧ it.nextRepAfter < 2 ^ 32) :
    Wraps it wit.wrap := by
  refine ⟨hsource, hrepair, hinterval, fun hs hr => ?_⟩
  obtain ⟨hcount, hnext⟩ := hcounters hs hr
  obtain ⟨hcountLt, hnextLt⟩ := hlt hs hr
  show wit.srcCount % 2 ^ 32 = _ ∧ wit.nextRepAfter % 2 ^ 32 = _
  rw [hcount, hnext, Nat.mod_eq_of_lt hcountLt, Nat.mod_eq_of_lt hnextLt]
  exact ⟨rfl, rfl⟩

lemma next_of_source_nil (hsource : it.source = []) {repair : List EncodingPacket}
    (hrepair : it.repair = p :: repair) : ∃ it', it.next = some (p, it') ∧ it'.source = [] ∧
      it'.repair = repair ∧ it'.repInterval = it.repInterval := by
  unfold next
  by_cases hdue : it.nextRepAfter ≤ it.srcCount
  · rw [if_pos hdue, hrepair]
    exact ⟨_, rfl, hsource, rfl, rfl⟩
  · rw [if_neg hdue]
    unfold nextSource
    rw [hsource, hrepair]
    exact ⟨_, rfl, rfl, rfl, rfl⟩

lemma next_of_repair_nil (hrepair : it.repair = []) {source : List EncodingPacket}
    (hsource : it.source = p :: source) : ∃ it', it.next = some (p, it') ∧ it'.source = source ∧
      it'.repair = [] ∧ it'.repInterval = it.repInterval := by
  have hnext : it.next = it.nextSource := by
    unfold next
    rw [hrepair]
    simp
  rw [hnext]
  unfold nextSource
  rw [hsource]
  exact ⟨_, rfl, rfl, hrepair, rfl⟩

/-- The wrapping iterator yields the same packet: when one of the sequences is used up, the
counters do not matter. -/
lemma Wraps.next {wit : Interleave} (h : Wraps it wit) (hc : Counting k b r it)
    (hn : Narrow k b r) (hnext : it.next = some (p, it')) :
    ∃ wit', wit.nextWrapping = some (p, wit') ∧ Wraps it' wit' := by
  have hlt := (hc.next hnext).lt_of_both hn
  by_cases hboth : it.source ≠ [] ∧ it.repair ≠ []
  · obtain ⟨hcount, hthreshold⟩ := h.counters hboth.1 hboth.2
    have hsame : wit = it := by
      obtain ⟨hsource, hrepair, hinterval, -⟩ := h
      cases wit
      cases it
      simp_all
    subst hsame
    refine ⟨it'.wrap, by unfold nextWrapping; rw [hnext], ?_⟩
    exact wraps_wrap rfl rfl rfl (fun _ _ => ⟨rfl, rfl⟩) hlt
  · have hwraps {wit' : Interleave} (hwit : wit.next = some (p, wit'))
        (hsource : wit'.source = it'.source) (hrepair : wit'.repair = it'.repair)
        (hinterval : wit'.repInterval = it'.repInterval)
        (hone : it'.source = [] ∨ it'.repair = []) :
        ∃ wit', wit.nextWrapping = some (p, wit') ∧ Wraps it' wit' := by
      refine ⟨wit'.wrap, by unfold nextWrapping; rw [hwit], ?_⟩
      refine wraps_wrap hsource hrepair hinterval (fun hs hr => ?_) hlt
      exact (hone.elim hs hr).elim
    cases hs : it.source with
    | nil =>
      have htakes := next_takes hnext
      generalize it.arm = arm at htakes
      cases htakes with
      | @due _ repair _ hr | @leftover _ repair _ _ hr =>
        obtain ⟨wit', hwit, hsource, hrepair, hinterval⟩ :=
          next_of_source_nil (h.source.trans hs) (h.repair.trans hr)
        exact hwraps hwit (hsource.trans hs.symm) hrepair (hinterval.trans h.interval) (Or.inl hs)
      | source _ hsource =>
        rw [hs] at hsource
        cases hsource
    | cons q source =>
      have hr : it.repair = [] := by
        by_contra hne
        exact hboth ⟨by rw [hs]; exact List.cons_ne_nil q source, hne⟩
      obtain ⟨m, hm, hmsource, hmrepair, hminterval⟩ := next_of_repair_nil hr hs
      obtain ⟨rfl, rfl⟩ : q = p ∧ m = it' := by
        rw [hm] at hnext
        simpa using hnext
      obtain ⟨wit', hwit, hsource, hrepair, hinterval⟩ :=
        next_of_repair_nil (h.repair.trans hr) (h.source.trans hs)
      exact hwraps hwit (hsource.trans hmsource.symm) (hrepair.trans hmrepair.symm)
        (hinterval.trans (h.interval.trans hminterval.symm)) (Or.inr hmrepair)

lemma Wraps.next_none {wit : Interleave} (h : Wraps it wit) (hnext : it.next = none) :
    wit.nextWrapping = none := by
  have hrest := rest_of_none hnext
  unfold rest at hrest
  obtain ⟨hs, hr⟩ := List.append_eq_nil_iff.mp hrest
  have hnil : wit.next = none := by
    unfold Interleave.next nextSource
    rw [h.source, h.repair, hs, hr]
    simp
  unfold nextWrapping
  rw [hnil]

/-- **Wrapping makes no difference.** -/
lemma Wraps.drain {wit : Interleave} (h : Wraps it wit) (hc : Counting k b r it)
    (hn : Narrow k b r) (n : ℕ) : wit.drainWrapping n = it.drain n := by
  induction n generalizing it wit with
  | zero => rfl
  | succ n ih =>
    cases hnext : it.next with
    | none => rw [drainWrapping, h.next_none hnext, Interleave.drain, hnext]
    | some q =>
      obtain ⟨p, it'⟩ := q
      obtain ⟨wit', hwit, hwraps⟩ := h.next hc hn hnext
      rw [drainWrapping, hwit, Interleave.drain, hnext]
      simp only
      rw [ih hwraps (hc.next hnext)]

end Interleave

/-! ## The interval of `encoder_thread` -/

namespace Params

variable {args : Params}

lemma repInterval_of_pos (h : 0 < args.baselineRepair) :
    args.repInterval = max (args.kBlock / args.baselineRepair) 1 := if_pos h

lemma kBlock_lt (args : Params) : args.kBlock < 2 ^ 32 := Nat.mod_lt _ (by decide)

/-- All repair packets are due before the source packets are used up. -/
lemma mul_repInterval_le (hpos : 0 < args.baselineRepair)
    (hle : args.baselineRepair ≤ args.kBlock) :
    args.baselineRepair * args.repInterval ≤ args.kBlock := by
  have hone : 1 ≤ args.kBlock / args.baselineRepair := (Nat.one_le_div_iff hpos).mpr hle
  rw [repInterval_of_pos hpos, Nat.max_eq_left hone]
  exact Nat.mul_div_le _ _

lemma narrow (args : Params) :
    Interleave.Narrow args.kBlock args.baselineRepair args.repInterval := by
  refine ⟨args.kBlock_lt, fun hpos => ?_⟩
  rcases Nat.lt_or_ge args.kBlock args.baselineRepair with hlt | hle
  · right
    rw [repInterval_of_pos hpos, Nat.div_eq_of_lt hlt]
    rfl
  · exact Or.inl (mul_repInterval_le hpos hle)

/-- Between two repair packets there are at most all source packets. -/
lemma repInterval_le (hpos : 0 < args.baselineRepair) (hk : 1 ≤ args.kBlock) :
    args.repInterval ≤ args.kBlock := by
  rw [repInterval_of_pos hpos]
  exact Nat.max_le.mpr ⟨Nat.div_le_self _ _, hk⟩

end Params

namespace Interleave

/-- The sequence has each packet of `source` and of `repair` once, those of each list in their
order, and the `i`-th repair packet stands after `i * r` source packets, or all of them. -/
structure Merged (source repair : List EncodingPacket) (r : ℕ)
    (tagged : List (Arm × EncodingPacket)) : Prop where
  sources : (tagged.filter fun x => !isRepair x).map Prod.snd = source
  repairs : (tagged.filter isRepair).map Prod.snd = repair
  place : ∀ {pre x post}, tagged = pre ++ x :: post → isRepair x = true →
    pre.countP (fun y => !isRepair y) = min ((pre.countP isRepair + 1) * r) source.length

/-- The repair packets are at equal distances, and no more than their share of any window. -/
structure EvenlySpaced (r : ℕ) (tagged : List (Arm × EncodingPacket)) : Prop where
  not_leftover : ∀ x ∈ tagged, x.1 ≠ .leftover
  distance : ∀ {pre x mid y post}, tagged = pre ++ x :: mid ++ y :: post → isRepair x = true →
    isRepair y = true → (∀ z ∈ mid, isRepair z = false) → mid.length + 1 = r + 1
  window : ∀ {pre win post}, tagged = pre ++ win ++ post →
    win.countP isRepair ≤ win.length ⌈/⌉ (r + 1)

lemma merged (source repair : List EncodingPacket) (r : ℕ) :
    Merged source repair r (interleave source repair r).toTagged where
  sources := filter_source_toTagged _
  repairs := filter_repair_toTagged _
  place hcut hx := by
    have hplace := (Counting.start source repair r).place hcut hx
    simpa [interleave] using hplace

/-- No repair packet has to wait for the end, so each stands at its multiple of the interval. -/
lemma Merged.spaced {source repair : List EncodingPacket} {r : ℕ}
    {tagged : List (Arm × EncodingPacket)} (h : Merged source repair r tagged)
    (hfit : repair.length * r ≤ source.length) : Comb.Spaced (r + 1) isRepair tagged := by
  intro pre x post hcut hx
  have hplace := h.place hcut hx
  -- this repair packet is one of those counted
  have hcount : pre.countP isRepair + 1 ≤ repair.length := by
    have hlen := congrArg List.length h.repairs
    rw [List.length_map, ← List.countP_eq_length_filter, hcut, List.countP_append,
      List.countP_cons_of_pos hx] at hlen
    omega
  have hle : (pre.countP isRepair + 1) * r ≤ repair.length * r := Nat.mul_le_mul_right r hcount
  rw [Nat.min_eq_left (le_trans hle hfit)] at hplace
  have hlength := List.length_eq_countP_add_countP isRepair (l := pre)
  have hneg : pre.countP (fun y => decide ¬ isRepair y = true) =
      pre.countP (fun y => !isRepair y) := by
    congr 1
    funext y
    simp
  rw [hneg, hplace] at hlength
  rw [hlength, Nat.mul_comm (r + 1), Nat.mul_succ]
  omega

/-- **Interleaving.** For a block of `k` source packets and `b` repair packets, with the
interval that `encoder_thread` computes from `k` and `b`: nothing is lost or reordered, the
`i`-th repair packet follows `min (i * r) k` source packets, and the counters fit their 32 bits,
or it makes no difference that they do not. With at most as many repair packets as source
packets, the repair packets are evenly spaced. -/
theorem interleave_evenly_spaced (args : Params) {source repair : List EncodingPacket}
    (hsource : source.length = args.kBlock) (hpos : 1 ≤ source.length)
    (hrepair : repair.length = args.baselineRepair) :
    (interleave source repair args.repInterval).toTagged.map Prod.snd =
        (interleave source repair args.repInterval).toList ∧
      Merged source repair args.repInterval
        (interleave source repair args.repInterval).toTagged ∧
      (source.length < 2 ^ 31 →
        ∀ it, Machine.Reachable call (interleave source repair args.repInterval) it →
          it.srcCount < 2 ^ 32 ∧ it.nextRepAfter < 2 ^ 32) ∧
      (interleave source repair args.repInterval).toListWrapping =
        (interleave source repair args.repInterval).toList ∧
      (1 ≤ repair.length → repair.length ≤ source.length →
        EvenlySpaced args.repInterval
          (interleave source repair args.repInterval).toTagged) := by
  have hstart := Counting.start source repair args.repInterval
  have hmerged := merged source repair args.repInterval
  have hnarrow : Narrow source.length repair.length args.repInterval := by
    rw [hsource, hrepair]
    exact args.narrow
  refine ⟨map_toTagged _, hmerged, fun hsmall it hreach => ?_, ?_, fun hsome hle => ?_⟩
  · have hit := hstart.reachable hreach
    have hcount := hit.count
    refine ⟨by omega, ?_⟩
    rcases Nat.eq_zero_or_pos repair.length with hnone | hsome
    · -- without repair packets the threshold stays at `u32::MAX`
      have hthreshold := hit.threshold_le
      have hinterval : args.repInterval = 2 ^ 32 - 1 := by
        unfold Params.repInterval
        rw [← hrepair, hnone]
        rfl
      rw [hnone, Nat.zero_sub, Nat.zero_add, Nat.one_mul, hinterval] at hthreshold
      omega
    · have hahead := hit.ahead
      have hr := @Params.repInterval_le args (by omega) (by omega)
      omega
  · refine Wraps.drain ?_ hstart hnarrow _
    exact ⟨rfl, rfl, rfl, fun _ _ => ⟨rfl, rfl⟩⟩
  · have hfit : repair.length * args.repInterval ≤ source.length := by
      rw [hrepair, hsource]
      exact Params.mul_repInterval_le (by omega) (by omega)
    have hspaced := hmerged.spaced hfit
    exact ⟨hstart.not_leftover hfit, hspaced.distance, hspaced.countP_window_le (Nat.succ_pos _)⟩

/-- The arguments for the default block: 392 source packets and 98 repair packets. -/
def defaultParams : Params := ⟨blockOti defaultBlockSize symbolSize, 98, 98, false, 0⟩

/-- Packets with `n` ESIs from `start` on. -/
def numbered (start n : ℕ) : List EncodingPacket :=
  (List.range n).map fun i => ⟨⟨0, start + i⟩, []⟩

/-- With the default block, every fifth packet is a repair packet. -/
theorem interleave_evenly_spaced_default :
    EvenlySpaced 4 (interleave (numbered 0 392) (numbered 392 98) 4).toTagged := by
  have hlength (start n : ℕ) : (numbered start n).length = n := by
    simp [numbered]
  have hinterval : defaultParams.repInterval = 4 := by decide
  have hsource : (numbered 0 392).length = defaultParams.kBlock := by
    rw [hlength]
    decide
  have hrepair : (numbered 392 98).length = defaultParams.baselineRepair := hlength _ _
  have hspaced := (interleave_evenly_spaced defaultParams hsource (by rw [hlength]; decide)
    hrepair).2.2.2.2
  rw [hlength, hlength, hinterval] at hspaced
  exact hspaced (by decide) (by decide)

end Interleave

end RaptorqTs.Enc
