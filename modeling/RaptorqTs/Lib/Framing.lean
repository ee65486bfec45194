import RaptorqTs.Lib.Slice
import Mathlib.Data.Finset.Lattice.Fold
import Mathlib.Tactic.Common

/-!
# Frames with a mark

Frames of one size follow each other in a stream, each with a mark at its start. A receiver
that does not know where they start scans for the first mark, takes it for the start of a
frame, and goes on behind that frame. The mark may also occur inside frames, so the scan may be
out of step; `RunsLe` is what brings it back.
-/

namespace Framing

variable {α : Type}

/-- Frames of `size` elements, of which the first is a mark. -/
structure Format (α : Type) where
  size : ℕ
  size_pos : 0 < size
  mark : α → Bool

namespace Format

variable (F : Format α)

/-- The scan of a stream from the offset `p` on, with what is left of the stream: the frames
taken, each with its offset. It stops when less than a frame is left. -/
def scan (p : ℕ) (xs : List α) : List (ℕ × List α) :=
  if xs.length < F.size then []
  else
    match xs with
    | [] => []
    | x :: rest =>
      if F.mark x then
        (p, (x :: rest).take F.size) :: scan (p + F.size) ((x :: rest).drop F.size)
      else scan (p + 1) rest
termination_by xs.length
decreasing_by
  · have := F.size_pos
    simp only [List.length_drop, List.length_cons]
    omega
  · simp

/-- There is a mark at the offset `o`. -/
def markAt (o : ℕ) (xs : List α) : Bool := xs[o]?.any F.mark

structure Frame (w : List α) : Prop where
  length_eq : w.length = F.size
  marked : F.markAt 0 w = true

/-- Frames that follow each other from the offset `b` on. -/
def placed (b : ℕ) : List (List α) → List (ℕ × List α)
  | [] => []
  | w :: ws => (b, w) :: placed (b + F.size) ws

variable {F} {p b o : ℕ} {xs w : List α} {ws : List (List α)}

/-! ## One step of the scan -/

lemma scan_of_lt (h : xs.length < F.size) : F.scan p xs = [] := by
  unfold scan
  rw [if_pos h]

lemma scan_nil : F.scan p [] = [] := scan_of_lt F.size_pos

lemma scan_of_mark (hlen : F.size ≤ xs.length) (hmark : F.markAt 0 xs = true) :
    F.scan p xs = (p, xs.take F.size) :: F.scan (p + F.size) (xs.drop F.size) := by
  cases xs with
  | nil => simp [markAt] at hmark
  | cons x rest =>
    have hx : F.mark x = true := by simpa [markAt] using hmark
    rw [scan, if_neg (by omega)]
    simp only [hx, if_true]

lemma scan_of_not_mark (hmark : F.markAt 0 xs = false) :
    F.scan p xs = F.scan (p + 1) (xs.drop 1) := by
  by_cases hlen : xs.length < F.size
  · rw [scan_of_lt hlen, scan_of_lt (by rw [List.length_drop]; omega)]
  · cases xs with
    | nil => rw [List.drop_nil, scan_nil, scan_nil]
    | cons x rest =>
      have hx : F.mark x = false := by simpa [markAt] using hmark
      rw [scan, if_neg hlen]
      simp [hx]

lemma markAt_drop (o : ℕ) (xs : List α) : F.markAt 0 (xs.drop o) = F.markAt o xs := by
  unfold markAt
  rw [List.getElem?_drop, Nat.add_zero]

lemma markAt_append (ho : o < w.length) : F.markAt o (w ++ xs) = F.markAt o w := by
  unfold markAt
  rw [List.getElem?_append_left ho]

lemma markAt_append_right {n : ℕ} (hn : w.length = n) :
    F.markAt (n + o) (w ++ xs) = F.markAt o xs := by
  unfold markAt
  rw [List.getElem?_append_right (by omega), hn, Nat.add_sub_cancel_left]

lemma markAt_of_unmarked (h : ∀ x ∈ xs, F.mark x = false) (o : ℕ) : F.markAt o xs = false := by
  unfold markAt
  cases hx : xs[o]? with
  | none => rfl
  | some x => exact h x (List.mem_of_getElem? hx)

/-! ## Frames in step -/

/-- What has no mark in it is skipped. -/
lemma scan_append_of_unmarked {g : List α} (h : ∀ x ∈ g, F.mark x = false) :
    F.scan p (g ++ xs) = F.scan (p + g.length) xs := by
  induction g generalizing p with
  | nil => rfl
  | cons x g ih =>
    have hx : F.markAt 0 (x :: g ++ xs) = false := by
      simpa [markAt] using h x List.mem_cons_self
    rw [scan_of_not_mark hx, List.cons_append, List.drop_one, List.tail_cons,
      ih fun y hy => h y (List.mem_cons_of_mem x hy), List.length_cons, Nat.add_right_comm,
      Nat.add_assoc]

/-- **In step.** From the start of a frame on exactly the frames are taken. -/
theorem scan_frames (h : ∀ w ∈ ws, F.Frame w) : F.scan b ws.flatten = F.placed b ws := by
  induction ws generalizing b with
  | nil => exact scan_nil
  | cons w ws ih =>
    have hw := h w List.mem_cons_self
    have hmark : F.markAt 0 (w ++ ws.flatten) = true := by
      rw [markAt_append (by rw [hw.length_eq]; exact F.size_pos)]
      exact hw.marked
    rw [List.flatten_cons, scan_of_mark (by rw [List.length_append, hw.length_eq]; omega) hmark,
      List.take_left' hw.length_eq, List.drop_left' hw.length_eq,
      ih fun v hv => h v (List.mem_cons_of_mem w hv), placed]

/-- What is taken is a frame, in step or not. -/
lemma frame_of_mem_scan (h : (b, w) ∈ F.scan p xs) : F.Frame w := by
  induction hn : xs.length using Nat.strongRecOn generalizing p xs with
  | ind n ih =>
    have hpos := F.size_pos
    by_cases hshort : xs.length < F.size
    · rw [scan_of_lt hshort] at h
      cases h
    · cases hmark : F.markAt 0 xs with
      | true =>
        rw [scan_of_mark (by omega) hmark] at h
        rcases List.mem_cons.mp h with heq | h
        · obtain ⟨-, rfl⟩ := Prod.mk.inj heq
          have htake : (xs.take F.size).length = F.size := by
            rw [List.length_take]
            omega
          refine ⟨htake, ?_⟩
          rw [← markAt_append (by omega), List.take_append_drop]
          exact hmark
        · exact ih _ (by rw [List.length_drop]; omega) h rfl
      | false =>
        rw [scan_of_not_mark hmark] at h
        exact ih _ (by rw [List.length_drop]; omega) h rfl

/-- The frames taken do not overlap. -/
lemma length_scan_mul_le (p : ℕ) (xs : List α) : (F.scan p xs).length * F.size ≤ xs.length := by
  induction hn : xs.length using Nat.strongRecOn generalizing p xs with
  | ind n ih =>
    have hpos := F.size_pos
    by_cases hshort : xs.length < F.size
    · rw [scan_of_lt hshort, List.length_nil, Nat.zero_mul]
      exact Nat.zero_le _
    · cases hmark : F.markAt 0 xs with
      | true =>
        have hdrop : (xs.drop F.size).length = n - F.size := by rw [List.length_drop, hn]
        have hrest := ih _ (by omega) (p + F.size) (xs.drop F.size) hdrop
        rw [scan_of_mark (Nat.le_of_not_lt hshort) hmark, List.length_cons, Nat.succ_mul]
        omega
      | false =>
        have hdrop : (xs.drop 1).length = n - 1 := by rw [List.length_drop, hn]
        have hrest := ih _ (by omega) (p + 1) (xs.drop 1) hdrop
        rw [scan_of_not_mark hmark]
        omega

@[simp] lemma map_snd_placed (b : ℕ) (ws : List (List α)) :
    (F.placed b ws).map Prod.snd = ws := by
  induction ws generalizing b with
  | nil => rfl
  | cons w ws ih => rw [placed, List.map_cons, ih]

/-- The offsets are those of the frames. -/
lemma mem_placed {x : ℕ × List α} (hx : x ∈ F.placed b ws) : ∃ i, x.1 = b + i * F.size := by
  induction ws generalizing b with
  | nil => cases hx
  | cons w ws ih =>
    rw [placed] at hx
    rcases List.mem_cons.mp hx with rfl | hx
    · exact ⟨0, by simp⟩
    · obtain ⟨i, hi⟩ := ih hx
      exact ⟨i + 1, by rw [hi, Nat.succ_mul]; omega⟩

/-- Less than a frame is left. -/
lemma eq_nil_of_length_flatten_lt (hframe : ∀ w ∈ ws, F.Frame w)
    (h : ws.flatten.length < F.size) : ws = [] := by
  by_contra hne
  rw [length_flatten_of_length fun v hv => (hframe v hv).length_eq] at h
  have hle := Nat.le_mul_of_pos_left F.size (List.length_pos_of_ne_nil hne)
  omega

/-! ## Frames out of step -/

variable (F) in
/-- No more than `R` frames in a row have a mark at the same place, other than their start. -/
def RunsLe (R : ℕ) (ws : List (List α)) : Prop :=
  ∀ o, 0 < o → o < F.size → ∀ pre run post, ws = pre ++ run ++ post →
    (∀ w ∈ run, F.markAt o w = true) → run.length ≤ R

section OutOfStep

variable (hw : w.length = F.size) (ho : o < F.size)
include hw ho

/-- A mark inside a frame is taken for the start of a frame. -/
lemma scan_flatten_of_mark (hmark : F.markAt o w = true) (hlen : F.size ≤ ws.flatten.length) :
    ∃ x, F.scan p ((w :: ws).flatten.drop o) =
      (p, x) :: F.scan (p + F.size) (ws.flatten.drop o) := by
  have hdrop : ((w :: ws).flatten.drop o).drop F.size = ws.flatten.drop o := by
    rw [List.drop_drop, List.flatten_cons, ← hw, Nat.add_comm, ← List.drop_drop, List.drop_left]
  have hmark' : F.markAt 0 ((w :: ws).flatten.drop o) = true := by
    rw [markAt_drop, List.flatten_cons, markAt_append (by omega), hmark]
  have hlen' : F.size ≤ ((w :: ws).flatten.drop o).length := by
    rw [List.length_drop, List.flatten_cons, List.length_append]
    omega
  rw [scan_of_mark hlen' hmark', hdrop]
  exact ⟨_, rfl⟩

lemma scan_flatten_of_not_mark (hmark : F.markAt o w = false) :
    F.scan p ((w :: ws).flatten.drop o) = F.scan (p + 1) ((w :: ws).flatten.drop (o + 1)) := by
  rw [scan_of_not_mark, List.drop_drop]
  rw [markAt_drop, List.flatten_cons, markAt_append (by omega), hmark]

end OutOfStep

variable (F) in
/-- Of the frames taken, at most `bound` come before exactly the frames that are left. Each of
those passes over one frame at most, and the last of them may reach into one more. -/
def InStepWithin (bound b : ℕ) (taken : List (ℕ × List α)) (ws : List (List α)) : Prop :=
  ∃ early m, taken = early ++ (F.placed b ws).drop m ∧ early.length ≤ bound ∧
    m ≤ early.length + 1

namespace InStepWithin

variable {n : ℕ} {taken : List (ℕ × List α)}

lemma placed (b : ℕ) (ws : List (List α)) : F.InStepWithin 0 b (F.placed b ws) ws :=
  ⟨[], 0, rfl, Nat.le_refl _, Nat.zero_le _⟩

/-- One frame has been passed over. -/
lemma placed_cons (b : ℕ) (w : List α) (ws : List (List α)) :
    F.InStepWithin 0 b (F.placed (b + F.size) ws) (w :: ws) :=
  ⟨[], 1, rfl, Nat.le_refl _, Nat.le_refl _⟩

lemma mono (h : F.InStepWithin n b taken ws) {n' : ℕ} (hle : n ≤ n') :
    F.InStepWithin n' b taken ws := by
  obtain ⟨early, m, htaken, hlen, hm⟩ := h
  exact ⟨early, m, htaken, hlen.trans hle, hm⟩

/-- One more is taken before the frames. -/
lemma cons (h : F.InStepWithin n b taken ws) (x : ℕ × List α) :
    F.InStepWithin (n + 1) b (x :: taken) ws := by
  obtain ⟨early, m, htaken, hlen, hm⟩ := h
  refine ⟨x :: early, m, by rw [htaken, List.cons_append], ?_, ?_⟩
  · rw [List.length_cons]
    omega
  · rw [List.length_cons]
    omega

/-- One more is taken in the place of a frame. -/
lemma cons_cons (h : F.InStepWithin n (b + F.size) taken ws) (x : ℕ × List α) (w : List α) :
    F.InStepWithin (n + 1) b (x :: taken) (w :: ws) := by
  obtain ⟨early, m, htaken, hlen, hm⟩ := h
  refine ⟨x :: early, m + 1, ?_, ?_, ?_⟩
  · rw [htaken, Format.placed, List.drop_succ_cons, List.cons_append]
  · rw [List.length_cons]
    omega
  · rw [List.length_cons]
    omega

end InStepWithin

/-- The scan stands at the place `o` of the first frame. As long as there is a mark at this place
it is held up, which is no more than `r` times, and then it goes on to the next place. -/
lemma scan_held_up {n r : ℕ} (hpos : 0 < o) (ho : o < F.size) (hframe : ∀ w ∈ ws, F.Frame w)
    (hnext : ∀ b pre ws', ws = pre ++ ws' →
      F.InStepWithin n b (F.scan (b + (o + 1)) (ws'.flatten.drop (o + 1))) ws')
    (hr : ∀ run post, ws = run ++ post → (∀ w ∈ run, F.markAt o w = true) → run.length ≤ r) :
    F.InStepWithin (n + r) b (F.scan (b + o) (ws.flatten.drop o)) ws := by
  induction ws generalizing b r with
  | nil =>
    rw [List.flatten_nil, List.drop_nil, scan_nil]
    exact (InStepWithin.placed b []).mono (Nat.zero_le _)
  | cons w ws ih =>
    have hw := (hframe w List.mem_cons_self).length_eq
    have hframe' : ∀ v ∈ ws, F.Frame v := fun v hv => hframe v (List.mem_cons_of_mem w hv)
    cases hmark : F.markAt o w with
    | false =>
      rw [scan_flatten_of_not_mark hw ho hmark]
      exact (hnext b [] (w :: ws) rfl).mono (Nat.le_add_right _ _)
    | true =>
      by_cases hlen : F.size ≤ ws.flatten.length
      · obtain ⟨x, hx⟩ := @scan_flatten_of_mark _ F (b + o) o w ws hw ho hmark hlen
        have hrun : ∀ run post, ws = run ++ post → (∀ v ∈ run, F.markAt o v = true) →
            run.length + 1 ≤ r := by
          intro run post hcut hmarks
          refine hr (w :: run) post (by rw [hcut]; rfl) fun v hv => ?_
          rcases List.mem_cons.mp hv with rfl | hv
          · exact hmark
          · exact hmarks v hv
        have hone := hrun [] ws rfl fun v hv => absurd hv List.not_mem_nil
        rw [List.length_nil] at hone
        have hrest := @ih (b + F.size) (r - 1) hframe'
          (fun b pre ws' hcut => hnext b (w :: pre) ws' (by rw [hcut]; rfl))
          (fun run post hcut hmarks => Nat.le_sub_one_of_lt (hrun run post hcut hmarks))
        rw [hx, Nat.add_right_comm]
        exact (hrest.cons_cons (b + o, x) w).mono (by omega)
      · -- the last frame is cut short
        obtain rfl := eq_nil_of_length_flatten_lt hframe' (not_le.mp hlen)
        rw [scan_of_lt]
        · exact (InStepWithin.placed_cons b w []).mono (Nat.zero_le _)
        · simp only [List.flatten_cons, List.flatten_nil, List.append_nil, List.length_drop, hw]
          omega

lemma RunsLe.of_append {R : ℕ} {pre : List (List α)} (h : F.RunsLe R (pre ++ ws)) :
    F.RunsLe R ws := by
  intro o hpos ho pre' run post hcut hrun
  exact h o hpos ho (pre ++ pre') run post (by rw [hcut]; simp) hrun

/-- The scan stands at the place `o` of the first frame, which is `d` before its end. At each
place it can be held up by `R` frames. -/
lemma scan_out_of_step {R d : ℕ} (hd : o + d = F.size) (hpos : 0 < o)
    (hframe : ∀ w ∈ ws, F.Frame w) (hR : F.RunsLe R ws) :
    F.InStepWithin (R * d) b (F.scan (b + o) (ws.flatten.drop o)) ws := by
  induction d generalizing o b ws with
  | zero =>
    -- the next frame starts here
    cases ws with
    | nil =>
      rw [List.flatten_nil, List.drop_nil, scan_nil]
      exact InStepWithin.placed b []
    | cons w ws =>
      have hw := (hframe w List.mem_cons_self).length_eq
      have hdrop : (w :: ws).flatten.drop o = ws.flatten := by
        rw [List.flatten_cons, List.drop_left' (by omega)]
      obtain rfl : o = F.size := hd
      rw [hdrop, scan_frames fun v hv => hframe v (List.mem_cons_of_mem w hv)]
      exact InStepWithin.placed_cons b w ws
  | succ d ih =>
    refine scan_held_up hpos (by omega) hframe ?_ fun run post hcut hrun =>
      hR o hpos (by omega) [] run post hcut hrun
    rintro b pre ws' rfl
    exact @ih b (o + 1) ws' (by omega) (Nat.succ_pos o)
      (fun w hw => hframe w (List.mem_append_right pre hw)) hR.of_append

variable (F) in
/-- The number of frames that are taken before the scan is in step again. -/
def regainBound (R n : ℕ) : ℕ := (n + F.size - 1) / F.size + R * (F.size - 1)

lemma regainBound_drop {R n : ℕ} (h : F.size ≤ n) :
    F.regainBound R (n - F.size) + 1 = F.regainBound R n := by
  have hpos := F.size_pos
  have hdiv : (n + F.size - 1) / F.size = (n - F.size + F.size - 1) / F.size + 1 := by
    rw [← Nat.add_div_right _ hpos]
    congr 1
    omega
  unfold regainBound
  omega

/-- A mark is found less than a frame before the frames, so the frame taken ends in the middle of
one. -/
lemma scan_regains_of_short {R : ℕ} {g : List α} (hframe : ∀ w ∈ ws, F.Frame w)
    (hR : F.RunsLe R ws) (hpos : 0 < g.length) (hshort : g.length < F.size)
    (hmark : F.markAt 0 (g ++ ws.flatten) = true) :
    F.InStepWithin (F.regainBound R g.length) (p + g.length) (F.scan p (g ++ ws.flatten)) ws := by
  by_cases htotal : F.size ≤ (g ++ ws.flatten).length
  · have hdrop : (g ++ ws.flatten).drop F.size = ws.flatten.drop (F.size - g.length) := by
      rw [List.drop_append, List.drop_eq_nil_of_le (by omega), List.nil_append]
    have hrest := @scan_out_of_step _ F (p + g.length) (F.size - g.length) ws R g.length (by omega)
      (by omega) hframe hR
    rw [Nat.add_assoc, Nat.add_sub_cancel' (by omega)] at hrest
    rw [scan_of_mark htotal hmark, hdrop]
    refine (hrest.cons _).mono ?_
    have hone : 1 ≤ (g.length + F.size - 1) / F.size := by
      rw [Nat.one_le_div_iff F.size_pos]
      omega
    have hless : R * g.length ≤ R * (F.size - 1) := Nat.mul_le_mul_left R (by omega)
    unfold regainBound
    omega
  · -- there is not a whole frame
    rw [List.length_append] at htotal
    obtain rfl := eq_nil_of_length_flatten_lt hframe (by omega)
    rw [scan_of_lt]
    · exact (InStepWithin.placed _ []).mono (Nat.zero_le _)
    · rw [List.length_append]
      omega

/-- **Into step.** Behind anything at all, the scan takes no more than so many frames before it
takes exactly the frames that are left. -/
theorem scan_regains {R : ℕ} {g : List α} (hframe : ∀ w ∈ ws, F.Frame w) (hR : F.RunsLe R ws) :
    F.InStepWithin (F.regainBound R g.length) (p + g.length) (F.scan p (g ++ ws.flatten)) ws := by
  induction hn : g.length using Nat.strong_induction_on generalizing p g with
  | _ n ih =>
    subst hn
    cases g with
    | nil =>
      rw [List.nil_append, scan_frames hframe]
      exact (InStepWithin.placed p ws).mono (Nat.zero_le _)
    | cons x g =>
      cases hmark : F.markAt 0 (x :: g ++ ws.flatten) with
      | false =>
        -- nothing starts here
        have hrest := @ih g.length (by simp) (p + 1) g rfl
        rw [scan_of_not_mark hmark, List.cons_append, List.drop_one, List.tail_cons,
          List.length_cons, Nat.add_comm g.length, ← Nat.add_assoc]
        refine hrest.mono ?_
        unfold regainBound
        exact Nat.add_le_add_right (Nat.div_le_div_right (by omega)) _
      | true =>
        by_cases hlong : F.size ≤ (x :: g).length
        · -- a frame is taken from what comes before
          have hpos := F.size_pos
          have hrest := @ih ((x :: g).drop F.size).length (by rw [List.length_drop]; omega)
            (p + F.size) ((x :: g).drop F.size) rfl
          rw [List.length_drop, Nat.add_assoc, Nat.add_sub_cancel' hlong] at hrest
          rw [scan_of_mark (by rw [List.length_append]; omega) hmark,
            List.drop_append_of_le_length hlong]
          exact (hrest.cons _).mono (regainBound_drop hlong).le
        · exact scan_regains_of_short hframe hR (Nat.succ_pos _) (not_le.mp hlong) hmark

/-- **Locked.** As long as the frames have a mark at the same place, the scan that takes it once
goes from one to the next. -/
theorem scan_locked {run post : List (List α)} (ho : o < F.size)
    (hw : w.length = F.size ∧ F.markAt o w = true)
    (hrun : ∀ w ∈ run, w.length = F.size ∧ F.markAt o w = true) {i : ℕ} (hi : i < run.length) :
    ∃ x, (F.scan p ((w :: (run ++ post)).flatten.drop o))[i]? = some (p + i * F.size, x) := by
  induction run generalizing p w i with
  | nil => cases hi
  | cons v run ih =>
    have hlen : F.size ≤ ((v :: run) ++ post).flatten.length := by
      rw [List.cons_append, List.flatten_cons, List.length_append,
        (hrun v List.mem_cons_self).1]
      omega
    obtain ⟨x, hx⟩ := @scan_flatten_of_mark _ F p o w _ hw.1 ho hw.2 hlen
    cases i with
    | zero => exact ⟨x, by rw [hx, List.getElem?_cons_zero, Nat.zero_mul, Nat.add_zero]⟩
    | succ i =>
      rw [List.length_cons] at hi
      obtain ⟨y, hy⟩ := @ih (p + F.size) v (hrun v List.mem_cons_self)
        (fun u hu => hrun u (List.mem_cons_of_mem v hu)) i (by omega)
      refine ⟨y, ?_⟩
      rw [hx, List.getElem?_cons_succ, List.cons_append, hy, Nat.succ_mul]
      congr 2
      omega

/-! ## When the scan gets into step -/

variable (F) in
/-- Behind `g` the scan takes at most `bound` frames before it takes exactly the frames that are
left. Each of those passes over one frame at most, and the last of them may reach into one
more. -/
def Regains (bound : ℕ) (g : List α) (ws : List (List α)) : Prop :=
  ∃ early m, F.scan 0 (g ++ ws.flatten) = early ++ (F.placed g.length ws).drop m ∧
    early.length ≤ bound ∧ m ≤ early.length + 1

/-- Behind the rest of what was cut at a mark, a run that is longer than the bound keeps the scan
out of step. -/
lemma length_le_of_regains (hpos : 0 < o) (ho : o < F.size)
    (hw : w.length = F.size ∧ F.markAt o w = true) {run post : List (List α)}
    (hrun : ∀ w ∈ run, w.length = F.size ∧ F.markAt o w = true) {bound : ℕ}
    (h : F.Regains bound (w.drop o) (run ++ post)) : run.length ≤ bound + 1 := by
  by_contra hlong
  obtain ⟨early, m, hscan, hearly, hm⟩ := h
  rw [List.length_drop, hw.1] at hscan
  have hdrop : (w :: (run ++ post)).flatten.drop o = w.drop o ++ (run ++ post).flatten := by
    rw [List.flatten_cons, List.drop_append_of_le_length (by omega)]
  -- the frame at this place is out of step
  obtain ⟨x, hx⟩ := @scan_locked _ F 0 o _ run post ho hw hrun early.length (by omega)
  rw [hdrop, hscan, List.getElem?_append_right (Nat.le_refl _), Nat.sub_self,
    List.getElem?_drop, Nat.zero_add] at hx
  -- and it is in step
  obtain ⟨i, hi⟩ := mem_placed (List.mem_of_getElem? hx)
  have hmod : (early.length * F.size) % F.size = (F.size - o + i * F.size) % F.size := by
    rw [← hi]
  rw [Nat.mul_mod_left, Nat.add_mul_mod_self_right, Nat.mod_eq_of_lt (by omega)] at hmod
  omega

/-- **When the scan gets into step.** For frame sequences of a kind, of which each remains of the
kind without its first frame, there is a bound in terms of what comes before if and only if
there is one on the runs of frames with a mark at the same place. -/
theorem exists_regains_iff {C : List (List α) → Prop} {a : α} (ha : F.mark a = true)
    (hframe : ∀ ws, C ws → ∀ w ∈ ws, F.Frame w) (htail : ∀ w ws, C (w :: ws) → C ws) :
    (∃ bound : ℕ → ℕ, ∀ g ws, C ws → F.Regains (bound g.length) g ws) ↔
      ∃ R, ∀ ws, C ws → F.RunsLe R ws := by
  constructor
  · rintro ⟨bound, hbound⟩
    refine ⟨(Finset.range (F.size + 1)).sup bound + 1, ?_⟩
    intro ws hws o hpos ho pre run post hcut hrun
    have hdrop : ∀ pre, C (pre ++ (run ++ post)) → C (run ++ post) := by
      intro pre
      induction pre with
      | nil => exact id
      | cons w pre ih => exact fun h => ih (htail w _ h)
    rw [hcut, List.append_assoc] at hws
    have hrest := hdrop pre hws
    have hw : (List.replicate F.size a).length = F.size ∧
        F.markAt o (List.replicate F.size a) = true := by
      refine ⟨List.length_replicate, ?_⟩
      unfold markAt
      rw [List.getElem?_replicate, if_pos ho]
      exact ha
    have hle := length_le_of_regains hpos ho hw
      (fun w hw => ⟨(hframe _ hrest w (List.mem_append_left post hw)).length_eq, hrun w hw⟩)
      (hbound _ _ hrest)
    rw [List.length_drop, List.length_replicate] at hle
    have hsup : bound (F.size - o) ≤ (Finset.range (F.size + 1)).sup bound :=
      Finset.le_sup (Finset.mem_range.mpr (by omega))
    omega
  · rintro ⟨R, hR⟩
    refine ⟨F.regainBound R, fun g ws hws => ?_⟩
    have hin := @scan_regains _ F 0 ws R g (hframe ws hws) (hR ws hws)
    rwa [Nat.zero_add] at hin

end Format

end Framing
