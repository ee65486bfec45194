import RaptorqTs.Common.Wire
import RaptorqTs.Enc.Reader
import RaptorqTs.Lib.Framing
import RaptorqTs.Lib.Machine

/-!
# `reader_thread` of the decoder

The packet cutter. Each `stdin.read` returns as many bytes as the environment likes, up to the
free space of `scratch`; a full `scratch` is sent on if it starts with the sync byte, and
shifted by one byte otherwise.
-/

namespace RaptorqTs

/-- A packet on the wire: 188 bytes, the first of them the sync byte. -/
def tsFormat : Framing.Format UInt8 where
  size := tsPacketSize
  size_pos := by decide
  mark := fun b => b == tsSyncByte

lemma tsFormat_size : tsFormat.size = tsPacketSize := rfl

lemma frame_of_head {pkt : Bytes} (h : pkt.length = tsPacketSize ∧ pkt.head? = some tsSyncByte) :
    tsFormat.Frame pkt where
  length_eq := h.1
  marked := by
    rw [Framing.Format.markAt, ← List.head?_eq_getElem?, h.2]
    rfl

namespace Dec

/-! ## The thread -/

inductive ReaderPoint where
  /-- At `stdin.read`. -/
  | reading
  /-- At `out.send`. -/
  | sending (pkt : Bytes)
  | exited (result : Exit)
deriving DecidableEq, Repr

structure Reader where
  point : ReaderPoint
  /-- What is left of stdin. -/
  stdin : Bytes
  scratch : Bytes
  filled : ℕ
  resyncSkipped : ℕ
  /-- History variable: the place of `scratch[0]` in the stream. -/
  offset : ℕ
  /-- History variable: the packets sent, each with its place in the stream. -/
  sent : List (ℕ × Bytes)
deriving DecidableEq, Repr

/-- What the environment decides: the result of a read, and the result of a send. -/
inductive ReaderAction where
  | read (n : ℕ)
  | interrupted
  | ioError
  | sent
  | dropped
deriving DecidableEq, Repr

namespace Reader

def init (stdin : Bytes) : Reader where
  point := .reading
  stdin := stdin
  scratch := List.replicate tsPacketSize 0
  filled := 0
  resyncSkipped := 0
  offset := 0
  sent := []

/-- `read` returns zero only at the end of the input or for an empty buffer. -/
def MayRead (n : ℕ) (r : Reader) : Prop :=
  n ≤ r.stdin.length ∧ r.filled + n ≤ tsPacketSize ∧
    (n = 0 → r.stdin = [] ∨ r.filled = tsPacketSize)

instance (n : ℕ) (r : Reader) : Decidable (r.MayRead n) :=
  inferInstanceAs (Decidable (_ ∧ _))

/-- The inner loop, up to the next `out.send` or `stdin.read`. -/
def drain (r : Reader) : Reader :=
  if r.filled = tsPacketSize then
    if r.scratch.getD 0 0 ≠ tsSyncByte then
      drain { r with
        scratch := copyAt r.scratch 0 (r.scratch.drop 1)
        filled := r.filled - 1
        resyncSkipped := r.resyncSkipped + 1
        offset := r.offset + 1 }
    else { r with point := .sending r.scratch }
  else { r with point := .reading }
termination_by r.filled
decreasing_by
  simp only [tsPacketSize] at *
  omega

/-- The two `Ok` arms of the match on `stdin.read`. -/
def onRead (n : ℕ) (r : Reader) : Reader :=
  if n = 0 then { r with point := .exited .ok }
  else
    drain { r with
      stdin := r.stdin.drop n
      scratch := copyAt r.scratch r.filled (r.stdin.take n)
      filled := r.filled + n }

/-- Behind a send that was taken. -/
def onSent (pkt : Bytes) (r : Reader) : Reader :=
  drain { r with
    filled := 0
    offset := r.offset + tsPacketSize
    sent := r.sent ++ [(r.offset, pkt)] }

/-- `reader_thread`, one action at a time. -/
def step (r : Reader) (a : ReaderAction) : Option Reader :=
  match r.point, a with
  | .reading, .read n => if r.MayRead n then some (r.onRead n) else none
  | .reading, .interrupted => some r
  | .reading, .ioError => some { r with point := .exited .error }
  | .sending pkt, .sent => some (r.onSent pkt)
  | .sending _, .dropped => some { r with point := .exited .ok }
  | _, _ => none

/-- The reader has come to the end of stdin, and every packet it sent was taken. -/
def Finished (stdin : Bytes) (r : Reader) : Prop :=
  ∃ acts, Machine.run step (init stdin) acts = some r ∧
    (∀ a ∈ acts, a ≠ .dropped) ∧ r.point = .exited .ok

/-! ## The inner loop -/

lemma drain_of_ne {r : Reader} (h : r.filled ≠ tsPacketSize) :
    r.drain = { r with point := .reading } := by
  unfold drain
  rw [if_neg h]

lemma drain_of_sync {r : Reader} (h : r.filled = tsPacketSize)
    (hsync : r.scratch.getD 0 0 = tsSyncByte) :
    r.drain = { r with point := .sending r.scratch } := by
  unfold drain
  rw [if_pos h, if_neg (not_not.mpr hsync)]

/-- One byte is skipped, and then there is space for one. -/
lemma drain_of_not_sync {r : Reader} (h : r.filled = tsPacketSize)
    (hsync : r.scratch.getD 0 0 ≠ tsSyncByte) :
    r.drain = { r with
      point := .reading
      scratch := copyAt r.scratch 0 (r.scratch.drop 1)
      filled := r.filled - 1
      resyncSkipped := r.resyncSkipped + 1
      offset := r.offset + 1 } := by
  rw [drain, if_pos h, if_pos hsync, drain_of_ne]
  show r.filled - 1 ≠ tsPacketSize
  rw [h]
  decide

/-! ## The bytes not yet cut -/

/-- What the reader holds, and what it has not read yet. -/
def pending (r : Reader) : Bytes := r.scratch.take r.filled ++ r.stdin

/-- The invariant of the loop: the packets sent are those the scan takes before it comes to the
bytes that are pending. -/
structure Inv (input : Bytes) (r : Reader) : Prop where
  scratch_length : r.scratch.length = tsPacketSize
  scan_eq : tsFormat.scan 0 input = r.sent ++ tsFormat.scan r.offset r.pending
  reading : r.point = .reading → r.filled < tsPacketSize
  sending : ∀ pkt, r.point = .sending pkt →
    pkt = r.scratch ∧ r.filled = tsPacketSize ∧ r.scratch.getD 0 0 = tsSyncByte

variable {input : Bytes} {r r' : Reader}

lemma Inv.init : Inv input (init input) where
  scratch_length := List.length_replicate
  scan_eq := rfl
  reading _ := by
    show 0 < tsPacketSize
    decide
  sending _ h := by cases h

lemma markAt_scratch {scratch rest : Bytes} (h : scratch.length = tsPacketSize) :
    tsFormat.markAt 0 (scratch ++ rest) = (scratch.getD 0 0 == tsSyncByte) := by
  cases scratch with
  | nil => cases h
  | cons b scratch => rfl

/-- The inner loop skips what the scan skips. -/
lemma Inv.drain (hlen : r.scratch.length = tsPacketSize) (hfilled : r.filled ≤ tsPacketSize)
    (hscan : tsFormat.scan 0 input = r.sent ++ tsFormat.scan r.offset r.pending) :
    Inv input r.drain := by
  by_cases hfull : r.filled = tsPacketSize
  · have hpending : r.pending = r.scratch ++ r.stdin := by
      rw [pending, List.take_of_length_le (by omega)]
    by_cases hsync : r.scratch.getD 0 0 = tsSyncByte
    · rw [drain_of_sync hfull hsync]
      refine ⟨hlen, hscan, nofun, ?_⟩
      rintro _ ⟨rfl⟩
      exact ⟨rfl, hfull, hsync⟩
    · rw [drain_of_not_sync hfull hsync]
      have hdrop : (r.scratch.drop 1).length = r.filled - 1 := by
        rw [List.length_drop, hlen, hfull]
      have hshift : (copyAt r.scratch 0 (r.scratch.drop 1)).take (r.filled - 1) ++ r.stdin =
          r.pending.drop 1 := by
        have htake := @take_copyAt _ r.scratch (r.scratch.drop 1) 0 (Nat.zero_le _)
        rw [Nat.zero_add, hdrop, List.take_zero, List.nil_append] at htake
        rw [htake, hpending, List.drop_append_of_le_length (by rw [hlen]; decide)]
      refine ⟨?_, ?_, ?_, nofun⟩
      · show (copyAt r.scratch 0 (r.scratch.drop 1)).length = tsPacketSize
        rw [length_copyAt (by rw [List.length_drop]; omega), hlen]
      · rw [hscan, Framing.Format.scan_of_not_mark, ← hshift]
        · rfl
        · rw [hpending, markAt_scratch hlen]
          exact beq_false_of_ne hsync
      · intro _
        show r.filled - 1 < tsPacketSize
        rw [hfull]
        decide
  · rw [drain_of_ne hfull]
    exact ⟨hlen, hscan, fun _ => Nat.lt_of_le_of_ne hfilled hfull, nofun⟩

/-- Some bytes were read. -/
lemma Inv.read_pos (h : Inv input r) {n : ℕ} (hn : n ≠ 0) (hmay : r.MayRead n) :
    Inv input (r.onRead n) := by
  obtain ⟨hstdin, hfit, -⟩ := hmay
  have hn' : (r.stdin.take n).length = n := by
    rw [List.length_take, Nat.min_eq_left hstdin]
  have hlen := h.scratch_length
  unfold onRead
  rw [if_neg hn]
  refine Inv.drain ?_ hfit ?_
  · show (copyAt r.scratch r.filled (r.stdin.take n)).length = tsPacketSize
    rw [length_copyAt (by omega), hlen]
  · have htake := @take_copyAt _ r.scratch (r.stdin.take n) r.filled (by omega)
    rw [hn'] at htake
    rw [h.scan_eq]
    show _ = r.sent ++ tsFormat.scan r.offset
      ((copyAt r.scratch r.filled (r.stdin.take n)).take (r.filled + n) ++ r.stdin.drop n)
    rw [htake, List.append_assoc, List.take_append_drop, pending]

/-- A packet was taken. -/
lemma Inv.sent (h : Inv input r) {pkt : Bytes} (hr : r.point = .sending pkt) :
    Inv input (r.onSent pkt) := by
  obtain ⟨rfl, hfull, hsync⟩ := h.sending pkt hr
  have hlen := h.scratch_length
  have hpending : r.pending = r.scratch ++ r.stdin := by
    rw [pending, List.take_of_length_le (by omega)]
  refine Inv.drain hlen (Nat.zero_le _) ?_
  have hmark : tsFormat.markAt 0 (r.scratch ++ r.stdin) = true := by
    rw [markAt_scratch hlen, hsync]
    exact BEq.rfl
  have hlong : tsFormat.size ≤ (r.scratch ++ r.stdin).length := by
    rw [List.length_append, hlen]
    exact Nat.le_add_right _ _
  rw [h.scan_eq, hpending, Framing.Format.scan_of_mark hlong hmark, tsFormat_size,
    List.take_left' hlen, List.drop_left' hlen]
  show _ = (r.sent ++ [(r.offset, r.scratch)]) ++ tsFormat.scan (r.offset + tsPacketSize)
    (r.scratch.take 0 ++ r.stdin)
  rw [List.append_assoc]
  rfl

/-- What a step can do. -/
lemma step_cases {a : ReaderAction} (h : step r a = some r') :
    (∃ n, a = .read n ∧ r.point = .reading ∧ r.MayRead n ∧ r' = r.onRead n) ∨
    (a = .interrupted ∧ r.point = .reading ∧ r' = r) ∨
    (a = .ioError ∧ r.point = .reading ∧ r' = { r with point := .exited .error }) ∨
    (∃ pkt, a = .sent ∧ r.point = .sending pkt ∧ r' = r.onSent pkt) ∨
    (∃ pkt, a = .dropped ∧ r.point = .sending pkt ∧ r' = { r with point := .exited .ok }) := by
  unfold step at h
  split at h
  · rename_i n hr
    rw [Option.ite_none_right_eq_some, Option.some.injEq] at h
    exact .inl ⟨n, rfl, hr, h.1, h.2.symm⟩
  · rename_i hr
    exact .inr (.inl ⟨rfl, hr, (Option.some.inj h).symm⟩)
  · rename_i hr
    exact .inr (.inr (.inl ⟨rfl, hr, (Option.some.inj h).symm⟩))
  · rename_i pkt hr
    exact .inr (.inr (.inr (.inl ⟨pkt, rfl, hr, (Option.some.inj h).symm⟩)))
  · rename_i pkt hr
    exact .inr (.inr (.inr (.inr ⟨pkt, rfl, hr, (Option.some.inj h).symm⟩)))
  · cases h

lemma Inv.step {a : ReaderAction} (h : Inv input r) (hstep : step r a = some r') :
    Inv input r' := by
  obtain ⟨n, rfl, hr, hmay, rfl⟩ | ⟨rfl, hr, rfl⟩ | ⟨rfl, hr, rfl⟩ | ⟨pkt, rfl, hr, rfl⟩ |
    ⟨pkt, rfl, hr, rfl⟩ := step_cases hstep
  · by_cases hn : n = 0
    · subst hn
      exact ⟨h.scratch_length, h.scan_eq, nofun, nofun⟩
    · exact h.read_pos hn hmay
  · exact h
  · exact ⟨h.scratch_length, h.scan_eq, nofun, nofun⟩
  · exact h.sent hr
  · exact ⟨h.scratch_length, h.scan_eq, nofun, nofun⟩

/-- **The loop is the scan, up to what is pending.** -/
theorem inv_of_run {acts : List ReaderAction}
    (hrun : Machine.run Reader.step (Reader.init input) acts = some r) : Inv input r :=
  Machine.run_induction (P := fun _ r => Inv input r) Inv.init
    (fun _ _ _ _ _ ih hstep => ih.step hstep) hrun

/-- A read of nothing is the end of the input, as there is space for something. -/
lemma Inv.stdin_of_read_zero (h : Inv input r) (hr : r.point = .reading) (hmay : r.MayRead 0) :
    r.stdin = [] :=
  (hmay.2.2 rfl).resolve_right (h.reading hr).ne

/-! ## The end of the input -/

lemma point_drain : r.drain.point = .reading ∨ ∃ pkt, r.drain.point = .sending pkt := by
  by_cases hfull : r.filled = tsPacketSize
  · by_cases hsync : r.scratch.getD 0 0 = tsSyncByte
    · exact .inr ⟨r.scratch, by rw [drain_of_sync hfull hsync]⟩
    · exact .inl (by rw [drain_of_not_sync hfull hsync])
  · exact .inl (by rw [drain_of_ne hfull])

@[simp] lemma stdin_drain : r.drain.stdin = r.stdin := by
  by_cases hfull : r.filled = tsPacketSize
  · by_cases hsync : r.scratch.getD 0 0 = tsSyncByte
    · rw [drain_of_sync hfull hsync]
    · rw [drain_of_not_sync hfull hsync]
  · rw [drain_of_ne hfull]

lemma point_drain_ne {result : Exit} : r.drain.point ≠ .exited result := by
  intro h
  rcases @point_drain r with hr | ⟨pkt, hr⟩
  · rw [hr] at h
    cases h
  · rw [hr] at h
    cases h

/-- The reader returns `Ok(())` with a packet or at the end of the input. -/
lemma exited_of_run {acts : List ReaderAction}
    (hrun : Machine.run Reader.step (Reader.init input) acts = some r)
    (hsends : ∀ a ∈ acts, a ≠ .dropped) (hexit : r.point = .exited .ok) :
    r.stdin = [] ∧ r.filled < tsPacketSize := by
  refine Machine.run_induction_forall (P := fun _ r => r.point = .exited .ok →
    r.stdin = [] ∧ r.filled < tsPacketSize) (fun h => by cases h) ?_ hsends hrun hexit
  intro acts r a r' hrun _ ih ha hstep hexit
  have hinv := inv_of_run hrun
  obtain ⟨n, rfl, hr, hmay, rfl⟩ | ⟨rfl, hr, rfl⟩ | ⟨rfl, hr, rfl⟩ | ⟨pkt, rfl, hr, rfl⟩ |
    ⟨pkt, rfl, hr, rfl⟩ := step_cases hstep
  · by_cases hn : n = 0
    · subst hn
      exact ⟨hinv.stdin_of_read_zero hr hmay, hinv.reading hr⟩
    · unfold onRead at hexit
      rw [if_neg hn] at hexit
      exact absurd hexit point_drain_ne
  · exact ih hexit
  · cases hexit
  · exact absurd hexit point_drain_ne
  · exact absurd rfl ha

theorem sent_of_finished (h : Finished input r) : r.sent = tsFormat.scan 0 input := by
  obtain ⟨acts, hrun, hsends, hexit⟩ := h
  obtain ⟨hstdin, hfilled⟩ := exited_of_run hrun hsends hexit
  have hinv := inv_of_run hrun
  rw [hinv.scan_eq, pending, hstdin, List.append_nil, Framing.Format.scan_of_lt, List.append_nil]
  rw [List.length_take]
  exact (Nat.min_le_left _ _).trans_lt hfilled

/-! ## Termination -/

/-- A bound on what the reader may still do, other than to read again after an interrupt. -/
def left (r : Reader) : ℕ :=
  2 * r.stdin.length + match r.point with
    | .reading => 1
    | .sending _ => 2
    | .exited _ => 0

lemma left_drain_le : r.drain.left ≤ 2 * r.stdin.length + 2 := by
  unfold left
  rw [stdin_drain]
  rcases @point_drain r with hr | ⟨pkt, hr⟩
  · rw [hr]
    exact Nat.le_succ _
  · rw [hr]

lemma left_step {a : ReaderAction} (h : step r a = some r') :
    r'.left + (if a ≠ .interrupted then 1 else 0) ≤ r.left := by
  obtain ⟨n, rfl, hr, ⟨hstdin, -⟩, rfl⟩ | ⟨rfl, hr, rfl⟩ | ⟨rfl, hr, rfl⟩ | ⟨pkt, rfl, hr, rfl⟩ |
    ⟨pkt, rfl, hr, rfl⟩ := step_cases h
  · have hleft : r.left = 2 * r.stdin.length + 1 := by rw [left, hr]
    rw [if_pos nofun, hleft]
    by_cases hn : n = 0
    · subst hn
      exact Nat.le_refl _
    · unfold onRead
      rw [if_neg hn]
      refine (Nat.add_le_add_right left_drain_le 1).trans ?_
      show 2 * (r.stdin.drop n).length + 2 + 1 ≤ _
      rw [List.length_drop]
      omega
  · exact Nat.le_refl _
  · rw [if_pos nofun, left, left, hr]
    exact Nat.le_refl _
  · have hleft : r.left = 2 * r.stdin.length + 2 := by rw [left, hr]
    rw [if_pos nofun, hleft, onSent, drain_of_ne (by show 0 ≠ tsPacketSize; decide)]
    exact Nat.le_refl _
  · rw [if_pos nofun, left, left, hr]
    exact Nat.le_succ _

/-- Until it returns, the reader is never stuck, whatever the sizes of the reads. -/
lemma Inv.enabled (h : Inv input r) (hr : ∀ result, r.point ≠ .exited result) :
    ∃ a, a ≠ .interrupted ∧ a ≠ .ioError ∧ a ≠ .dropped ∧ (Reader.step r a).isSome := by
  cases hpoint : r.point with
  | reading =>
    have hspace := h.reading hpoint
    refine ⟨.read (min 1 r.stdin.length), nofun, nofun, nofun, ?_⟩
    unfold Reader.step
    rw [hpoint]
    show (if r.MayRead _ then _ else none).isSome = true
    rw [if_pos]
    · rfl
    · refine ⟨Nat.min_le_right _ _, by omega, fun hzero => Or.inl ?_⟩
      rw [← List.length_eq_zero_iff]
      omega
  | sending pkt =>
    refine ⟨.sent, nofun, nofun, nofun, ?_⟩
    unfold Reader.step
    rw [hpoint]
    rfl
  | exited result => exact absurd hpoint (hr result)

/-- Reads lead on to the end of the input. -/
theorem exists_finished (input : Bytes) : ∃ r, Finished input r := by
  have hstep : ∀ r, Inv input r ∧ r.point ≠ .exited .error → ¬ r.point = .exited .ok →
      ∃ a r', (a ≠ .ioError ∧ a ≠ .dropped) ∧ Reader.step r a = some r' ∧
        (Inv input r' ∧ r'.point ≠ .exited .error) ∧ r'.left < r.left := by
    rintro r ⟨hinv, herror⟩ hok
    have hr (result : Exit) : r.point ≠ .exited result := by
      cases result with
      | ok => exact hok
      | error => exact herror
    obtain ⟨a, hint, hio, hdropped, hsome⟩ := hinv.enabled hr
    obtain ⟨r', hr'⟩ := Option.isSome_iff_exists.mp hsome
    have hleft := left_step hr'
    rw [if_pos hint] at hleft
    refine ⟨a, r', ⟨hio, hdropped⟩, hr', ⟨hinv.step hr', ?_⟩, hleft⟩
    obtain ⟨n, rfl, -, -, rfl⟩ | ⟨rfl, -, rfl⟩ | ⟨rfl, -, rfl⟩ | ⟨pkt, rfl, -, rfl⟩ |
      ⟨pkt, rfl, -, rfl⟩ := step_cases hr'
    · by_cases hn : n = 0
      · subst hn
        exact nofun
      · unfold onRead
        rw [if_neg hn]
        exact point_drain_ne
    · exact absurd rfl hint
    · exact absurd rfl hio
    · exact point_drain_ne
    · exact nofun
  have hinit : Inv input (Reader.init input) ∧ (Reader.init input).point ≠ .exited .error :=
    ⟨Inv.init, nofun⟩
  obtain ⟨acts, r, hrun, hacts, hexit⟩ := Machine.exists_run_of_measure hstep hinit
  exact ⟨r, acts, hrun, fun a ha => (hacts a ha).2, hexit⟩

/-! ## Framing -/

/-- **Framing.** Whatever the sizes of the reads and wherever they are interrupted, the packets
sent are those of the scan of stdin, in order and each from its place, and all of them when the
reader comes to the end of stdin. A read always has space for a byte, so it returns nothing only
at the end of the input. The reader comes to an end. Of packets behind bytes that are not the
sync byte it sends all and nothing else. -/
theorem reader_thread_frames {acts : List ReaderAction}
    (hrun : Machine.run Reader.step (Reader.init input) acts = some r) :
    (r.sent <+: tsFormat.scan 0 input ∧
      ((∀ a ∈ acts, a ≠ .dropped) → r.point = .exited .ok →
        r.sent = tsFormat.scan 0 input ∧ r.stdin = [])) ∧
    ((r.point = .reading → r.filled < tsPacketSize) ∧
      Machine.EachStep Reader.step (Reader.init input)
        (fun r a => a = .read 0 → r.stdin = []) acts) ∧
    (((∀ result, r.point ≠ .exited result) →
        ∃ a, a ≠ .interrupted ∧ a ≠ .ioError ∧ a ≠ .dropped ∧ (Reader.step r a).isSome) ∧
      acts.countP (· ≠ .interrupted) ≤ 2 * input.length + 1) ∧
    ∀ (garbage : Bytes) (packets : List Bytes), input = garbage ++ packets.flatten →
      (∀ b ∈ garbage, b ≠ tsSyncByte) →
      (∀ pkt ∈ packets, pkt.length = tsPacketSize ∧ pkt.head? = some tsSyncByte) →
      r.sent.map Prod.snd <+: packets ∧
        ((∀ a ∈ acts, a ≠ .dropped) → r.point = .exited .ok → r.sent.map Prod.snd = packets) := by
  have hinv := inv_of_run hrun
  have hbefore : r.sent <+: tsFormat.scan 0 input := ⟨_, hinv.scan_eq.symm⟩
  have hexit (hsends : ∀ a ∈ acts, a ≠ .dropped) (hr : r.point = .exited .ok) :
      r.sent = tsFormat.scan 0 input := sent_of_finished ⟨acts, hrun, hsends, hr⟩
  refine ⟨⟨hbefore, fun hsends hr => ⟨hexit hsends hr, (exited_of_run hrun hsends hr).1⟩⟩,
    ⟨hinv.reading, ?_⟩, ⟨hinv.enabled, ?_⟩, ?_⟩
  · rintro pre a post s rfl hpre rfl
    obtain ⟨s', hs', -⟩ := Machine.exists_step_of_run hrun hpre
    obtain ⟨n, hn, hr, hmay, -⟩ | ⟨ha, -⟩ | ⟨ha, -⟩ | ⟨_, ha, -⟩ | ⟨_, ha, -⟩ := step_cases hs'
    · cases hn
      exact (inv_of_run hpre).stdin_of_read_zero hr hmay
    · cases ha
    · cases ha
    · cases ha
    · cases ha
  · have hcount := @Machine.countP_le_measure _ _ Reader.step left
      (fun a => decide (a ≠ .interrupted)) (fun s a s' h => by simpa using left_step h) _ _ _ hrun
    exact (Nat.le_add_right _ _).trans hcount
  · rintro garbage packets rfl hgarbage hpackets
    have hscan : tsFormat.scan 0 (garbage ++ packets.flatten) =
        tsFormat.placed (0 + garbage.length) packets := by
      rw [Framing.Format.scan_append_of_unmarked fun b hb => beq_false_of_ne (hgarbage b hb),
        Framing.Format.scan_frames fun pkt hpkt => frame_of_head (hpackets pkt hpkt)]
    have hmap := @Framing.Format.map_snd_placed _ tsFormat (0 + garbage.length) packets
    rw [← hscan] at hmap
    constructor
    · rw [← hmap]
      exact hbefore.map Prod.snd
    · intro hsends hr
      rw [hexit hsends hr, hmap]

/-- Two bytes of garbage and a packet. -/
theorem reader_thread_frames_garbage : ∃ r,
    Finished ([0, 0] ++ [tsSyncByte :: List.replicate 187 0].flatten) r ∧
      r.sent.map Prod.snd = [tsSyncByte :: List.replicate 187 0] := by
  obtain ⟨r, acts, hrun, hsends, hexit⟩ :=
    exists_finished ([0, 0] ++ [tsSyncByte :: List.replicate 187 0].flatten)
  exact ⟨r, ⟨acts, hrun, hsends, hexit⟩,
    ((reader_thread_frames hrun).2.2.2 [0, 0] [tsSyncByte :: List.replicate 187 0] rfl
      (List.forall_mem_cons.mpr ⟨by decide, List.forall_mem_singleton.mpr (by decide)⟩)
      (List.forall_mem_singleton.mpr
        ⟨by rw [List.length_cons, List.length_replicate]; rfl, rfl⟩)).2 hsends hexit⟩

end Reader

end Dec

end RaptorqTs
