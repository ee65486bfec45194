import RaptorqTs.Common.Raptorq
import RaptorqTs.Lib.Machine

/-!
# `reader_thread` of the encoder

The block cutter. Each `stdin.read` returns as many bytes as the environment likes, up to
the free space of the block; a full block is sent on, and a last block that is not full is
padded with zeros at the end of the input.
-/

namespace RaptorqTs

/-- What a thread function returns. -/
inductive Exit where
  | ok
  | error
deriving DecidableEq, Repr

namespace Enc

/-! ## The thread -/

inductive ReaderPoint where
  /-- At `stdin.read`. -/
  | reading
  /-- At `out.send`; `last` for the send after the end of the input. -/
  | sending (block : Bytes) (last : Bool)
  | exited (result : Exit)
deriving DecidableEq, Repr

structure Reader where
  point : ReaderPoint
  /-- What is left of stdin. -/
  stdin : Bytes
  block : Bytes
  filled : ℕ
  /-- History variable: the blocks sent. -/
  sent : List Bytes
deriving DecidableEq, Repr

/-- What the environment decides: the result of a read, and the result of a send. -/
inductive ReaderAction where
  | read (n : ℕ)
  | interrupted
  | ioError
  | sent
  | dropped
deriving DecidableEq, Repr

namespace Reader

def init (blockSize : ℕ) (stdin : Bytes) : Reader where
  point := .reading
  stdin := stdin
  block := List.replicate blockSize 0
  filled := 0
  sent := []

/-- `read` returns zero only at the end of the input or for an empty buffer. -/
def MayRead (blockSize n : ℕ) (r : Reader) : Prop :=
  n ≤ r.stdin.length ∧ r.filled + n ≤ blockSize ∧ (n = 0 → r.stdin = [] ∨ r.filled = blockSize)

instance (blockSize n : ℕ) (r : Reader) : Decidable (r.MayRead blockSize n) :=
  inferInstanceAs (Decidable (_ ∧ _))

/-- The two `Ok` arms of the match on `stdin.read`. -/
def onRead (blockSize n : ℕ) (r : Reader) : Reader :=
  if n = 0 then
    -- stdin closed mid-block
    if 0 < r.filled then
      let block := copyAt r.block r.filled (List.replicate (r.block.length - r.filled) 0)
      { r with point := .sending block true, block := [] }
    else { r with point := .exited .ok }
  else
    let block := copyAt r.block r.filled (r.stdin.take n)
    let filled := r.filled + n
    if filled = blockSize then
      { r with
        point := .sending block false
        stdin := r.stdin.drop n
        block := List.replicate blockSize 0
        filled := filled }
    else { r with stdin := r.stdin.drop n, block := block, filled := filled }

/-- `reader_thread`, one action at a time. -/
def step (blockSize : ℕ) (r : Reader) (a : ReaderAction) : Option Reader :=
  match r.point, a with
  | .reading, .read n => if r.MayRead blockSize n then some (r.onRead blockSize n) else none
  | .reading, .interrupted => some r
  | .reading, .ioError => some { r with point := .exited .error }
  | .sending block last, .sent =>
    some { r with
      point := if last then .exited .ok else .reading
      filled := if last then r.filled else 0
      sent := r.sent ++ [block] }
  | .sending _ last, .dropped =>
    some { r with point := .exited (if last then .ok else .error) }
  | _, _ => none

/-- The reader has come to the end of stdin, and every block it sent was taken. -/
def Finished (blockSize : ℕ) (stdin : Bytes) (r : Reader) : Prop :=
  ∃ acts, Machine.run (step blockSize) (init blockSize stdin) acts = some r ∧
    (∀ a ∈ acts, a ≠ .dropped) ∧ r.point = .exited .ok

end Reader

/-! ## Padding -/

/-- The bytes followed by the least number of zeros that reaches a multiple of the block
size. -/
def padded (blockSize : ℕ) (bytes : Bytes) : Bytes :=
  bytes ++ List.replicate ((blockSize - bytes.length % blockSize) % blockSize) 0

/-- The number of blocks that the bytes are cut into. -/
def numBlocks (blockSize : ℕ) (bytes : Bytes) : ℕ := (padded blockSize bytes).length / blockSize

lemma padded_eq_nil_iff {blockSize : ℕ} {bytes : Bytes} :
    padded blockSize bytes = [] ↔ bytes = [] := by
  unfold padded
  constructor
  · intro h
    exact (List.append_eq_nil_iff.mp h).1
  · intro h
    subst h
    simp

variable {blockSize : ℕ} {blocks : List Bytes}

/-- The length of some full blocks and a tail, modulo the block size. -/
lemma length_flatten_mod (h : ∀ b ∈ blocks, b.length = blockSize) (tail : Bytes) :
    (blocks.flatten ++ tail).length % blockSize = tail.length % blockSize := by
  rw [List.length_append, length_flatten_of_length h, Nat.mul_add_mod_self_right]

/-- Full blocks are not padded. -/
lemma padded_flatten (h : ∀ b ∈ blocks, b.length = blockSize) :
    padded blockSize blocks.flatten = blocks.flatten := by
  have hmod := length_flatten_mod h []
  rw [List.append_nil] at hmod
  unfold padded
  rw [hmod]
  simp

/-- A tail that is not empty is padded to a full block. -/
lemma padded_flatten_append (h : ∀ b ∈ blocks, b.length = blockSize) {tail : Bytes}
    (hne : tail ≠ []) (hlt : tail.length < blockSize) :
    padded blockSize (blocks.flatten ++ tail) =
      blocks.flatten ++ (tail ++ List.replicate (blockSize - tail.length) 0) := by
  have hpos : 0 < tail.length := List.length_pos_of_ne_nil hne
  unfold padded
  rw [length_flatten_mod h, Nat.mod_eq_of_lt hlt, Nat.mod_eq_of_lt (by omega), List.append_assoc]

lemma numBlocks_of_flatten (hpos : 0 < blockSize) (h : ∀ b ∈ blocks, b.length = blockSize)
    {bytes : Bytes} (hbytes : blocks.flatten = padded blockSize bytes) :
    blocks.length = numBlocks blockSize bytes := by
  unfold numBlocks
  rw [← hbytes, length_flatten_of_length h, Nat.mul_div_cancel _ hpos]

/-! ## The blocks sent -/

namespace Reader

/-- The input, as what has been sent, what the reader holds and what it has not read yet. -/
def Accounted (blockSize : ℕ) (input : Bytes) (r : Reader) : Prop :=
  match r.point with
  | .reading => r.block.length = blockSize ∧ r.filled < blockSize ∧
      input = r.sent.flatten ++ (r.block.take r.filled ++ r.stdin)
  | .sending b false => b.length = blockSize ∧ r.block.length = blockSize ∧
      input = r.sent.flatten ++ (b ++ r.stdin)
  | .sending b true => ∃ tail : Bytes, tail ≠ [] ∧ tail.length < blockSize ∧
      input = r.sent.flatten ++ tail ∧ b = tail ++ List.replicate (blockSize - tail.length) 0
  | .exited .ok => r.sent.flatten = padded blockSize input
  | .exited .error => True

/-- The invariant of the loop: no byte is lost, and the blocks sent are full. -/
structure Inv (blockSize : ℕ) (input : Bytes) (r : Reader) : Prop where
  sent_length : ∀ b ∈ r.sent, b.length = blockSize
  accounted : Accounted blockSize input r

variable {input : Bytes} {r r' : Reader}

lemma Inv.init (hpos : 0 < blockSize) : Inv blockSize input (init blockSize input) where
  sent_length b hb := by cases hb
  accounted := ⟨List.length_replicate .., hpos, rfl⟩

lemma Inv.reading (h : Inv blockSize input r) (hr : r.point = .reading) :
    r.block.length = blockSize ∧ r.filled < blockSize ∧
      input = r.sent.flatten ++ (r.block.take r.filled ++ r.stdin) := by
  have hacc := h.accounted
  unfold Accounted at hacc
  rwa [hr] at hacc

/-- The end of the input: the rest of the block is zeroed and sent, if there is any. -/
lemma Inv.read_zero (h : Inv blockSize input r) (hr : r.point = .reading)
    (hmay : r.MayRead blockSize 0) : Inv blockSize input (r.onRead blockSize 0) := by
  obtain ⟨hlen, hfilled, hinput⟩ := h.reading hr
  have hstdin : r.stdin = [] := (hmay.2.2 rfl).resolve_right (by omega)
  rw [hstdin, List.append_nil] at hinput
  have htake : (r.block.take r.filled).length = r.filled := by
    rw [List.length_take]
    omega
  unfold onRead
  rw [if_pos rfl]
  by_cases hsome : 0 < r.filled
  · rw [if_pos hsome]
    refine ⟨h.sent_length, r.block.take r.filled, List.ne_nil_of_length_pos (by omega), by omega,
      hinput, ?_⟩
    rw [htake, copyAt, hlen, List.length_replicate, List.drop_eq_nil_of_le (by omega),
      List.append_nil]
  · rw [if_neg hsome]
    refine ⟨h.sent_length, ?_⟩
    show r.sent.flatten = padded blockSize input
    -- the input ends with a full block, and nothing is padded
    have hzero : r.filled = 0 := by omega
    rw [hzero, List.take_zero, List.append_nil] at hinput
    rw [hinput, padded_flatten h.sent_length]

/-- Some bytes were read. -/
lemma Inv.read_pos (h : Inv blockSize input r) (hr : r.point = .reading) {n : ℕ} (hn : n ≠ 0)
    (hmay : r.MayRead blockSize n) : Inv blockSize input (r.onRead blockSize n) := by
  obtain ⟨hlen, hfilled, hinput⟩ := h.reading hr
  obtain ⟨hstdin, hfit, -⟩ := hmay
  have hn' : (r.stdin.take n).length = n := by
    rw [List.length_take]
    omega
  have hblock : (copyAt r.block r.filled (r.stdin.take n)).length = blockSize := by
    rw [length_copyAt (by omega), hlen]
  -- the block is filled up to the new mark with the bytes just read
  have htake : (copyAt r.block r.filled (r.stdin.take n)).take (r.filled + n)
      = r.block.take r.filled ++ r.stdin.take n := by
    have hpiece := @take_copyAt _ r.block (r.stdin.take n) r.filled (by omega)
    rwa [hn'] at hpiece
  have hinput' : input = r.sent.flatten ++
      ((copyAt r.block r.filled (r.stdin.take n)).take (r.filled + n) ++ r.stdin.drop n) := by
    rw [htake, List.append_assoc, List.take_append_drop, hinput]
  unfold onRead
  rw [if_neg hn]
  by_cases hfull : r.filled + n = blockSize
  · rw [if_pos hfull]
    rw [hfull, List.take_of_length_le (by omega)] at hinput'
    exact ⟨h.sent_length, hblock, List.length_replicate .., hinput'⟩
  · rw [if_neg hfull]
    refine ⟨h.sent_length, ?_⟩
    unfold Accounted
    simp only [hr]
    exact ⟨hblock, by omega, hinput'⟩

/-- A block was taken by the encoder. -/
lemma Inv.sent (hpos : 0 < blockSize) (h : Inv blockSize input r) {b : Bytes} {last : Bool}
    (hr : r.point = .sending b last) :
    Inv blockSize input { r with
      point := if last then .exited .ok else .reading
      filled := if last then r.filled else 0
      sent := r.sent ++ [b] } := by
  have hacc := h.accounted
  have hflat : (r.sent ++ [b]).flatten = r.sent.flatten ++ b := by simp
  have hlengths (hb : b.length = blockSize) : ∀ b' ∈ r.sent ++ [b], b'.length = blockSize := by
    intro b' hb'
    rcases List.mem_append.mp hb' with hold | hnew
    · exact h.sent_length b' hold
    · rw [List.mem_singleton.mp hnew, hb]
  unfold Accounted at hacc
  cases last with
  | false =>
    rw [hr] at hacc
    obtain ⟨hb, hlen, hinput⟩ := hacc
    refine ⟨hlengths hb, hlen, hpos, ?_⟩
    show input = (r.sent ++ [b]).flatten ++ r.stdin
    rw [hflat, List.append_assoc, hinput]
  | true =>
    rw [hr] at hacc
    -- the last block is the tail with its padding
    obtain ⟨tail, hne, hlt, hinput, hb⟩ := hacc
    refine ⟨hlengths ?_, ?_⟩
    · rw [hb, List.length_append, List.length_replicate]
      omega
    · show (r.sent ++ [b]).flatten = padded blockSize input
      rw [hflat, hb, hinput, padded_flatten_append h.sent_length hne hlt]

/-- What a step can do. -/
lemma step_cases {a : ReaderAction} (h : step blockSize r a = some r') :
    (∃ n, a = .read n ∧ r.point = .reading ∧ r.MayRead blockSize n ∧
      r' = r.onRead blockSize n) ∨
    (a = .interrupted ∧ r.point = .reading ∧ r' = r) ∨
    (a = .ioError ∧ r.point = .reading ∧ r' = { r with point := .exited .error }) ∨
    (∃ b last, a = .sent ∧ r.point = .sending b last ∧ r' = { r with
      point := if last then .exited .ok else .reading
      filled := if last then r.filled else 0
      sent := r.sent ++ [b] }) ∨
    (∃ b last, a = .dropped ∧ r.point = .sending b last ∧
      r' = { r with point := .exited (if last then .ok else .error) }) := by
  unfold step at h
  split at h
  · rename_i n hr
    rw [Option.ite_none_right_eq_some, Option.some.injEq] at h
    exact .inl ⟨n, rfl, hr, h.1, h.2.symm⟩
  · rename_i hr
    exact .inr (.inl ⟨rfl, hr, (Option.some.inj h).symm⟩)
  · rename_i hr
    exact .inr (.inr (.inl ⟨rfl, hr, (Option.some.inj h).symm⟩))
  · rename_i b last hr
    exact .inr (.inr (.inr (.inl ⟨b, last, rfl, hr, (Option.some.inj h).symm⟩)))
  · rename_i b last hr
    exact .inr (.inr (.inr (.inr ⟨b, last, rfl, hr, (Option.some.inj h).symm⟩)))
  · cases h

/-- One step, the sends being taken. -/
lemma Inv.step (hpos : 0 < blockSize) (h : Inv blockSize input r) {a : ReaderAction}
    (ha : a ≠ .dropped) (hstep : step blockSize r a = some r') : Inv blockSize input r' := by
  obtain ⟨n, -, hr, hmay, rfl⟩ | ⟨-, -, rfl⟩ | ⟨-, -, rfl⟩ | ⟨b, last, -, hr, rfl⟩ |
    ⟨b, last, rfl, -⟩ := step_cases hstep
  · by_cases hn : n = 0
    · subst hn
      exact h.read_zero hr hmay
    · exact h.read_pos hr hn hmay
  · exact h
  · exact ⟨h.sent_length, trivial⟩
  · exact h.sent hpos hr
  · exact absurd rfl ha

/-- Reading is no reason to give up. -/
lemma point_onRead_ne (hr : r.point = .reading) {n : ℕ} :
    (r.onRead blockSize n).point ≠ .exited .error := by
  unfold onRead
  dsimp only
  split
  · split <;> exact nofun
  · split
    · exact nofun
    · show r.point ≠ .exited .error
      rw [hr]
      exact nofun

/-- Nothing was sent but the blocks of the input. -/
lemma Inv.sent_prefix (h : Inv blockSize input r) (hr : r.point ≠ .exited .error) :
    r.sent.flatten <+: padded blockSize input := by
  have hacc := h.accounted
  have hinput : ∀ {rest : Bytes}, input = r.sent.flatten ++ rest →
      r.sent.flatten <+: padded blockSize input := by
    rintro rest rfl
    unfold padded
    rw [List.append_assoc]
    exact List.prefix_append _ _
  unfold Accounted at hacc
  cases hpoint : r.point with
  | reading =>
    rw [hpoint] at hacc
    exact hinput hacc.2.2
  | sending b last =>
    rw [hpoint] at hacc
    cases last with
    | false => exact hinput hacc.2.2
    | true =>
      obtain ⟨tail, -, -, htail, -⟩ := hacc
      exact hinput htail
  | exited result =>
    rw [hpoint] at hacc
    cases result with
    | ok => exact hacc ▸ List.prefix_rfl
    | error => exact absurd hpoint hr

/-- The invariant holds until the reader gives up, which leaves what was sent as it is. -/
lemma inv_or_exited (hpos : 0 < blockSize) {acts : List ReaderAction}
    (hrun : Machine.run (Reader.step blockSize) (Reader.init blockSize input) acts = some r) :
    Inv blockSize input r ∧ r.point ≠ .exited .error ∨
      (∃ result, r.point = .exited result) ∧ (∀ b ∈ r.sent, b.length = blockSize) ∧
        r.sent.flatten <+: padded blockSize input := by
  refine Machine.run_induction (P := fun _ r => Inv blockSize input r ∧ r.point ≠ .exited .error ∨
    (∃ result, r.point = .exited result) ∧ (∀ b ∈ r.sent, b.length = blockSize) ∧
      r.sent.flatten <+: padded blockSize input) (Or.inl ⟨Inv.init hpos, nofun⟩) ?_ hrun
  intro _ r a r' _ ih hstep
  rcases ih with ⟨hinv, herror⟩ | ⟨⟨result, hpoint⟩, -⟩
  · have hbefore := hinv.sent_prefix herror
    by_cases ha : a = .dropped
    · -- the encoder is gone, and so is the block
      subst ha
      obtain ⟨_, ha, -⟩ | ⟨ha, -⟩ | ⟨ha, -⟩ | ⟨_, _, ha, -⟩ | ⟨b, last, -, -, rfl⟩ :=
        step_cases hstep
      · cases ha
      · cases ha
      · cases ha
      · cases ha
      · exact Or.inr ⟨⟨_, rfl⟩, hinv.sent_length, hbefore⟩
    · have hinv' := hinv.step hpos ha hstep
      by_cases hexit : r'.point = .exited .error
      · obtain ⟨n, -, hr, -, rfl⟩ | ⟨-, -, rfl⟩ | ⟨-, -, rfl⟩ | ⟨b, last, -, -, rfl⟩ |
          ⟨b, last, rfl, -⟩ := step_cases hstep
        · exact absurd hexit (point_onRead_ne hr)
        · exact absurd hexit herror
        · exact Or.inr ⟨⟨_, rfl⟩, hinv.sent_length, hbefore⟩
        · cases last <;> cases hexit
        · exact absurd rfl ha
      · exact Or.inl ⟨hinv', hexit⟩
  · unfold Reader.step at hstep
    rw [hpoint] at hstep
    cases hstep

/-- **Whole blocks.** Whatever becomes of the encoder, every block sent is full. -/
theorem run_sent_length (hpos : 0 < blockSize) {acts : List ReaderAction}
    (hrun : Machine.run (step blockSize) (init blockSize input) acts = some r) :
    ∀ b ∈ r.sent, b.length = blockSize := by
  rcases inv_or_exited hpos hrun with ⟨hinv, -⟩ | ⟨-, hlength, -⟩
  · exact hinv.sent_length
  · exact hlength

/-- **The block cutter.** At the end of the input the blocks sent are full, and one after the
other they are the padded input, whatever the sizes of the reads. -/
theorem Finished.sent_flatten (hpos : 0 < blockSize) (h : Finished blockSize input r) :
    (∀ b ∈ r.sent, b.length = blockSize) ∧ r.sent.flatten = padded blockSize input := by
  obtain ⟨acts, hrun, hsends, hexit⟩ := h
  have hinv : Inv blockSize input r :=
    Machine.run_induction_forall (P := fun _ r => Inv blockSize input r) (Inv.init hpos)
      (fun _ _ _ _ _ _ ih ha hstep => ih.step hpos ha hstep) hsends hrun
  have hacc := hinv.accounted
  unfold Accounted at hacc
  rw [hexit] at hacc
  exact ⟨hinv.sent_length, hacc⟩

/-! ## Termination -/

/-- A bound on what the reader may still do, other than to read again after an interrupt. -/
def left (r : Reader) : ℕ :=
  2 * r.stdin.length + match r.point with
    | .reading => 2
    | .sending _ false => 3
    | .sending _ true => 1
    | .exited _ => 0

lemma left_step {a : ReaderAction} (h : step blockSize r a = some r') :
    r'.left + (if a ≠ .interrupted then 1 else 0) ≤ r.left := by
  obtain ⟨n, rfl, hr, ⟨hstdin, -⟩, rfl⟩ | ⟨rfl, -, rfl⟩ | ⟨rfl, hr, rfl⟩ | ⟨b, last, rfl, hr, rfl⟩ |
    ⟨b, last, rfl, hr, rfl⟩ := step_cases h
  · have hleft : r.left = 2 * r.stdin.length + 2 := by rw [left, hr]
    rw [if_pos nofun, hleft]
    unfold onRead
    dsimp only
    by_cases hn : n = 0
    · rw [if_pos hn]
      split
      · exact Nat.le_refl _
      · exact Nat.le_succ _
    · rw [if_neg hn]
      have hdrop : (r.stdin.drop n).length + n = r.stdin.length := by
        rw [List.length_drop]
        omega
      split
      · show 2 * (r.stdin.drop n).length + 3 + 1 ≤ _
        omega
      · rw [left, hr]
        show 2 * (r.stdin.drop n).length + 2 + 1 ≤ _
        omega
  · exact Nat.le_refl _
  · rw [if_pos nofun, left, left, hr]
    exact Nat.le_succ _
  · rw [if_pos (show ReaderAction.sent ≠ .interrupted from nofun), left, left, hr]
    cases last <;> exact Nat.le_refl _
  · rw [if_pos (show ReaderAction.dropped ≠ .interrupted from nofun), left, left, hr]
    cases last
    · exact Nat.le_add_right _ 2
    · exact Nat.le_refl _

/-- Until it returns, the reader is never stuck, whatever the sizes of the reads. -/
lemma exists_step (hr : ∀ result, r.point ≠ .exited result)
    (hspace : r.point = .reading → r.filled < blockSize) :
    ∃ a, a ≠ .interrupted ∧ a ≠ .ioError ∧ a ≠ .dropped ∧ (step blockSize r a).isSome := by
  cases hpoint : r.point with
  | reading =>
    have hlt := hspace hpoint
    refine ⟨.read (min 1 r.stdin.length), nofun, nofun, nofun, ?_⟩
    unfold step
    rw [hpoint]
    show (if r.MayRead blockSize _ then _ else none).isSome = true
    rw [if_pos]
    · rfl
    · refine ⟨Nat.min_le_right _ _, by omega, fun hzero => Or.inl ?_⟩
      rw [← List.length_eq_zero_iff]
      omega
  | sending b last =>
    refine ⟨.sent, nofun, nofun, nofun, ?_⟩
    unfold step
    rw [hpoint]
    rfl
  | exited result => exact absurd hpoint (hr result)

/-! ## Block cutting -/

/-- The padding is the least number of zeros that reaches a multiple of the block size. -/
lemma padded_least (hpos : 0 < blockSize) (bytes : Bytes) :
    ∃ zeros, padded blockSize bytes = bytes ++ List.replicate zeros 0 ∧
      blockSize ∣ bytes.length + zeros ∧
      ∀ zeros', blockSize ∣ bytes.length + zeros' → zeros ≤ zeros' := by
  have hlt := Nat.mod_lt bytes.length hpos
  have hdvd (zeros : ℕ) : blockSize ∣ bytes.length + zeros ↔
      blockSize ∣ bytes.length % blockSize + zeros := by
    rw [Nat.dvd_iff_mod_eq_zero, Nat.dvd_iff_mod_eq_zero, Nat.mod_add_mod]
  refine ⟨_, rfl, ?_, ?_⟩
  · rw [hdvd]
    rcases Nat.eq_zero_or_pos (bytes.length % blockSize) with hzero | hsome
    · rw [hzero, Nat.sub_zero, Nat.mod_self]
      exact Nat.dvd_zero _
    · rw [Nat.mod_eq_of_lt (Nat.sub_lt hpos hsome), Nat.add_sub_cancel' hlt.le]
  · intro zeros' hzeros'
    rw [hdvd] at hzeros'
    rcases Nat.eq_zero_or_pos (bytes.length % blockSize) with hzero | hsome
    · rw [hzero, Nat.sub_zero, Nat.mod_self]
      exact Nat.zero_le _
    · rw [Nat.mod_eq_of_lt (Nat.sub_lt hpos hsome)]
      have hle := Nat.le_of_dvd (by omega) hzeros'
      omega

/-- The blocks are slices of the padded input. -/
lemma sent_eq_slices (hpos : 0 < blockSize) {blocks : List Bytes}
    (hlength : ∀ b ∈ blocks, b.length = blockSize)
    (hflatten : blocks.flatten = padded blockSize input) :
    blocks = (List.range (numBlocks blockSize input)).map
      fun i => slice (padded blockSize input) (i * blockSize) blockSize := by
  have hnum := numBlocks_of_flatten hpos hlength hflatten
  refine List.ext_getElem (by rw [List.length_map, List.length_range, hnum]) ?_
  intro i hi hi'
  rw [List.getElem_map, List.getElem_range, ← hflatten, slice_flatten hlength hi]

/-- **Block cutting.** Whatever the sizes of the reads and wherever they are interrupted, all
blocks sent are full, and they are an initial part of the input and its padding; at the end of
the input they are all of it, so that the input alone says what they are. Nothing is sent for
no input, and no padding behind whole blocks. A read always has space for a byte, so it returns
nothing only at the end of the input. The reader comes to an end. -/
theorem reader_thread_cuts_blocks (hpos : 0 < blockSize) {acts : List ReaderAction}
    (hrun : Machine.run (step blockSize) (init blockSize input) acts = some r) :
    ((∀ b ∈ r.sent, b.length = blockSize) ∧ r.sent.flatten <+: padded blockSize input) ∧
    ((∀ a ∈ acts, a ≠ .dropped) → r.point = .exited .ok →
      (∃ zeros, r.sent.flatten = input ++ List.replicate zeros 0 ∧
        blockSize ∣ input.length + zeros ∧
        ∀ zeros', blockSize ∣ input.length + zeros' → zeros ≤ zeros') ∧
      r.sent = ((List.range (numBlocks blockSize input)).map
        fun i => slice (padded blockSize input) (i * blockSize) blockSize) ∧
      (input = [] → r.sent = []) ∧ (blockSize ∣ input.length → r.sent.flatten = input)) ∧
    ((r.point = .reading → r.filled < blockSize) ∧
      Machine.EachStep (step blockSize) (init blockSize input)
        (fun r a => a = .read 0 → r.stdin = []) acts) ∧
    ((∀ result, r.point ≠ .exited result) →
      ∃ a, a ≠ .interrupted ∧ a ≠ .ioError ∧ a ≠ .dropped ∧ (step blockSize r a).isSome) ∧
    acts.countP (· ≠ .interrupted) ≤ 2 * input.length + 2 := by
  have hspace : r.point = .reading → r.filled < blockSize := by
    intro hr
    rcases inv_or_exited hpos hrun with ⟨hinv, -⟩ | ⟨⟨result, hexit⟩, -⟩
    · exact (hinv.reading hr).2.1
    · rw [hr] at hexit
      cases hexit
  refine ⟨⟨run_sent_length hpos hrun, ?_⟩, ?_, ⟨hspace, ?_⟩, fun hr => exists_step hr hspace, ?_⟩
  · rcases inv_or_exited hpos hrun with ⟨hinv, herror⟩ | ⟨-, -, hbefore⟩
    · exact hinv.sent_prefix herror
    · exact hbefore
  · intro hsends hexit
    obtain ⟨hlength, hflatten⟩ := Finished.sent_flatten hpos ⟨acts, hrun, hsends, hexit⟩
    obtain ⟨zeros, hpadded, hdvd, hleast⟩ := padded_least hpos input
    refine ⟨⟨zeros, hflatten.trans hpadded, hdvd, hleast⟩, sent_eq_slices hpos hlength hflatten,
      ?_, ?_⟩
    · intro hinput
      rw [padded_eq_nil_iff.mpr hinput] at hflatten
      have hnum := numBlocks_of_flatten hpos hlength (padded_eq_nil_iff.mpr hinput ▸ hflatten)
      rw [numBlocks, padded_eq_nil_iff.mpr hinput, List.length_nil, Nat.zero_div] at hnum
      exact List.length_eq_zero_iff.mp hnum
    · intro hmultiple
      have hzero := Nat.le_zero.mp (hleast 0 hmultiple)
      rw [hflatten, hpadded, hzero, List.replicate_zero, List.append_nil]
  · rintro pre a post s rfl hpre rfl
    obtain ⟨s', hs', -⟩ := Machine.exists_step_of_run hrun hpre
    obtain ⟨n, hn, hr, hmay, -⟩ | ⟨ha, -⟩ | ⟨ha, -⟩ | ⟨_, _, ha, -⟩ | ⟨_, _, ha, -⟩ :=
      step_cases hs'
    · cases hn
      rcases inv_or_exited hpos hpre with ⟨hinv, -⟩ | ⟨⟨result, hexit⟩, -⟩
      · exact (hmay.2.2 rfl).resolve_right (hinv.reading hr).2.1.ne
      · rw [hr] at hexit
        cases hexit
    · cases ha
    · cases ha
    · cases ha
    · cases ha
  · have hcount := @Machine.countP_le_measure _ _ (step blockSize) left
      (fun a => decide (a ≠ .interrupted)) (fun s a s' h => by simpa using left_step h) _ _ _ hrun
    exact (Nat.le_add_right _ _).trans hcount

/-- Four bytes in blocks of three. -/
theorem reader_thread_cuts_four_bytes : ∃ r, Machine.run (step 3) (init 3 [1, 2, 3, 4])
      [.read 2, .interrupted, .read 1, .sent, .read 1, .read 0, .sent] = some r ∧
    r.point = .exited .ok ∧ r.sent.flatten = [1, 2, 3, 4] ++ List.replicate 2 0 := by
  refine ⟨_, rfl, rfl, ?_⟩
  obtain ⟨⟨zeros, hflatten, hdvd, hleast⟩, -⟩ :=
    (@reader_thread_cuts_blocks 3 [1, 2, 3, 4] _ (by decide)
      [.read 2, .interrupted, .read 1, .sent, .read 1, .read 0, .sent] rfl).2.1 (by decide) rfl
  have hle := hleast 2 (by decide)
  have hzeros : zeros = 2 := by
    simp only [List.length_cons, List.length_nil] at hdvd
    omega
  rw [hflatten, hzeros]

end Reader

end Enc

end RaptorqTs
