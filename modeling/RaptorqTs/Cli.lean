import RaptorqTs.Common.WireTheorems
import RaptorqTs.Dec.Oti
import Mathlib.Data.Rat.Defs
import Mathlib.Algebra.Order.Field.Rat

/-!
# The two command lines

`parse_pid`, of which each binary has a copy, and the checks the encoder's `main` makes
on its arguments. The configurations they admit are compared with the ones the two sides
can talk to each other with.
-/

namespace RaptorqTs

/-! ## `u16::from_str_radix` -/

inductive IntErrorKind where
  | empty
  | invalidDigit
  | posOverflow
deriving DecidableEq, Repr

/-- `char::to_digit`, to the base 16. -/
def hexDigit (c : Char) : Option ℕ :=
  if '0' ≤ c ∧ c ≤ '9' then some (c.toNat - '0'.toNat)
  else if 'a' ≤ c ∧ c ≤ 'f' then some (c.toNat - 'a'.toNat + 10)
  else if 'A' ≤ c ∧ c ≤ 'F' then some (c.toNat - 'A'.toNat + 10)
  else none

/-- The digits after those that make up `n`, in a `u16`. -/
def hexDigits (n : ℕ) : List Char → Except IntErrorKind ℕ
  | [] => .ok n
  | c :: s =>
    match hexDigit c with
    | none => .error .invalidDigit
    | some d => if 2 ^ 16 ≤ n * 16 + d then .error .posOverflow else hexDigits (n * 16 + d) s

/-- `u16::from_str_radix` to the base 16. A plus sign may stand before the digits. -/
def u16FromHex (s : List Char) : Except IntErrorKind UInt16 :=
  match s with
  | [] => .error .empty
  | ['+'] => .error .invalidDigit
  | '+' :: digits => (hexDigits 0 digits).map UInt16.ofNat
  | digits => (hexDigits 0 digits).map UInt16.ofNat

/-! ## `parse_pid` -/

/-- What the message `invalid pid {s:?}: {e}` is made of. -/
structure PidError where
  s : List Char
  e : IntErrorKind
deriving DecidableEq, Repr

/-- `trim_start_matches` of a zero followed by `x`. -/
def trimStartMatches (x : Char) : List Char → List Char
  | a :: b :: s => if a = '0' ∧ b = x then trimStartMatches x s else a :: b :: s
  | s => s

/-- The body of both `parse_pid`s. -/
def parsePidBody (s : String) : Except PidError UInt16 :=
  let s := trimStartMatches 'X' (trimStartMatches 'x' s.toList)
  (u16FromHex s).mapError fun e => ⟨s, e⟩

/-- `parse_pid` of the encoder. -/
def Enc.parsePid (s : String) : Except PidError UInt16 := parsePidBody s

/-- `parse_pid` of the decoder. -/
def Dec.parsePid (s : String) : Except PidError UInt16 := parsePidBody s

example : Enc.parsePid "0x100" = .ok 0x100 := by decide

example : Dec.parsePid "0x10000" = .error ⟨"10000".toList, .posOverflow⟩ := by decide

/-- The character of a digit. -/
def hexChar (d : ℕ) : Char := "0123456789abcdef".toList.getD d '0'

lemma hexDigit_hexChar {d : ℕ} (h : d < 16) : hexDigit (hexChar d) = some d := by
  have hall : ∀ d < 16, hexDigit (hexChar d) = some d := by decide
  exact hall d h

lemma hexChar_plain {d : ℕ} (h : d < 16) :
    hexChar d ≠ 'x' ∧ hexChar d ≠ 'X' ∧ hexChar d ≠ '+' := by
  have hall : ∀ d < 16, hexChar d ≠ 'x' ∧ hexChar d ≠ 'X' ∧ hexChar d ≠ '+' := by decide
  exact hall d h

/-- Nothing is trimmed off four digits. -/
lemma trimStartMatches_of_ne {x a b : Char} {s : List Char} (h : b ≠ x) :
    trimStartMatches x (a :: b :: s) = a :: b :: s := by
  rw [trimStartMatches, if_neg]
  intro hab
  exact h hab.2

/-- Four digits are read as the number they write. -/
lemma u16FromHex_digits {a b c d : ℕ} (ha : a < 16) (hb : b < 16) (hc : c < 16) (hd : d < 16) :
    u16FromHex [hexChar a, hexChar b, hexChar c, hexChar d] =
      .ok (UInt16.ofNat (((a * 16 + b) * 16 + c) * 16 + d)) := by
  have hplain := (hexChar_plain ha).2.2
  have hdigits : hexDigits 0 [hexChar a, hexChar b, hexChar c, hexChar d] =
      .ok (((a * 16 + b) * 16 + c) * 16 + d) := by
    simp only [hexDigits, hexDigit_hexChar, ha, hb, hc, hd]
    rw [if_neg (by omega), if_neg (by omega), if_neg (by omega), if_neg (by omega)]
    simp
  unfold u16FromHex
  simp [hplain, hdigits, Except.map]

/-- **Every `u16` is the PID of some command line.** -/
theorem exists_parsePid (pid : UInt16) :
    ∃ s, Enc.parsePid s = .ok pid ∧ Dec.parsePid s = .ok pid := by
  have hpid := pid.toNat_lt
  set n := pid.toNat with hn
  obtain ⟨a, b, c, d, ha, hb, hc, hd, hsum⟩ : ∃ a b c d, a < 16 ∧ b < 16 ∧ c < 16 ∧ d < 16 ∧
      ((a * 16 + b) * 16 + c) * 16 + d = n := by
    refine ⟨n / 16 ^ 3, n / 16 ^ 2 % 16, n / 16 % 16, n % 16, ?_, ?_, ?_, ?_, ?_⟩ <;> omega
  have hparse : parsePidBody (String.ofList [hexChar a, hexChar b, hexChar c, hexChar d])
      = .ok pid := by
    unfold parsePidBody
    rw [String.toList_ofList, trimStartMatches_of_ne (hexChar_plain hb).1,
      trimStartMatches_of_ne (hexChar_plain hb).2.1]
    simp only [u16FromHex_digits ha hb hc hd, hsum, hn]
    simp [Except.mapError]
  exact ⟨_, hparse, hparse⟩

/-! ## The arguments of the encoder -/

/-- The arguments that `main` checks. An `f32` that is not finite is `none`. -/
structure Enc.Args where
  rate : UInt64
  blockSize : ℕ
  repairOverhead : Option ℚ
  maxRepairOverhead : Option ℚ
  pid : UInt16

/-- The checks of `main`, with the message of each. -/
def Enc.Args.validate (args : Enc.Args) : Except String Unit :=
  if args.blockSize = 0 ∨ args.blockSize % symbolSize ≠ 0 then
    .error ("block_size " ++ toString args.blockSize ++
      " must be a positive multiple of symbol size " ++ toString symbolSize)
  else
    match args.repairOverhead with
    | none => .error "repair_overhead must be >= 0"
    | some repair =>
      if repair < 0 then .error "repair_overhead must be >= 0"
      else
        match args.maxRepairOverhead with
        | none => .error "max_repair_overhead must be finite and >= repair_overhead"
        | some maxRepair =>
          if maxRepair < repair then
            .error "max_repair_overhead must be finite and >= repair_overhead"
          else if args.rate = 0 then .error "rate must be > 0"
          else .ok ()

/-- A configuration is admitted only with a whole number of symbols per block. -/
lemma Enc.Args.blockSize_of_validate {args : Enc.Args} (h : args.validate = .ok ()) :
    ∃ k, 1 ≤ k ∧ args.blockSize = k * symbolSize := by
  unfold validate at h
  by_cases hsize : args.blockSize = 0 ∨ args.blockSize % symbolSize ≠ 0
  · rw [if_pos hsize] at h
    cases h
  · obtain ⟨hzero, hmod⟩ := not_or.mp hsize
    rw [not_not] at hmod
    have hdiv := Nat.div_add_mod' args.blockSize symbolSize
    rw [hmod, Nat.add_zero] at hdiv
    refine ⟨args.blockSize / symbolSize, ?_, hdiv.symm⟩
    exact Nat.div_pos (Nat.le_of_dvd (Nat.pos_of_ne_zero hzero) (Nat.dvd_of_mod_eq_zero hmod))
      symbolSize_pos

/-! ## Interoperation -/

/-- The decoder, configured with `decPid`, takes every packet that the encoder's writer
builds, of every block: it parses as a data frame, and its OTI passes the filter and
announces the encoder's block size. Nothing is built when `make_block_oti` panics. -/
structure Interoperates (w : WireCodec) (code : FountainCode) (encPid decPid : UInt16)
    (blockSize : ℕ) : Prop where
  same_pid : encPid = decPid
  accepted : ∀ (oti : ObjectTransmissionInformation) (cc : UInt8) (out : Bytes) (sbn : UInt8)
    (block : Bytes) (esi : ℕ), makeBlockOti blockSize symbolSize = some oti →
    out.length = tsPacketSize → block.length = blockSize → esi < 2 ^ 24 →
      ∃ cc' oti' id symbol,
        parsePacket w (buildDataPacket w encPid cc oti
          (code.packet sbn (blockSize / symbolSize) block esi) out) decPid =
            .ok (.data cc' oti' id symbol) ∧
        otiIsSane oti' = true ∧ oti'.transferLength = blockSize

section Interoperates

variable {w : WireCodec} {code : FountainCode} {s : String} {args : Enc.Args} {decPid : UInt16}

/-- **Interoperation.** Of the configurations the two command lines admit, those with a 13-bit PID
let the decoder take the encoder's packets; with a wider PID it takes none of them, which makes no
difference only where the block is too large and the encoder panics before it has built any. -/
theorem interoperates_iff (hw : w.Laws) (hcode : code.Laws symbolSize)
    (henc : Enc.parsePid s = .ok args.pid) (hdec : Dec.parsePid s = .ok decPid)
    (hargs : args.validate = .ok ()) :
    Interoperates w code args.pid decPid args.blockSize ↔
      args.pid < 0x2000 ∨ maxSourceSymbolsPerBlock * symbolSize < args.blockSize := by
  obtain ⟨k, hk, hsize⟩ := Enc.Args.blockSize_of_validate hargs
  have hpid : args.pid = decPid := Except.ok.inj (henc.symm.trans hdec)
  have hdiv : k * symbolSize / symbolSize = k := Nat.mul_div_cancel k symbolSize_pos
  rw [← hpid, hsize]
  have hlen : ∀ {sbn block esi}, block.length = k * symbolSize →
      (code.packet sbn (k * symbolSize / symbolSize) block esi).data.length = symbolSize := by
    intro sbn block esi hblock
    show (code.symbol _ block esi).length = symbolSize
    rw [hdiv]
    exact hcode.symbol_length hk hblock
  constructor
  · intro h
    by_contra! hbad
    obtain ⟨hwide, hle⟩ := hbad
    -- the first packet of some block
    have hmake : makeBlockOti (k * symbolSize) symbolSize =
        some (blockOti (k * symbolSize) symbolSize) :=
      makeBlockOti_eq_some.mpr ⟨Nat.le_of_mul_le_mul_right hle symbolSize_pos, rfl⟩
    have hout : (List.replicate tsPacketSize (0 : UInt8)).length = tsPacketSize :=
      List.length_replicate ..
    have hblock : (List.replicate (k * symbolSize) (0 : UInt8)).length = k * symbolSize :=
      List.length_replicate ..
    obtain ⟨cc', oti', id, symbol, hparse, -, -⟩ :=
      h.accepted _ 0 _ 0 _ 0 hmake hout hblock (by decide)
    rw [parsePacket_buildDataPacket_wide w args.pid 0 hwide hout (hlen hblock)] at hparse
    cases hparse
  · intro h
    refine ⟨rfl, ?_⟩
    intro oti cc out sbn block esi hmake hout hblock hesi
    obtain ⟨hle, rfl⟩ := makeBlockOti_eq_some.mp hmake
    have hnarrow : args.pid < 0x2000 :=
      h.resolve_right (Nat.not_lt.mpr (Nat.mul_le_mul_right _ hle))
    exact ⟨_, _, _, _, parsePacket_buildDataPacket w args.pid cc hw hnarrow hout
      (blockOti_inRange hle) hesi (hlen hblock), otiIsSane_blockOti hk hle, rfl⟩

end Interoperates

/-- The default configuration, at 10 Mbit/s. -/
def Enc.Args.default : Enc.Args := ⟨10000000, defaultBlockSize, some (1 / 4), some 1, 0x100⟩

theorem interoperates_default :
    Interoperates Reference.codec Reference.code 0x100 0x100 defaultBlockSize := by
  have hargs : Enc.Args.default.validate = .ok () := by decide +kernel
  have henc : Enc.parsePid "0x100" = .ok Enc.Args.default.pid := rfl
  apply (interoperates_iff Reference.codec_laws Reference.code_laws henc rfl hargs).mpr
  exact Or.inl (by decide)

/-- The smallest PID that does not fit the header: both command lines admit it, and the
decoder rejects all that the encoder sends. -/
theorem interoperates_wide_pid :
    Enc.parsePid "2000" = .ok 0x2000 ∧ Dec.parsePid "2000" = .ok 0x2000 ∧
      Enc.Args.validate { Enc.Args.default with pid := 0x2000 } = .ok () ∧
      ¬ Interoperates Reference.codec Reference.code 0x2000 0x2000 defaultBlockSize := by
  refine ⟨by decide, by decide, by decide +kernel, fun h => ?_⟩
  have hmake : makeBlockOti defaultBlockSize symbolSize =
      some (blockOti defaultBlockSize symbolSize) := makeBlockOti_eq_some.mpr ⟨by decide, rfl⟩
  have hout : (List.replicate tsPacketSize (0 : UInt8)).length = tsPacketSize :=
    List.length_replicate ..
  have hblock : (List.replicate defaultBlockSize (0 : UInt8)).length = defaultBlockSize :=
    List.length_replicate ..
  obtain ⟨cc', oti, id, symbol, hparse, -, -⟩ :=
    h.accepted _ 0 _ 0 _ 0 hmake hout hblock (by decide)
  rw [parsePacket_buildDataPacket_wide _ _ _ (by decide) hout] at hparse
  · cases hparse
  · show (Reference.code.symbol _ _ 0).length = symbolSize
    exact Reference.code_laws.symbol_length (by decide) hblock

end RaptorqTs
