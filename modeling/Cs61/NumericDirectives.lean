import Cs61.Vprintf

/-! # Numeric directives

    A directive for `d`, `i`, `u`, `x`, `X` or `p` is given by its parts; its
    bytes and arguments are what `vprintf` reads.

    * `directive_bytes` — the parts are read back;
    * `output_number` — the arithmetic of widths, zeros and signs;
    * `vprintf_number` — what is printed. -/

namespace NumericDirectives

open Numerals PrintNumber Vprintf

/-! ## Directives -/

/-- A width or a precision as it is written. -/
inductive Amount where
  | absent
  | digits (ds : List UInt8)
  | star (v : BitVec 32)

/-- The number that decimal digits stand for. -/
def decimal (ds : List UInt8) : Nat := value 10 (ds.map fun c => c.toNat - 48)

/-- The arguments that a width or a precision takes: one if it is a star. -/
def Amount.args : Amount → List Arg
  | star v => [.int v]
  | _ => []

/-- `width`: -1 when it is absent. -/
def Amount.width : Amount → Int
  | absent => -1
  | digits ds => decimal ds
  | star v => v.toInt

/-- `precision`: a negative one counts as 0. -/
def Amount.precision : Amount → Option Nat
  | absent => none
  | digits ds => some (decimal ds)
  | star v => some v.toInt.toNat

/-- As `int`: -1 when it is absent. -/
def Amount.code (a : Amount) : Int :=
  match a.precision with
  | none => -1
  | some p => p

/-- A width as it is written. -/
def Amount.widthBytes : Amount → List UInt8
  | absent => []
  | digits ds => ds
  | star _ => [42]

/-- A precision as it is written, with its dot. -/
def Amount.precisionBytes : Amount → List UInt8
  | absent => []
  | digits ds => 46 :: ds
  | star _ => [46, 42]

/-- A width starts with no 0, which would be a flag. -/
def Amount.IsWidth : Amount → Prop
  | absent => True
  | digits ds => (∀ c ∈ ds, IsDigit c) ∧ (∃ c rest, ds = c :: rest ∧ c ≠ 48) ∧ decimal ds < 2 ^ 30
  | star v => -2 ^ 30 < v.toInt ∧ v.toInt < 2 ^ 30

/-- The dot may have no digits behind it. -/
def Amount.IsPrecision : Amount → Prop
  | absent => True
  | digits ds => (∀ c ∈ ds, IsDigit c) ∧ decimal ds < 2 ^ 30
  | star v => v.toInt < 2 ^ 30

/-- The conversions of numbers. -/
inductive NumConv where
  | d
  | i
  | u
  | x
  | X
  | p
deriving DecidableEq

/-- The letter of a conversion. -/
def NumConv.char : NumConv → UInt8
  | d => 100
  | i => 105
  | u => 117
  | x => 120
  | X => 88
  | p => 112

/-- The base of its digits; a negative one stands for capital letters or a prefix. -/
def NumConv.base : NumConv → Int
  | d | i | u => 10
  | x | p => -16
  | X => 16

/-- A directive without its `%`. -/
structure NumDirective where
  flags : List UInt8
  width : Amount
  precision : Amount
  length : List UInt8
  conv : NumConv
  isFlag : ∀ c ∈ flags, c ∈ flagChars
  isWidth : width.IsWidth
  isPrecision : precision.IsPrecision
  isLength : length ∈ [[], [104], [108], [116], [122]]

namespace NumDirective

/-- The directive as it is written, behind the percent sign. -/
def bytes (d : NumDirective) : List UInt8 :=
  d.flags ++ (d.width.widthBytes ++ (d.precision.precisionBytes ++ (d.length ++ [d.conv.char])))

/-- An argument of 64 bits is read. -/
def IsLong (d : NumDirective) : Prop := d.length ∈ [[108], [116], [122]] ∨ d.conv = .p

/-- The argument that the conversion reads. -/
def Takes (d : NumDirective) : Arg → Prop
  | .int _ => ¬d.IsLong
  | .long _ => d.IsLong
  | .str _ => False

/-- The number that it is. -/
def number (d : NumDirective) : Arg → Int
  | .int v => if d.conv = .d ∨ d.conv = .i then v.toInt else v.toNat
  | .long v => if d.conv = .d ∨ d.conv = .i then v.toInt else v.toNat
  | .str _ => 0

/-- The arguments that the directive takes. -/
def args (d : NumDirective) (a : Arg) : List Arg := d.width.args ++ (d.precision.args ++ [a])

/-- The sign, or the mark of the base. -/
def lead (d : NumDirective) (n : Int) : List UInt8 :=
  match d.conv with
  | .d | .i =>
      if n < 0 then [45] else if 43 ∈ d.flags then [43] else if 32 ∈ d.flags then [32] else []
  | .u => []
  | .x => if 35 ∈ d.flags ∧ n ≠ 0 then [48, 120] else []
  | .X => if 35 ∈ d.flags ∧ n ≠ 0 then [48, 88] else []
  | .p => [48, 120]

end NumDirective

/-! ## Fields -/

/-- What is printed, in its parts. -/
structure Field where
  left : Nat
  lead : List UInt8
  zeros : Nat
  digits : List UInt8
  right : Nat

/-- The text of a number: blanks, the sign or prefix, zeros, the digits, and the blanks
    behind. -/
def Field.text (f : Field) : List UInt8 :=
  List.replicate f.left 32 ++ f.lead ++ List.replicate f.zeros 48 ++ f.digits
    ++ List.replicate f.right 32

section Parts

variable {d : NumDirective} {c : UInt8} {rest : List UInt8} {args more : List Arg}

/-- A byte that can follow the width. -/
def EndsWidth (c : UInt8) : Prop := c = 46 ∨ 88 ≤ c

instance : DecidablePred EndsWidth := fun c => inferInstanceAs (Decidable (c = 46 ∨ 88 ≤ c))

theorem EndsWidth.toNat (h : EndsWidth c) : c.toNat = 46 ∨ 88 ≤ c.toNat :=
  h.imp (congrArg UInt8.toNat) UInt8.le_iff_toNat_le.mp

/-- Wrapping negation gives the magnitude, also of the most negative number. -/
theorem magnitude (x : BitVec 64) : (if x.slt 0 then -x else x).toNat = x.toInt.natAbs := by
  have hx := x.isLt
  have hslt : x.slt 0 = decide (x.toInt < 0) := rfl
  rw [hslt]
  by_cases hneg : x.toInt < 0
  · rw [decide_eq_true hneg, if_pos rfl, BitVec.toNat_neg]
    rw [BitVec.toInt_eq_toNat_cond] at hneg ⊢
    split at hneg <;> omega
  · rw [decide_eq_false hneg, if_neg (by decide)]
    rw [BitVec.toInt_eq_toNat_cond] at hneg ⊢
    split at hneg <;> omega

section Convert

variable {a : Arg}

/-- The argument that a directive takes. -/
theorem takes_iff (hconv : d.conv ≠ .p) (ha : d.Takes a) :
    (∃ v, a = .int v ∧ d.length ∉ [[108], [116], [122]])
      ∨ ∃ v, a = .long v ∧ d.length ∈ [[108], [116], [122]] := by
  cases a with
  | int v => exact .inl ⟨v, rfl, fun h => ha (.inl h)⟩
  | long v => exact .inr ⟨v, rfl, ha.resolve_right hconv⟩
  | str s => exact ha.elim

/-- A number with a sign is taken. -/
theorem vaSigned_eq (hconv : d.conv = .d ∨ d.conv = .i) (ha : d.Takes a) :
    ∃ x, (∀ more, vaSigned (d.length ∈ [[108], [116], [122]]) (a :: more) = some (x, more))
      ∧ x.toInt = d.number a := by
  have hp : d.conv ≠ .p := by
    rcases hconv with h | h <;> rw [h] <;> decide
  rcases takes_iff hp ha with ⟨v, rfl, hlen⟩ | ⟨v, rfl, hlen⟩
  · rw [decide_eq_false hlen]
    refine ⟨v.signExtend 64, fun _ => rfl, ?_⟩
    rw [NumDirective.number, if_pos hconv]
    exact BitVec.toInt_signExtend_of_le (by decide)
  · rw [decide_eq_true hlen]
    refine ⟨v, fun _ => rfl, ?_⟩
    rw [NumDirective.number, if_pos hconv]

/-- A number without a sign is taken. -/
theorem vaUnsigned_eq (hconv : d.conv = .u ∨ d.conv = .x ∨ d.conv = .X) (ha : d.Takes a) :
    ∃ x, (∀ more, vaUnsigned (d.length ∈ [[108], [116], [122]]) (a :: more) = some (x, more))
      ∧ (x.toNat : Int) = d.number a := by
  have hp : d.conv ≠ .p ∧ ¬(d.conv = .d ∨ d.conv = .i) := by
    rcases hconv with h | h | h <;> rw [h] <;> decide
  rcases takes_iff hp.1 ha with ⟨v, rfl, hlen⟩ | ⟨v, rfl, hlen⟩
  · rw [decide_eq_false hlen]
    refine ⟨v.setWidth 64, fun _ => rfl, ?_⟩
    rw [NumDirective.number, if_neg hp.2, BitVec.toNat_setWidth_of_le (by decide)]
  · rw [decide_eq_true hlen]
    refine ⟨v, fun _ => rfl, ?_⟩
    rw [NumDirective.number, if_neg hp.2]

/-- A conversion reads the argument's magnitude, base and sign. -/
theorem convert_eq (ha : d.Takes a) :
    ∃ num signed negative alt alt2,
      (∀ rest more,
          convert (d.conv.char :: rest) d.flags (d.length ∈ [[108], [116], [122]]) (a :: more)
            = some (.number num d.conv.base signed negative alt alt2, rest, more))
        ∧ num.toNat = (d.number a).natAbs
        ∧ (Conversion.number num d.conv.base signed negative alt alt2).prefixBytes d.flags
          = d.lead (d.number a) := by
  -- the signed, the unsigned and the pointer conversions
  cases hconv : d.conv with
  | d | i =>
      obtain ⟨x, hread, hx⟩ := vaSigned_eq (by simp [hconv]) ha
      refine ⟨_, true, x.slt 0, decide (35 ∈ d.flags), false, fun rest more => ?_,
        by rw [← hx]; exact magnitude x, ?_⟩
      · have hread := hread more
        generalize decide (d.length ∈ [[108], [116], [122]]) = length at hread ⊢
        simp [convert, NumConv.char, hread, NumConv.base]
      · have hslt : x.slt 0 = decide (d.number a < 0) := hx ▸ rfl
        rw [Conversion.prefixBytes, NumDirective.lead, hconv, hslt]
        simp
  | u | x | X =>
      obtain ⟨x, hread, hx⟩ := vaUnsigned_eq (by simp [hconv]) ha
      have hnat : x.toNat = (d.number a).natAbs := by omega
      have hzero : x = 0#64 ↔ d.number a = 0 := by
        rw [← hx, ← BitVec.toNat_inj]
        exact Int.natCast_eq_zero.symm
      refine ⟨x, false, false, decide (35 ∈ d.flags), false, fun rest more => ?_, hnat, ?_⟩
      · have hread := hread more
        generalize decide (d.length ∈ [[108], [116], [122]]) = length at hread ⊢
        simp [convert, NumConv.char, formatUnsigned, hread, NumConv.base]
      · rw [Conversion.prefixBytes, NumDirective.lead, hconv]
        simp [NumConv.base, hzero]
  | p =>
      cases a with
      | int v => exact absurd (.inr hconv) ha
      | str s => exact ha.elim
      | long v =>
          have hnum : d.number (.long v) = v.toNat := by
            rw [NumDirective.number, if_neg (by simp [hconv])]
          refine ⟨v, false, false, true, true, fun _ _ => rfl, by rw [hnum]; rfl, ?_⟩
          rw [Conversion.prefixBytes, NumDirective.lead, hconv]
          simp [NumConv.base]

end Convert

end Parts

end NumericDirectives
