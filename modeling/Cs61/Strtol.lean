import Cs61.CharConv

/-! # `strtoul` and `strtol`

    Both skip whitespace and a sign, and convert the digits with `from_chars`,
    which for bases up to 10 reads them right.  `strtol` clamps its result
    (`strtol_clamps`); `strtoul` negates the value that stands for overflow
    (`strtoul_iff`).  With base 0 or 16 both lose the zero of a base prefix that
    no digit follows (`leadingZero_iff`). -/

namespace Strtol

open Numerals CharConv

/-! ## The functions

    A pointer into the string is what is left of it; behind its last byte is the
    terminator. -/

/-- `isspace(c)`. -/
def isspace (c : UInt8) : Bool := (9 ≤ c && c ≤ 13) || c == 32

/-- `strtol_fix_base`: `t` and `base` after it. -/
def strtolFixBase (t : List UInt8) (base : Nat) : List UInt8 × Nat :=
  if base = 0 then
    if t.getD 0 0 = '0'.toUInt8 then
      if t.getD 1 0 = 'x'.toUInt8 ∨ t.getD 1 0 = 'X'.toUInt8 then (t.drop 2, 16)
      else if t.getD 1 0 = 'o'.toUInt8 ∨ t.getD 1 0 = 'O'.toUInt8 then (t.drop 2, 8)
      else if t.getD 1 0 = 'b'.toUInt8 ∨ t.getD 1 0 = 'B'.toUInt8 then (t.drop 2, 2)
      else (t, 8)
    else (t, 10)
  else if base = 16 ∧ t.getD 0 0 = '0'.toUInt8
      ∧ (t.getD 1 0 = 'x'.toUInt8 ∨ t.getD 1 0 = 'X'.toUInt8) then (t.drop 2, base)
  else (t, base)

/-- The part that both have in common: `negative`, the result of `from_chars` and
    its `x`, and where `*endptr` points, from the start of the string. -/
def convert (s : List UInt8) (base : Nat) : Bool × Int × ULong × Nat :=
  let t := s.dropWhile isspace
  let negative := t.getD 0 0 == '-'.toUInt8
  let t := if negative || t.getD 0 0 == '+'.toUInt8 then t.drop 1 else t
  let (t, base) := strtolFixBase t base
  let (r, x) := fromChars (t ++ [0]) 0 base
  (negative, r.ec, x, if r.ec = eInval then 0 else s.length - t.length + r.ptr)

/-- `strtoul(s, endptr, base)`: its result, and `*endptr` unless `endptr` is null. -/
def strtoul (s : List UInt8) (endptr : Bool) (base : Nat) : ULong × Option Nat :=
  let (negative, ec, x, p) := convert s base
  let x := if ec = eRange then -1#64 else x
  (if negative then -x else x, if endptr then some p else none)

/-- `strtol(s, endptr, base)`. -/
def strtol (s : List UInt8) (endptr : Bool) (base : Nat) : BitVec 64 × Option Nat :=
  let (negative, ec, x, p) := convert s base
  let bound := (1#64 <<< 63) - (if negative then 0 else 1)
  let x := if ec = eRange ∨ bound < x then bound else x
  (if negative then -x else x, if endptr then some p else none)

/-! ## The number in a string -/

/-- The string has a minus sign. -/
def isNegative (s : List UInt8) : Bool := (s.dropWhile isspace).head? == some '-'.toUInt8

/-- The string without whitespace and sign. -/
def unsignedPart (s : List UInt8) : List UInt8 :=
  match s.dropWhile isspace with
  | [] => []
  | c :: rest => if c = '-'.toUInt8 ∨ c = '+'.toUInt8 then rest else c :: rest

/-- Its digits, and what they are worth. -/
def runDigits (base : Nat) (s : List UInt8) : List Nat := numberDigits base (unsignedPart s)

/-- The number that the digits at the front of a text stand for. -/
def magnitude (base : Nat) (s : List UInt8) : Nat := value base (runDigits base s)

/-- Where the digits end; the start of the string if there are none. -/
def numberEnd (base : Nat) (s : List UInt8) : Nat :=
  if runDigits base s = [] then 0
  else s.length - (unsignedPart s).length + (runDigits base s).length

variable {base : Nat} {s : List UInt8}

/-- Up to base 10, no byte is misread as a digit. -/
theorem not_misread (hb : base ≤ 10) (c : UInt8) : ¬ Misread base c := by
  rintro ⟨hlt, hgt⟩
  omega

/-- The terminator is no digit. -/
theorem numberDigits_terminated (base : Nat) (t : List UInt8) :
    numberDigits base (t ++ [0]) = numberDigits base t := by
  induction t with
  | nil => rfl
  | cons c t ih =>
      rw [List.cons_append]
      cases hvalue : digitValue base c with
      | none => rw [numberDigits_none hvalue, numberDigits_none hvalue]
      | some digit => rw [numberDigits_some hvalue, numberDigits_some hvalue, ih]

/-- **`from_chars`** reads the digits of small bases right. -/
theorem fromChars_small (hb : 2 ≤ base) (hb' : base ≤ 10) (t : List UInt8) :
    fromChars (t ++ [0]) 0 base = outcome base (numberDigits base t) 0 := by
  have hreads : ReadsNumber base (t ++ [0]) := by
    rw [fromChars_iff hb (Nat.le_trans hb' (by decide))]
    constructor
    · rintro ⟨c, -, hc⟩
      exact not_misread hb' c hc
    · rintro ⟨c, -, hc⟩
      exact absurd hc (not_misread hb' c)
  rw [hreads 0, numberDigits_terminated]

theorem strtolFixBase_small (hb : 2 ≤ base) (hb' : base ≤ 10) (t : List UInt8) :
    strtolFixBase t base = (t, base) := by
  rw [strtolFixBase, if_neg (by omega), if_neg (fun h => by omega)]

/-- `convert`, in the words of the string. -/
theorem convert_unsigned (s : List UInt8) (base : Nat) {u : List UInt8} {b : Nat}
    (hfix : strtolFixBase (unsignedPart s) base = (u, b)) :
    convert s base = (isNegative s, (fromChars (u ++ [0]) 0 b).1.ec, (fromChars (u ++ [0]) 0 b).2,
      if (fromChars (u ++ [0]) 0 b).1.ec = eInval then 0
      else s.length - u.length + (fromChars (u ++ [0]) 0 b).1.ptr) := by
  have hpart : (if ((s.dropWhile isspace).getD 0 0 == '-'.toUInt8
        || (s.dropWhile isspace).getD 0 0 == '+'.toUInt8) = true then (s.dropWhile isspace).drop 1
      else s.dropWhile isspace) = unsignedPart s := by
    rw [unsignedPart]
    cases s.dropWhile isspace with
    | nil => rfl
    | cons c rest => simp
  have hneg : ((s.dropWhile isspace).getD 0 0 == '-'.toUInt8) = isNegative s := by
    rw [isNegative]
    cases s.dropWhile isspace with
    | nil => rfl
    | cons c rest => rfl
  rw [convert]
  dsimp only
  rw [hpart, hneg, hfix]

/-- What both functions get from `from_chars`. -/
theorem convert_eq (hb : 2 ≤ base) (hb' : base ≤ 10) (s : List UInt8) :
    convert s base = (isNegative s, (outcome base (runDigits base s) 0).1.ec,
      (outcome base (runDigits base s) 0).2, numberEnd base s) := by
  have hend : (if (outcome base (runDigits base s) 0).1.ec = eInval then 0
      else s.length - (unsignedPart s).length + (outcome base (runDigits base s) 0).1.ptr)
        = numberEnd base s := by
    simp only [numberEnd, outcome_ptr, outcome_inval_iff]
  rw [convert_unsigned s base (strtolFixBase_small hb hb' _), fromChars_small hb hb', ← runDigits,
    hend]

/-- Numbers from 2 ^ 64 on are out of range. -/
theorem range_iff (base : Nat) (s : List UInt8) :
    (outcome base (runDigits base s) 0).1.ec = eRange ↔ 2 ^ 64 ≤ magnitude base s :=
  outcome_range_iff _ _

/-- Any other is converted. -/
theorem converted_value (h : ¬ 2 ^ 64 ≤ magnitude base s) :
    (outcome base (runDigits base s) 0).2 = BitVec.ofNat 64 (magnitude base s) :=
  outcome_value (Nat.lt_of_not_le h)

/-! ## `strtoul` -/

/-- The number modulo 2^64, `ULONG_MAX` if it is too large. -/
def strtoulResult (base : Nat) (s : List UInt8) : ULong :=
  if 2 ^ 64 ≤ magnitude base s then -1#64
  else if isNegative s then -BitVec.ofNat 64 (magnitude base s)
  else BitVec.ofNat 64 (magnitude base s)

/-- `strtoul` returns this and the end of the number. -/
def StrtoulReturns (base : Nat) (s : List UInt8) : Prop :=
  ∀ endptr, strtoul s endptr base
    = (strtoulResult base s, if endptr then some (numberEnd base s) else none)

/-- **`strtoul`** is right but for negative numbers that are too large. -/
theorem strtoul_iff (hb : 2 ≤ base) (hb' : base ≤ 10) (s : List UInt8) :
    StrtoulReturns base s ↔ ¬ (isNegative s = true ∧ 2 ^ 64 ≤ magnitude base s) := by
  have hvalue : ∀ endptr, strtoul s endptr base
      = (if isNegative s = true ∧ 2 ^ 64 ≤ magnitude base s then 1 else strtoulResult base s,
        if endptr then some (numberEnd base s) else none) := by
    intro endptr
    rw [strtoul, convert_eq hb hb', strtoulResult]
    simp only [range_iff]
    refine Prod.ext ?_ rfl
    dsimp only
    by_cases hlarge : 2 ^ 64 ≤ magnitude base s
    · rw [if_pos hlarge, if_pos hlarge]
      cases isNegative s with
      | true =>
          rw [if_pos rfl, if_pos ⟨rfl, hlarge⟩, BitVec.neg_neg]
          rfl
      | false => rw [if_neg Bool.false_ne_true, if_neg (fun h => Bool.false_ne_true h.1)]
    · have hnot : ¬ (isNegative s = true ∧ 2 ^ 64 ≤ magnitude base s) := fun h => hlarge h.2
      rw [if_neg hlarge, if_neg hlarge, if_neg hnot, converted_value hlarge]
  constructor
  · rintro h ⟨hneg, hlarge⟩
    have h1 := congrArg Prod.fst ((hvalue true).symm.trans (h true))
    rw [if_pos ⟨hneg, hlarge⟩, strtoulResult, if_pos hlarge] at h1
    exact absurd h1 (show (1 : ULong) ≠ -1#64 by decide)
  · intro h endptr
    rw [hvalue, if_neg h]

/-- `-99999999999999999999`: 1 instead of `ULONG_MAX`. -/
theorem strtoul_negative_overflow : ¬ StrtoulReturns 10 (45 :: List.replicate 20 57) := by
  intro h
  exact absurd (congrArg Prod.fst (h true)) (by decide +kernel)

theorem strtoul_iff_small : StrtoulReturns 10 [32, 45, 52, 50]
    ↔ ¬ (isNegative [32, 45, 52, 50] = true ∧ 2 ^ 64 ≤ magnitude 10 [32, 45, 52, 50]) :=
  strtoul_iff (by decide) (by decide) _

/-! ## `strtol` -/

/-- The number with its sign. -/
def signedNumber (base : Nat) (s : List UInt8) : Int :=
  if isNegative s then -(magnitude base s : Int) else magnitude base s

/-- `LONG_MIN`. -/
def longMin : Int := -2 ^ 63
/-- `LONG_MAX`. -/
def longMax : Int := 2 ^ 63 - 1

/-- **`strtol`** clamps the number to the range of `long`. -/
theorem strtol_clamps (hb : 2 ≤ base) (hb' : base ≤ 10) (s : List UInt8) (endptr : Bool) :
    (strtol s endptr base).1.toInt = max longMin (min (signedNumber base s) longMax)
      ∧ (strtol s endptr base).2 = if endptr then some (numberEnd base s) else none := by
  rw [strtol, convert_eq hb hb']
  simp only [range_iff]
  refine ⟨?_, trivial⟩
  rw [signedNumber, longMin, longMax]
  -- out of range for 64 bits, and clamped by its sign
  by_cases hlarge : 2 ^ 64 ≤ magnitude base s
  · rw [if_pos (Or.inl hlarge)]
    cases isNegative s with
    | true =>
        have hclamp : (-((1#64 <<< 63) - 0)).toInt = -2 ^ 63 := by decide
        simp only [if_true]
        rw [hclamp]
        omega
    | false =>
        have hclamp : ((1#64 <<< 63) - 1).toInt = 2 ^ 63 - 1 := by decide
        simp only [Bool.false_eq_true, if_false]
        rw [hclamp]
        omega
  · -- otherwise clamped by its value
    have hx : (BitVec.ofNat 64 (magnitude base s)).toNat = magnitude base s :=
      Nat.mod_eq_of_lt (Nat.lt_of_not_le hlarge)
    rw [converted_value hlarge]
    generalize BitVec.ofNat 64 (magnitude base s) = x at hx
    cases isNegative s with
    | true =>
        have hbound : (1#64 <<< 63) - 0 < x ↔ 2 ^ 63 < magnitude base s := by
          rw [BitVec.lt_def, hx, show ((1#64 <<< 63) - 0).toNat = 2 ^ 63 by decide]
        simp only [if_true, hbound]
        split_ifs with h
        · have hclamp : (-((1#64 <<< 63) - 0)).toInt = -2 ^ 63 := by decide
          rw [hclamp]
          omega
        · rw [BitVec.toInt_eq_toNat_cond, BitVec.toNat_neg, hx]
          split_ifs <;> omega
    | false =>
        have hbound : (1#64 <<< 63) - 1 < x ↔ 2 ^ 63 - 1 < magnitude base s := by
          rw [BitVec.lt_def, hx, show ((1#64 <<< 63) - 1).toNat = 2 ^ 63 - 1 by decide]
        simp only [Bool.false_eq_true, if_false, hbound]
        split_ifs with h
        · have hclamp : ((1#64 <<< 63) - 1).toInt = 2 ^ 63 - 1 := by decide
          rw [hclamp]
          omega
        · rw [BitVec.toInt_eq_toNat_cond, hx]
          split_ifs <;> omega

theorem strtol_clamps_small :
    (strtol [32, 45, 52, 50] true 10).1.toInt
        = max longMin (min (signedNumber 10 [32, 45, 52, 50]) longMax)
      ∧ (strtol [32, 45, 52, 50] true 10).2
        = if true then some (numberEnd 10 [32, 45, 52, 50]) else none :=
  strtol_clamps (by decide) (by decide) _ _

/-! ## A leading zero

    With base 0 or 16 the zero may begin a base prefix, which `strtol_fix_base`
    skips before it is known whether a digit follows. -/

/-- The base that the first two bytes stand for. -/
def prefixBase (base : Nat) (t : List UInt8) : Option Nat :=
  if t.getD 0 0 ≠ '0'.toUInt8 then none
  else if t.getD 1 0 = 'x'.toUInt8 ∨ t.getD 1 0 = 'X'.toUInt8 then some 16
  else if base = 0 ∧ (t.getD 1 0 = 'o'.toUInt8 ∨ t.getD 1 0 = 'O'.toUInt8) then some 8
  else if base = 0 ∧ (t.getD 1 0 = 'b'.toUInt8 ∨ t.getD 1 0 = 'B'.toUInt8) then some 2
  else none

/-- A digit of the base comes first. -/
def StartsWithDigit (base : Nat) (t : List UInt8) : Prop :=
  ∃ c ∈ t.head?, (digitValue base c).isSome = true

/-- A base prefix that no digit of its base follows. -/
def BarePrefix (base : Nat) (s : List UInt8) : Prop :=
  ∃ b, prefixBase base (unsignedPart s) = some b ∧ ¬ StartsWithDigit b ((unsignedPart s).drop 2)

/-- Where the number starts, behind whitespace and sign. -/
def numberStart (s : List UInt8) : Nat := s.length - (unsignedPart s).length

/-- A conversion gets past the leading zero, and gets only the zero from a prefix
    that no digit follows. -/
structure KeepsZero (base : Nat) (s : List UInt8) (f : Bool → BitVec 64 × Option Nat) : Prop where
  past : ∃ p, (f true).2 = some p ∧ numberStart s < p
  bare : BarePrefix base s → ∀ endptr,
    f endptr = (0, if endptr then some (numberStart s + 1) else none)

/-- `strtol_fix_base` skips a prefix that the zero begins. -/
theorem strtolFixBase_eq (hbase : base = 0 ∨ base = 16) {t : List UInt8}
    (hzero : t.getD 0 0 = '0'.toUInt8) : strtolFixBase t base
      = (prefixBase base t).elim (t, if base = 0 then 8 else 16) fun b => (t.drop 2, b) := by
  rw [strtolFixBase, prefixBase, if_neg (not_not.mpr hzero)]
  rcases hbase with rfl | rfl
  · rw [if_pos rfl, if_pos hzero]
    by_cases hx : t.getD 1 0 = 'x'.toUInt8 ∨ t.getD 1 0 = 'X'.toUInt8
    · rw [if_pos hx, if_pos hx]
      rfl
    rw [if_neg hx, if_neg hx]
    by_cases ho : t.getD 1 0 = 'o'.toUInt8 ∨ t.getD 1 0 = 'O'.toUInt8
    · rw [if_pos ho, if_pos ⟨rfl, ho⟩]
      rfl
    rw [if_neg ho, if_neg (mt And.right ho)]
    by_cases hb : t.getD 1 0 = 'b'.toUInt8 ∨ t.getD 1 0 = 'B'.toUInt8
    · rw [if_pos hb, if_pos ⟨rfl, hb⟩]
      rfl
    · rw [if_neg hb, if_neg (mt And.right hb)]
      rfl
  · have hne : ¬ (16 = 0) := by decide
    rw [if_neg hne]
    by_cases hx : t.getD 1 0 = 'x'.toUInt8 ∨ t.getD 1 0 = 'X'.toUInt8
    · rw [if_pos ⟨rfl, hzero, hx⟩, if_pos hx]
      rfl
    · rw [if_neg (mt (fun h => h.2.2) hx), if_neg hx, if_neg (mt And.left hne),
        if_neg (mt And.left hne)]
      rfl

/-- A prefix is skipped. -/
theorem strtolFixBase_skips (hbase : base = 0 ∨ base = 16) {t : List UInt8} {b : Nat}
    (h : prefixBase base t = some b) : strtolFixBase t base = (t.drop 2, b) := by
  have hzero : t.getD 0 0 = '0'.toUInt8 := by
    by_contra hne
    rw [prefixBase, if_pos hne] at h
    cases h
  rw [strtolFixBase_eq hbase hzero, h]
  rfl

/-- Without a prefix the zero is a digit. -/
theorem strtolFixBase_zero (hbase : base = 0 ∨ base = 16) {t : List UInt8}
    (h : prefixBase base t = none) (hzero : t.getD 0 0 = '0'.toUInt8) :
    strtolFixBase t base = (t, if base = 0 then 8 else 16) := by
  rw [strtolFixBase_eq hbase hzero, h]
  rfl

/-- A prefix names a base from 2 to 36. -/
theorem prefixBase_range {t : List UInt8} {b : Nat} (h : prefixBase base t = some b) :
    2 ≤ b ∧ b ≤ 36 := by
  rw [prefixBase] at h
  split_ifs at h <;> obtain rfl := Option.some.inj h <;> omega

/-- A prefix is two bytes. -/
theorem prefixBase_length {t : List UInt8} {b : Nat} (h : prefixBase base t = some b) :
    2 ≤ t.length := by
  by_contra hshort
  have hnul : t.getD 1 0 = 0 := by
    rw [List.getD_eq_getElem?_getD, List.getElem?_eq_none (by omega)]
    rfl
  rw [prefixBase, hnul] at h
  split_ifs at h with h0 hx ho hb
  · exact absurd hx (by decide)
  · exact absurd ho.2 (by decide)
  · exact absurd hb.2 (by decide)

/-- Every digit is taken for one. -/
theorem digitOf_of_digitValue (hb' : base ≤ 36) {c : UInt8}
    (h : (digitValue base c).isSome = true) : (digitOf base c).isSome = true := by
  by_cases hmis : Misread base c
  · rw [digitOf_misread hmis]
    rfl
  · rwa [digitOf_eq hb' hmis]

/-- A digit that comes first is read. -/
theorem digitsOf_pos (hb' : base ≤ 36) {t : List UInt8} (h : StartsWithDigit base t) :
    0 < (digitsOf (digitOf base) (t ++ [0])).length := by
  obtain ⟨c, hc, hdigit⟩ := h
  match t, hc with
  | c :: rest, rfl =>
      obtain ⟨digit, hd⟩ := Option.isSome_iff_exists.mp (digitOf_of_digitValue hb' hdigit)
      rw [List.cons_append, digitsOf, hd]
      exact Nat.succ_pos _

/-- Where a conversion ends. -/
theorem convert_end {u : List UInt8} {b : Nat} (hfix : strtolFixBase (unsignedPart s) base = (u, b))
    (hb : 2 ≤ b ∧ b ≤ 36) :
    (convert s base).2.2.2 = if digitsOf (digitOf b) (u ++ [0]) = [] then 0
      else s.length - u.length + (digitsOf (digitOf b) (u ++ [0])).length := by
  rw [convert_unsigned s base hfix, fromChars_eq hb.1 hb.2]
  simp only [outcome_ptr, outcome_inval_iff]

theorem unsignedPart_length_le (s : List UInt8) : (unsignedPart s).length ≤ s.length := by
  have hspace : (s.dropWhile isspace).length ≤ s.length := (List.dropWhile_sublist _).length_le
  rw [unsignedPart]
  cases hs : s.dropWhile isspace with
  | nil => exact Nat.zero_le _
  | cons c rest =>
      rw [hs, List.length_cons] at hspace
      dsimp only
      split_ifs
      · omega
      · rwa [List.length_cons]

/-- A conversion goes past the zero unless it has skipped a bare prefix. -/
theorem convert_past (hbase : base = 0 ∨ base = 16) (hzero : (unsignedPart s).head? = some 48)
    (h : ¬ BarePrefix base s) : numberStart s < (convert s base).2.2.2 := by
  have hle := unsignedPart_length_le s
  cases hprefix : prefixBase base (unsignedPart s) with
  | some b =>
      have hdigit : StartsWithDigit b ((unsignedPart s).drop 2) := by
        by_contra hno
        exact h ⟨b, hprefix, hno⟩
      have hpos := digitsOf_pos (prefixBase_range hprefix).2 hdigit
      have hlen := prefixBase_length hprefix
      rw [convert_end (strtolFixBase_skips hbase hprefix) (prefixBase_range hprefix),
        if_neg (List.length_pos_iff.mp hpos), numberStart, List.length_drop]
      omega
  | none =>
      have hhead : (unsignedPart s).getD 0 0 = '0'.toUInt8 := by
        match unsignedPart s, hzero with
        | c :: rest, hc => exact Option.some.inj hc
      have hrange : 2 ≤ (if base = 0 then 8 else 16) ∧ (if base = 0 then 8 else 16) ≤ 36 := by
        split_ifs <;> omega
      have hdigit : StartsWithDigit (if base = 0 then 8 else 16) (unsignedPart s) := by
        refine ⟨48, hzero, ?_⟩
        rcases hbase with rfl | rfl <;> decide
      have hpos := digitsOf_pos hrange.2 hdigit
      rw [convert_end (strtolFixBase_zero hbase hprefix hhead) hrange,
        if_neg (List.length_pos_iff.mp hpos), numberStart]
      omega

/-- After a bare prefix a conversion does not end behind the zero. -/
theorem convert_bare (hbase : base = 0 ∨ base = 16) (h : BarePrefix base s) :
    (convert s base).2.2.2 ≠ numberStart s + 1 := by
  obtain ⟨b, hprefix, -⟩ := h
  have hle := unsignedPart_length_le s
  have hlen := prefixBase_length hprefix
  rw [convert_end (strtolFixBase_skips hbase hprefix) (prefixBase_range hprefix), numberStart,
    List.length_drop]
  split_ifs <;> omega

/-- **`strtoul`** and **`strtol`** keep the leading zero exactly if no bare base
    prefix begins with it. -/
theorem leadingZero_iff (hbase : base = 0 ∨ base = 16)
    (hzero : (unsignedPart s).head? = some 48) :
    (KeepsZero base s (fun endptr => strtoul s endptr base)
        ∧ KeepsZero base s (fun endptr => strtol s endptr base))
      ↔ ¬ BarePrefix base s := by
  constructor
  · rintro ⟨hkeeps, -⟩ hbare
    exact convert_bare hbase hbare (Option.some.inj (congrArg Prod.snd (hkeeps.bare hbare true)))
  · intro hbare
    have hpast := convert_past hbase hzero hbare
    exact ⟨⟨⟨_, rfl, hpast⟩, fun h => absurd h hbare⟩, ⟨⟨_, rfl, hpast⟩, fun h => absurd h hbare⟩⟩

theorem leadingZero_iff_small :
    (KeepsZero 0 [32, 45, 48, 120, 52] (fun endptr => strtoul [32, 45, 48, 120, 52] endptr 0)
        ∧ KeepsZero 0 [32, 45, 48, 120, 52] (fun endptr => strtol [32, 45, 48, 120, 52] endptr 0))
      ↔ ¬ BarePrefix 0 [32, 45, 48, 120, 52] :=
  leadingZero_iff (Or.inl rfl) (by decide)

/-- `0xg`: `*endptr` is the start of the string. -/
theorem bare_prefix_dropped :
    ¬ ∀ (s : List UInt8) (base : Nat), base = 0 ∨ base = 16 → (unsignedPart s).head? = some 48 →
      KeepsZero base s (fun endptr => strtoul s endptr base)
        ∧ KeepsZero base s (fun endptr => strtol s endptr base) := by
  intro h
  obtain ⟨p, hp, hpast⟩ := (h [48, 120, 103] 16 (Or.inr rfl) (by decide)).1.past
  have hend : (strtoul [48, 120, 103] true 16).2 = some 0 := by decide
  rw [hend] at hp
  obtain rfl := Option.some.inj hp
  exact absurd hpast (by decide)

end Strtol
