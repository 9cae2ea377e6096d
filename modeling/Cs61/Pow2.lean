import Cs61.Rounding

/-! # `msb`, `round_down_pow2` and `round_up_pow2`

    All three come from a builtin that counts leading zeros and has no result at
    zero.  The roundings shift a one, and a shift by the width of its operand is
    undefined: `round_up_pow2` gets there above half of the range, if its type is no
    smaller than `int` (`roundUpPow2_top`).  Up to there they round to the powers of
    two (`rounds`). -/

namespace Pow2

open Rounding

/-! ## The functions -/

/-- What the language does not define. -/
inductive Undefined where
  | clz
  | shift (bits : Nat)
deriving DecidableEq

/-- The types with an overload of `msb`. -/
inductive Overload where
  | int
  | unsigned
  | long
  | unsignedLong
  | longLong
  | unsignedLongLong

/-- `sizeof(x) * 8`. -/
def Overload.width : Overload → Nat
  | .int => 32
  | .unsigned => 32
  | .long => 64
  | .unsignedLong => 64
  | .longLong => 64
  | .unsignedLongLong => 64

/-- `__builtin_clz`, `__builtin_clzl` or `__builtin_clzll`, by the width. -/
def builtinClz {w : Nat} (x : BitVec w) : Except Undefined Nat :=
  if x = 0 then .error .clz else .ok x.clz.toNat

/-- `msb(x)`. -/
def msb (t : Overload) (x : BitVec t.width) : Except Undefined Nat :=
  if x ≠ 0 then (builtinClz x).map (t.width - ·) else .ok 0

/-- The unsigned types; two of them are smaller than `int`. -/
inductive Unsigned where
  | unsignedChar
  | unsignedShort
  | unsigned
  | unsignedLong
  | unsignedLongLong

/-- How many bits the type has. -/
def Unsigned.width : Unsigned → Nat
  | .unsignedChar => 8
  | .unsignedShort => 16
  | .unsigned => 32
  | .unsignedLong => 64
  | .unsignedLongLong => 64

/-- The type of an operand in an expression. -/
def Unsigned.promoted : Unsigned → Overload
  | .unsignedChar => .int
  | .unsignedShort => .int
  | .unsigned => .unsigned
  | .unsignedLong => .unsignedLong
  | .unsignedLongLong => .unsignedLongLong

namespace Unsigned

variable (t : Unsigned)

/-- The argument after the integer promotions. -/
def promote (x : BitVec t.width) : BitVec t.promoted.width := x.setWidth t.promoted.width

/-- What a `return` makes of the value. -/
def convert (x : BitVec t.promoted.width) : BitVec t.width := x.setWidth t.width

/-- `msb(x)` for an `x` of this type. -/
def msb (x : BitVec t.width) : Except Undefined Nat := Pow2.msb t.promoted (t.promote x)

/-- `T(1) << bits`. -/
def shiftOne (bits : Nat) : Except Undefined (BitVec t.promoted.width) :=
  if bits < t.promoted.width then .ok (t.promote 1 <<< bits) else .error (.shift bits)

/-- `round_down_pow2(x)`. -/
def roundDownPow2 (x : BitVec t.width) : Except Undefined (BitVec t.width) :=
  if x ≠ 0 then do
    let bits ← Pow2.msb t.promoted (t.promote x)
    let power ← t.shiftOne (bits - 1)
    .ok (t.convert power)
  else .ok 0

/-- `round_up_pow2(x)`. -/
def roundUpPow2 (x : BitVec t.width) : Except Undefined (BitVec t.width) :=
  if x ≠ 0 then do
    let bits ← Pow2.msb t.promoted (t.promote x - 1)
    let power ← t.shiftOne bits
    .ok (t.convert power)
  else .ok 0

end Unsigned

/-! ## Significant bits -/

/-- The builtin counts what is missing from the width. -/
theorem sub_clz {w : Nat} (hw : 0 < w) {x : BitVec w} (hx : x ≠ 0) :
    w - x.clz.toNat = x.toNat.size := by
  have hlt : x.toNat < 2 ^ (w - x.clz.toNat) := BitVec.toNat_lt_two_pow_sub_clz
  have hle : 2 ^ (w - 1 - x.clz.toNat) ≤ x.toNat :=
    BitVec.two_pow_sub_clz_le_toNat_of_ne_zero hw hx
  have hupper : x.toNat.size ≤ w - x.clz.toNat := Nat.size_le.mpr hlt
  have hlower : w - 1 - x.clz.toNat < x.toNat.size := Nat.lt_size.mpr hle
  omega

theorem Overload.width_pos (t : Overload) : 0 < t.width := by
  cases t <;> decide

/-- `msb` is the number of digits in base 2. -/
theorem msb_eq (t : Overload) (x : BitVec t.width) : msb t x = .ok x.toNat.size := by
  by_cases hx : x = 0
  · subst hx
    rfl
  · rw [msb, if_pos hx, builtinClz, if_neg hx, ← sub_clz t.width_pos hx]
    rfl

namespace Unsigned

variable {t : Unsigned} {x : BitVec t.width} {bits : Nat}

theorem width_pos (t : Unsigned) : 0 < t.width := by
  cases t <;> decide

theorem width_le (t : Unsigned) : t.width ≤ t.promoted.width := by
  cases t <;> decide

/-- A promotion keeps the value. -/
theorem toNat_promote (x : BitVec t.width) : (t.promote x).toNat = x.toNat :=
  BitVec.toNat_setWidth_of_le t.width_le

theorem msb_eq (x : BitVec t.width) : t.msb x = .ok x.toNat.size := by
  rw [msb, Pow2.msb_eq, toNat_promote]

/-- A one that stays in the type. -/
theorem shiftOne_eq (h : bits < t.promoted.width) :
    ∃ power, t.shiftOne bits = .ok power ∧ power.toNat = 2 ^ bits := by
  refine ⟨_, if_pos h, ?_⟩
  have hone : (t.promote 1).toNat = 1 := by
    rw [toNat_promote]
    cases t <;> rfl
  rw [BitVec.toNat_shiftLeft, hone, Nat.one_shiftLeft]
  exact Nat.mod_eq_of_lt (Nat.pow_lt_pow_right (by decide) h)

theorem toNat_ne_zero (hx : x ≠ 0) : x.toNat ≠ 0 :=
  fun hzero => hx (BitVec.eq_of_toNat_eq hzero)

/-- A power of two that is returned. -/
theorem toNat_convert {power : BitVec t.promoted.width} (hpower : power.toNat = 2 ^ bits)
    (h : bits < t.width) : (t.convert power).toNat = 2 ^ bits := by
  rw [convert, BitVec.toNat_setWidth, hpower]
  exact Nat.mod_eq_of_lt (Nat.pow_lt_pow_right (by decide) h)

/-! ## The roundings -/

/-- Zero is rounded down to zero. -/
theorem roundDownPow2_zero (t : Unsigned) : t.roundDownPow2 0 = .ok 0 :=
  if_neg (not_not.mpr rfl)

/-- Zero is rounded up to zero. -/
theorem roundUpPow2_zero (t : Unsigned) : t.roundUpPow2 0 = .ok 0 :=
  if_neg (not_not.mpr rfl)

/-- The highest bit is kept. -/
theorem roundDownPow2_eq (hx : x ≠ 0) :
    ∃ y, t.roundDownPow2 x = .ok y ∧ y.toNat = 2 ^ (x.toNat.size - 1) := by
  have hsize : x.toNat.size ≤ t.width := Nat.size_le.mpr x.isLt
  have hbits : x.toNat.size - 1 < t.width := by
    have hpos := t.width_pos
    omega
  obtain ⟨power, hshift, hpower⟩ := t.shiftOne_eq (Nat.lt_of_lt_of_le hbits t.width_le)
  refine ⟨t.convert power, ?_, toNat_convert hpower hbits⟩
  rw [roundDownPow2, if_pos hx, Pow2.msb_eq, toNat_promote]
  show (t.shiftOne _ >>= _) = _
  rw [hshift]
  rfl

/-- The number before, in the promoted type. -/
theorem toNat_promote_sub_one (hx : x ≠ 0) : (t.promote x - 1).toNat = x.toNat - 1 := by
  have hpos := Nat.pos_of_ne_zero (toNat_ne_zero hx)
  have hone : (1 : BitVec t.promoted.width).toNat = 1 := by
    cases t <;> rfl
  have hle : (1 : BitVec t.promoted.width) ≤ t.promote x := by
    rw [BitVec.le_def, hone, toNat_promote]
    exact hpos
  rw [BitVec.toNat_sub_of_le hle, hone, toNat_promote]

/-- Its bits are the shift. -/
theorem roundUpPow2_shift (hx : x ≠ 0) :
    t.roundUpPow2 x = (t.shiftOne (x.toNat - 1).size).map t.convert := by
  rw [roundUpPow2, if_pos hx, Pow2.msb_eq, toNat_promote_sub_one hx]
  show (t.shiftOne _ >>= _) = _
  cases t.shiftOne (x.toNat - 1).size <;> rfl

/-- The value of `round_up_pow2`. -/
theorem roundUpPow2_eq (hx : x ≠ 0) (h : x.toNat ≤ 2 ^ (t.width - 1)) :
    ∃ y, t.roundUpPow2 x = .ok y ∧ y.toNat = 2 ^ (x.toNat - 1).size := by
  have hpos := Nat.pos_of_ne_zero (toNat_ne_zero hx)
  have hsize : (x.toNat - 1).size ≤ t.width - 1 := Nat.size_le.mpr (by omega)
  have hbits : (x.toNat - 1).size < t.width := by
    have hpos := t.width_pos
    omega
  obtain ⟨power, hshift, hpower⟩ := t.shiftOne_eq (Nat.lt_of_lt_of_le hbits t.width_le)
  refine ⟨t.convert power, ?_, toNat_convert hpower hbits⟩
  rw [roundUpPow2_shift hx, hshift]
  rfl

/-- **THE TOP** of the range: the shift is by the whole width.  It is undefined,
    unless the type is smaller than `int`; then the one is lost. -/
theorem roundUpPow2_top (h : 2 ^ (t.width - 1) < x.toNat) :
    t.roundUpPow2 x
      = if t.width < t.promoted.width then .ok 0 else .error (.shift t.width) := by
  have hx : x ≠ 0 := by
    rintro rfl
    exact Nat.not_lt_zero _ h
  have hsize : (x.toNat - 1).size = t.width := by
    have hupper : (x.toNat - 1).size ≤ t.width :=
      Nat.size_le.mpr (Nat.lt_of_le_of_lt (Nat.sub_le _ _) x.isLt)
    have hlower : t.width - 1 < (x.toNat - 1).size :=
      Nat.lt_size.mpr (Nat.le_sub_one_of_lt h)
    omega
  rw [roundUpPow2_shift hx, hsize]
  by_cases hwidth : t.width < t.promoted.width
  · obtain ⟨power, hshift, hpower⟩ := t.shiftOne_eq hwidth
    rw [if_pos hwidth, hshift]
    refine congrArg Except.ok (BitVec.eq_of_toNat_eq ?_)
    rw [convert, BitVec.toNat_setWidth, hpower, Nat.mod_self]
    rfl
  · rw [if_neg hwidth, shiftOne, if_neg hwidth]
    rfl

/-! ## Rounding to the powers of two -/

/-- `round_down_pow2` rounds down to the powers of two. -/
theorem roundDownPow2_down (x : BitVec t.width) :
    ∃ y, t.roundDownPow2 x = .ok y ∧ Down pow2 x.toNat y.toNat := by
  by_cases hx : x = 0
  · subst hx
    exact ⟨0, t.roundDownPow2_zero, down_self (Or.inl rfl)⟩
  · obtain ⟨y, hy, hpower⟩ := roundDownPow2_eq hx
    refine ⟨y, hy, ?_⟩
    rw [hpower]
    exact down_pow2 (toNat_ne_zero hx)

/-- `round_up_pow2` rounds up to the powers of two. -/
theorem roundUpPow2_up (h : x.toNat ≤ 2 ^ (t.width - 1)) :
    ∃ y, t.roundUpPow2 x = .ok y ∧ Up pow2 x.toNat y.toNat := by
  by_cases hx : x = 0
  · subst hx
    exact ⟨0, t.roundUpPow2_zero, up_self (Or.inl rfl)⟩
  · obtain ⟨y, hy, hpower⟩ := roundUpPow2_eq hx h
    refine ⟨y, hy, ?_⟩
    rw [hpower]
    exact up_pow2 (toNat_ne_zero hx)

/-- A number that is not zero is not rounded to zero. -/
theorem roundDownPow2_isGreatest {y : BitVec t.width} (hx : x ≠ 0)
    (h : t.roundDownPow2 x = .ok y) :
    IsGreatest {p | p.isPowerOfTwo ∧ p ≤ x.toNat} y.toNat := by
  obtain ⟨z, hz, hpower⟩ := roundDownPow2_eq hx
  obtain rfl := Except.ok.inj (hz.symm.trans h)
  rw [hpower]
  exact (down_pow2 (toNat_ne_zero hx)).isGreatest (Nat.ne_of_gt (Nat.two_pow_pos _))

/-- The result is the least power of two that is not below the argument. -/
theorem roundUpPow2_isLeast {y : BitVec t.width} (hx : x ≠ 0)
    (hle : x.toNat ≤ 2 ^ (t.width - 1)) (h : t.roundUpPow2 x = .ok y) :
    IsLeast {p | p.isPowerOfTwo ∧ x.toNat ≤ p} y.toNat := by
  obtain ⟨z, hz, hpower⟩ := roundUpPow2_eq hx hle
  obtain rfl := Except.ok.inj (hz.symm.trans h)
  rw [hpower]
  exact (up_pow2 (toNat_ne_zero hx)).isLeast (Nat.ne_of_gt (Nat.two_pow_pos _))

/-- Rounding down is monotone. -/
theorem roundDownPow2_mono {x' y y' : BitVec t.width} (hx : x ≤ x')
    (h : t.roundDownPow2 x = .ok y) (h' : t.roundDownPow2 x' = .ok y') : y ≤ y' := by
  obtain ⟨z, hz, hdown⟩ := roundDownPow2_down x
  obtain ⟨z', hz', hdown'⟩ := roundDownPow2_down x'
  obtain rfl := Except.ok.inj (hz.symm.trans h)
  obtain rfl := Except.ok.inj (hz'.symm.trans h')
  exact BitVec.le_def.mpr (hdown.mono hdown' (BitVec.le_def.mp hx))

/-- Rounding up is monotone, as long as the result can be represented. -/
theorem roundUpPow2_mono {x' y y' : BitVec t.width} (hx : x ≤ x')
    (hx' : x'.toNat ≤ 2 ^ (t.width - 1)) (h : t.roundUpPow2 x = .ok y)
    (h' : t.roundUpPow2 x' = .ok y') : y ≤ y' := by
  have hle := BitVec.le_def.mp hx
  obtain ⟨z, hz, hup⟩ := roundUpPow2_up (Nat.le_trans hle hx')
  obtain ⟨z', hz', hup'⟩ := roundUpPow2_up hx'
  obtain rfl := Except.ok.inj (hz.symm.trans h)
  obtain rfl := Except.ok.inj (hz'.symm.trans h')
  exact BitVec.le_def.mpr (hup.mono hup' hle)

/-- Where both have a result, it is the same only for what they keep. -/
theorem roundings_eq_iff {y y' : BitVec t.width} (h : t.roundDownPow2 x = .ok y)
    (h' : t.roundUpPow2 x = .ok y') : y = y' ↔ x.toNat ∈ pow2 := by
  obtain ⟨z, hz, hdown⟩ := roundDownPow2_down x
  obtain rfl := Except.ok.inj (hz.symm.trans h)
  by_cases hx : x.toNat ≤ 2 ^ (t.width - 1)
  · obtain ⟨z', hz', hup⟩ := roundUpPow2_up hx
    obtain rfl := Except.ok.inj (hz'.symm.trans h')
    rw [← BitVec.toNat_inj]
    exact eq_iff_mem hdown hup
  · have htop := Nat.lt_of_not_le hx
    have hnot : x.toNat ∉ pow2 := by
      refine notMem_pow2 htop ?_
      rw [Nat.sub_add_cancel t.width_pos]
      exact x.isLt
    refine iff_of_false ?_ hnot
    rintro rfl
    rw [roundUpPow2_top htop] at h'
    -- a result above half of the range is a one that was lost
    split_ifs at h'
    obtain rfl := Except.ok.inj h'
    have hone : 1 ≤ (0 : BitVec t.width).toNat := by
      refine hdown.2 ⟨Or.inr ⟨0, rfl⟩, ?_⟩
      exact Nat.lt_of_le_of_lt (Nat.zero_le _) htop
    exact Nat.not_succ_le_zero 0 hone

end Unsigned

/-- **`msb`** counts significant bits and **the roundings** go to the powers of two,
    for every type: `round_up_pow2` up to half of the range. -/
theorem rounds (t : Unsigned) :
    (∀ x : BitVec t.width, ∃ n, t.msb x = .ok n ∧ IsLeast {k | x.toNat < 2 ^ k} n)
      ∧ (∀ x : BitVec t.width, ∃ y, t.roundDownPow2 x = .ok y ∧ (x = 0 → y = 0)
        ∧ (x ≠ 0 → IsGreatest {p | p.isPowerOfTwo ∧ p ≤ x.toNat} y.toNat))
      ∧ (∀ x : BitVec t.width, x.toNat ≤ 2 ^ (t.width - 1) →
        ∃ y, t.roundUpPow2 x = .ok y ∧ (x = 0 → y = 0)
          ∧ (x ≠ 0 → IsLeast {p | p.isPowerOfTwo ∧ x.toNat ≤ p} y.toNat))
      ∧ (∀ x x' : BitVec t.width, x ≤ x' →
        (∀ n n', t.msb x = .ok n → t.msb x' = .ok n' → n ≤ n')
          ∧ (∀ y y', t.roundDownPow2 x = .ok y → t.roundDownPow2 x' = .ok y' → y ≤ y')
          ∧ (x'.toNat ≤ 2 ^ (t.width - 1) →
            ∀ y y', t.roundUpPow2 x = .ok y → t.roundUpPow2 x' = .ok y' → y ≤ y'))
      ∧ ∀ x y y' : BitVec t.width, t.roundDownPow2 x = .ok y → t.roundUpPow2 x = .ok y' →
        (y = y' ↔ x = 0 ∨ x.toNat.isPowerOfTwo) := by
  refine ⟨?_, ?_, ?_, ?_, ?_⟩
  · intro x
    exact ⟨_, Unsigned.msb_eq x, isLeast_size x.toNat⟩
  · intro x
    obtain ⟨y, hy, -⟩ := Unsigned.roundDownPow2_down x
    refine ⟨y, hy, ?_, fun hx => Unsigned.roundDownPow2_isGreatest hx hy⟩
    rintro rfl
    exact (Except.ok.inj (t.roundDownPow2_zero.symm.trans hy)).symm
  · intro x h
    obtain ⟨y, hy, -⟩ := Unsigned.roundUpPow2_up h
    refine ⟨y, hy, ?_, fun hx => Unsigned.roundUpPow2_isLeast hx h hy⟩
    rintro rfl
    exact (Except.ok.inj (t.roundUpPow2_zero.symm.trans hy)).symm
  · intro x x' hx
    refine ⟨?_, ?_, ?_⟩
    · intro n n' hn hn'
      rw [Unsigned.msb_eq] at hn hn'
      rw [← Except.ok.inj hn, ← Except.ok.inj hn']
      exact Nat.size_le_size (BitVec.le_def.mp hx)
    · intro y y' h h'
      exact Unsigned.roundDownPow2_mono hx h h'
    · intro hx' y y' h h'
      exact Unsigned.roundUpPow2_mono hx hx' h h'
  · intro x y y' h h'
    rw [Unsigned.roundings_eq_iff h h', ← BitVec.toNat_inj]
    exact Iff.rfl

/-- The largest of the static tests. -/
example : Unsigned.roundUpPow2 .unsigned 0x1FFFF = .ok 0x20000 := by decide

end Pow2
