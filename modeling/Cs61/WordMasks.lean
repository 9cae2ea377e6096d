import Mathlib.Data.Nat.Bitwise
import Mathlib.Tactic.Ring

/-! # Word masks — low masks, fields and flags of machine words

    Address arithmetic on machine words is written with masks and shifts, and
    reasoned about with quotients and remainders.  `lowMask w n` is the word of
    `n` low ones; the lemmas here turn each masking idiom into division by
    `2 ^ n`, so that what is left is linear arithmetic. -/

namespace WordMasks

variable {w : Nat}

/-- The word whose `n` low bits are set. -/
def lowMask (w n : Nat) : BitVec w := ~~~(~~~(0#w) <<< n)

/-- The bits of the mask. -/
theorem getLsbD_lowMask (n i : Nat) :
    (lowMask w n).getLsbD i = (decide (i < w) && decide (i < n)) := by
  rw [lowMask]
  simp only [BitVec.getLsbD_not, BitVec.getLsbD_shiftLeft, BitVec.getLsbD_zero]
  by_cases hi : i < w
  · by_cases hn : i < n
    · simp [hi, hn]
    · have : i - n < w := by omega
      simp [hi, hn, this]
  · simp [hi]

/-- Its value. -/
theorem toNat_lowMask {n : Nat} (h : n ≤ w) : (lowMask w n).toNat = 2 ^ n - 1 := by
  refine Nat.eq_of_testBit_eq ?_
  intro i
  rw [BitVec.testBit_toNat, getLsbD_lowMask, Nat.testBit_two_pow_sub_one]
  by_cases hi : i < n
  · have : i < w := by omega
    simp [hi, this]
  · simp [hi]

/-- Its complement, as a shift. -/
theorem not_lowMask (n : Nat) : ~~~(lowMask w n) = ~~~(0#w) <<< n := by
  rw [lowMask, BitVec.not_not]

/-! ## Masks as quotients and remainders -/

/-- The mask keeps the remainder. -/
theorem toNat_and_lowMask {n : Nat} (v : BitVec w) (h : n ≤ w) :
    (v &&& lowMask w n).toNat = v.toNat % 2 ^ n := by
  rw [BitVec.toNat_and, toNat_lowMask h, Nat.and_two_pow_sub_one_eq_mod]

/-- The complement rounds down. -/
theorem toNat_and_not_lowMask {n : Nat} (v : BitVec w) :
    (v &&& ~~~(lowMask w n)).toNat = 2 ^ n * (v.toNat / 2 ^ n) := by
  refine Nat.eq_of_testBit_eq ?_
  intro i
  rw [BitVec.testBit_toNat, Nat.testBit_two_pow_mul, Nat.testBit_div_two_pow]
  simp only [BitVec.getLsbD_and, BitVec.getLsbD_not, getLsbD_lowMask]
  by_cases hn : n ≤ i
  · have hlt : ¬ i < n := by omega
    have hadd : i - n + n = i := by omega
    rw [hadd, BitVec.testBit_toNat]
    by_cases hi : i < w
    · simp [hi, hn, hlt]
    · have := BitVec.getLsbD_of_ge v i (by omega)
      simp [this]
  · have hlt : i < n := by omega
    simp [hn, hlt]

/-- Setting the low bits goes to the end of the range. -/
theorem toNat_or_lowMask {n : Nat} (v : BitVec w) (h : n ≤ w) :
    (v ||| lowMask w n).toNat = 2 ^ n * (v.toNat / 2 ^ n) + (2 ^ n - 1) := by
  have hpos : 0 < 2 ^ n := Nat.two_pow_pos n
  refine Nat.eq_of_testBit_eq ?_
  intro i
  rw [BitVec.testBit_toNat, Nat.testBit_two_pow_mul_add _ (by omega),
    BitVec.getLsbD_or, getLsbD_lowMask]
  by_cases hn : i < n
  · have hi : i < w := by omega
    simp [hn, hi]
  · rw [if_neg hn, Nat.testBit_div_two_pow]
    have hadd : i - n + n = i := by omega
    rw [hadd, BitVec.testBit_toNat]
    simp [hn]

/-- One past the last word with the same high part. -/
theorem toNat_or_lowMask_succ {n : Nat} (v : BitVec w) (h : n ≤ w) :
    ((v ||| lowMask w n) + 1#w).toNat = 2 ^ n * (v.toNat / 2 ^ n + 1) % 2 ^ w := by
  have hpos : 0 < 2 ^ n := Nat.two_pow_pos n
  rw [BitVec.toNat_add, toNat_or_lowMask v h, BitVec.toNat_ofNat, Nat.add_mod_mod]
  congr 1
  rw [Nat.mul_add]
  omega

/-- Two words agree above bit `n` exactly when the mask says so. -/
theorem xor_and_high_eq_zero {n : Nat} (v u : BitVec w) :
    (v ^^^ u) &&& (~~~(0#w) <<< n) = 0#w ↔ v.toNat / 2 ^ n = u.toNat / 2 ^ n := by
  rw [← not_lowMask]
  constructor
  · intro h
    refine Nat.eq_of_testBit_eq ?_
    intro i
    rw [Nat.testBit_div_two_pow, Nat.testBit_div_two_pow, BitVec.testBit_toNat,
      BitVec.testBit_toNat]
    have hbit := congrArg (fun x => BitVec.getLsbD x (i + n)) h
    simp only [BitVec.getLsbD_and, BitVec.getLsbD_not, BitVec.getLsbD_xor, getLsbD_lowMask,
      BitVec.getLsbD_zero] at hbit
    by_cases hi : i + n < w
    · have hlt : ¬ i + n < n := by omega
      simpa [hi, hlt] using hbit
    · rw [BitVec.getLsbD_of_ge v _ (by omega), BitVec.getLsbD_of_ge u _ (by omega)]
  · intro h
    refine BitVec.eq_of_getLsbD_eq ?_
    intro i hi
    simp only [BitVec.getLsbD_and, BitVec.getLsbD_not, BitVec.getLsbD_xor, getLsbD_lowMask,
      BitVec.getLsbD_zero]
    by_cases hn : i < n
    · simp [hi, hn]
    · have hbit := congrArg (fun x => Nat.testBit x (i - n)) h
      simp only [Nat.testBit_div_two_pow] at hbit
      rw [Nat.sub_add_cancel (by omega), BitVec.testBit_toNat, BitVec.testBit_toNat] at hbit
      rw [hbit]
      simp

/-- A field of a word: shift right, then keep the low bits. -/
theorem toNat_shiftRight_and_lowMask {n k : Nat} (v : BitVec w) (h : k ≤ w) :
    ((v >>> n) &&& lowMask w k).toNat = v.toNat / 2 ^ n % 2 ^ k := by
  rw [toNat_and_lowMask _ h, BitVec.toNat_ushiftRight, Nat.shiftRight_eq_div_pow]

/-- A field left in place, bits `lo` to `hi`. -/
theorem toNat_and_field {lo hi : Nat} (v : BitVec w) (h : hi ≤ w) :
    (v &&& (lowMask w hi &&& ~~~(lowMask w lo))).toNat
      = 2 ^ lo * (v.toNat % 2 ^ hi / 2 ^ lo) := by
  rw [← BitVec.and_assoc, toNat_and_not_lowMask, toNat_and_lowMask _ h]

/-! ## Flags and permission masks -/

/-- A bit that is set. -/
theorem and_twoPow_eq_self_iff (v : BitVec w) {k : Nat} (h : k < w) :
    v &&& BitVec.twoPow w k = BitVec.twoPow w k ↔ v.getLsbD k = true := by
  rw [BitVec.and_twoPow]
  by_cases hv : v.getLsbD k = true
  · simp [hv]
  · rw [if_neg hv]
    constructor
    · intro hz
      have hbit := congrArg (fun x => BitVec.getLsbD x k) hz
      simp [h] at hbit
    · intro hk; exact absurd hk hv

/-- A bit that is not set. -/
theorem and_twoPow_eq_zero_iff (v : BitVec w) {k : Nat} (h : k < w) :
    v &&& BitVec.twoPow w k = 0#w ↔ v.getLsbD k = false := by
  rw [BitVec.and_twoPow]
  by_cases hv : v.getLsbD k = true
  · rw [if_pos hv, hv]
    constructor
    · intro hz
      have hbit := congrArg (fun x => BitVec.getLsbD x k) hz
      simp [h] at hbit
    · intro hf; exact Bool.noConfusion hf
  · rw [if_neg hv]
    simp [Bool.not_eq_true] at hv ⊢
    exact hv

/-- Relaxing everything outside `m` keeps intersections inside `m`. -/
theorem and_or_not_and (p e m : BitVec w) :
    (p &&& (e ||| ~~~m)) &&& m = (p &&& e) &&& m := by
  refine BitVec.eq_of_getLsbD_eq ?_
  intro i hi
  simp only [BitVec.getLsbD_and, BitVec.getLsbD_or, BitVec.getLsbD_not, hi, decide_true,
    Bool.true_and]
  cases p.getLsbD i <;> cases e.getLsbD i <;> cases m.getLsbD i <;> rfl

/-- Accumulating relaxed masks is relaxing the accumulated mask. -/
theorem or_not_and_or_not (a e m : BitVec w) :
    (a ||| ~~~m) &&& (e ||| ~~~m) = (a &&& e) ||| ~~~m := by
  refine BitVec.eq_of_getLsbD_eq ?_
  intro i hi
  simp only [BitVec.getLsbD_and, BitVec.getLsbD_or, BitVec.getLsbD_not, hi, decide_true,
    Bool.true_and]
  cases a.getLsbD i <;> cases e.getLsbD i <;> cases m.getLsbD i <;> rfl

end WordMasks
