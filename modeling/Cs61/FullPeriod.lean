import Mathlib.Data.BitVec
import Mathlib.Dynamics.PeriodicPts.Defs
import Mathlib.NumberTheory.Multiplicity

/-! # Linear congruential generators of full period

    The states of a generator are words, and it goes from `x` to `a * x + c`.
    If `a` is 1 modulo 4 and `c` is odd, then every state comes back after `2^w`
    steps and not earlier, so a period visits each state once.

    After `n` steps the state has moved by `1 + a + ... + a^(n-1)` times an odd
    number (`iterate_eq`), and the sum has as many factors 2 as `n`
    (`two_pow_dvd_geomSum`). -/

namespace FullPeriod

open Finset Function

/-! ## Iterated steps -/

/-- One step of a generator. -/
def step {R : Type} [Mul R] [Add R] (a c x : R) : R := a * x + c

/-- The steps of a generator in closed form. -/
theorem iterate_eq {R : Type} [CommRing R] (a c x : R) (n : Nat) :
    (step a c)^[n] x = x + (∑ i ∈ range n, a ^ i) * ((a - 1) * x + c) := by
  induction n with
  | zero => simp
  | succ n ih =>
      have hsum : ∑ i ∈ range (n + 1), a ^ i = a * (∑ i ∈ range n, a ^ i) + 1 := by
        rw [sum_range_succ', mul_sum]
        simp only [pow_succ', pow_zero]
      rw [iterate_succ_apply', ih, hsum, step]
      ring

/-! ## Factors of two -/

/-- The sum of the powers has the factors 2 of its length. -/
theorem two_pow_dvd_geomSum {a : Int} (ha : 4 ∣ a - 1) (w n : Nat) :
    (2 : Int) ^ w ∣ ∑ i ∈ range n, a ^ i ↔ 2 ^ w ∣ n := by
  have hcast : (2 : Int) ^ w ∣ n ↔ 2 ^ w ∣ n := by
    rw [← Int.natCast_dvd_natCast, Nat.cast_pow, Nat.cast_ofNat]
  by_cases hone : a = 1
  · rw [hone]
    simpa using hcast
  have hodd : ¬ (2 : Int) ∣ a := by omega
  have hpow := Int.two_pow_sub_pow' n ha hodd
  rw [one_pow, ← geom_sum_mul, emultiplicity_mul Int.prime_two, add_comm] at hpow
  have hfinite : emultiplicity 2 (a - 1) ≠ ⊤ := by
    rw [ne_eq, emultiplicity_eq_top, not_not]
    exact Int.finiteMultiplicity_iff.mpr ⟨by decide, sub_ne_zero.mpr hone⟩
  have hsum := ENat.add_right_injective_of_ne_top hfinite hpow
  rw [← hcast, pow_dvd_iff_le_emultiplicity, pow_dvd_iff_le_emultiplicity, hsum]

/-! ## Words -/

variable {w : Nat} {a c : BitVec w}

/-- A word is zero if and only if the number is a multiple. -/
theorem intCast_eq_zero_iff (z : Int) : (z : BitVec w) = 0 ↔ (2 : Int) ^ w ∣ z := by
  have hpos : (0 : Int) < 2 ^ w := Int.pow_pos (by decide)
  have hmod := Int.emod_nonneg z (Int.ne_of_gt hpos)
  rw [← BitVec.toNat_inj, BitVec.toNat_intCast, Int.dvd_iff_emod_eq_zero]
  show (z % 2 ^ w).toNat = 0 ↔ _
  omega

/-- A word is its number, in the ring. -/
theorem intCast_toNat (x : BitVec w) : ((x.toNat : Int) : BitVec w) = x := by
  rw [Int.cast_natCast]
  exact (BitVec.ofNat_toNat w x).trans (BitVec.setWidth_eq x)

/-- After `n` steps a state is back exactly if `2^w` divides `n`. -/
theorem isPeriodicPt_iff (ha : a.toNat % 4 = 1) (hc : c.toNat % 2 = 1) (x : BitVec w) (n : Nat) :
    IsPeriodicPt (step a c) n x ↔ 2 ^ w ∣ n := by
  have ha' : (4 : Int) ∣ a.toNat - 1 := by omega
  have hodd : ¬ (2 : Int) ∣ (a.toNat - 1) * x.toNat + c.toNat := by
    intro h
    have heven : (2 : Int) ∣ (a.toNat - 1) * x.toNat :=
      Dvd.dvd.mul_right (Dvd.dvd.trans (by decide) ha') _
    omega
  have hmoved : (step a c)^[n] x = x + (((∑ i ∈ range n, (a.toNat : Int) ^ i)
      * ((a.toNat - 1) * x.toNat + c.toNat) : Int) : BitVec w) := by
    rw [iterate_eq]
    push_cast
    simp only [← Int.cast_natCast (R := BitVec w), intCast_toNat]
  rw [IsPeriodicPt, IsFixedPt, hmoved, add_eq_left, intCast_eq_zero_iff,
    ← two_pow_dvd_geomSum ha' w n]
  exact ⟨fun h => Int.prime_two.pow_dvd_of_dvd_mul_right w hodd h, fun h => Dvd.dvd.mul_right h _⟩

/-- **FULL PERIOD**. -/
theorem minimalPeriod_eq (ha : a.toNat % 4 = 1) (hc : c.toNat % 2 = 1) (x : BitVec w) :
    minimalPeriod (step a c) x = 2 ^ w := by
  refine Nat.dvd_antisymm ?_ ?_
  · exact isPeriodicPt_iff_minimalPeriod_dvd.mp ((isPeriodicPt_iff ha hc x _).mpr (dvd_refl _))
  · exact (isPeriodicPt_iff ha hc x _).mp (isPeriodicPt_minimalPeriod _ _)

/-- Different counts of steps below the period, different states. -/
theorem iterate_injOn (ha : a.toNat % 4 = 1) (hc : c.toNat % 2 = 1) (x : BitVec w) :
    Set.InjOn (fun n => ((step a c)^[n] x).toNat) (range (2 ^ w)) := by
  intro n hn k hk hnk
  have hinj := iterate_injOn_Iio_minimalPeriod (f := step a c) (x := x)
  rw [minimalPeriod_eq ha hc] at hinj
  exact hinj (mem_range.mp hn) (mem_range.mp hk) (BitVec.toNat_inj.mp hnk)

/-- A period visits every state. -/
theorem image_iterate (ha : a.toNat % 4 = 1) (hc : c.toNat % 2 = 1) (x : BitVec w) :
    (range (2 ^ w)).image (fun n => ((step a c)^[n] x).toNat) = range (2 ^ w) := by
  refine eq_of_subset_of_card_le ?_ ?_
  · intro y hy
    obtain ⟨n, -, rfl⟩ := mem_image.mp hy
    exact mem_range.mpr (BitVec.isLt _)
  · rw [card_image_of_injOn (iterate_injOn ha hc x)]

/-- **EACH STATE ONCE** in a period. -/
theorem existsUnique_visit (ha : a.toNat % 4 = 1) (hc : c.toNat % 2 = 1) (x y : BitVec w) :
    ∃! n, n < 2 ^ w ∧ (step a c)^[n] x = y := by
  have hy : y.toNat ∈ (range (2 ^ w)).image (fun n => ((step a c)^[n] x).toNat) := by
    rw [image_iterate ha hc]
    exact mem_range.mpr y.isLt
  obtain ⟨n, hn, hny⟩ := mem_image.mp hy
  refine ⟨n, ⟨mem_range.mp hn, BitVec.toNat_inj.mp hny⟩, ?_⟩
  rintro k ⟨hk, rfl⟩
  exact iterate_injOn ha hc x (mem_coe.mpr (mem_range.mpr hk)) (mem_coe.mpr hn) hny.symm

/-- A property holds in a period as often as it holds of states. -/
theorem card_visits (ha : a.toNat % 4 = 1) (hc : c.toNat % 2 = 1) (x : BitVec w)
    (p : Nat → Prop) [DecidablePred p] :
    ((range (2 ^ w)).filter fun n => p ((step a c)^[n] x).toNat).card
      = ((range (2 ^ w)).filter p).card := by
  conv_rhs => rw [← image_iterate ha hc x, filter_image]
  rw [card_image_of_injOn]
  exact (iterate_injOn ha hc x).mono (coe_subset.mpr (filter_subset _ _))

end FullPeriod
