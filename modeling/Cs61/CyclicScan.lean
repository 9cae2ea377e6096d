import Mathlib.Data.Fintype.EquivFin
import Mathlib.Data.Int.GCD
import Mathlib.Data.Nat.ModEq

/-! # Cyclic scans

    A scan looks at `p`, `p + inc`, `p + 2 * inc`, … modulo `N` until it finds
    what it wants.  When `inc` and `N` are coprime it sees everything in `N`
    steps (`scan_eq_none_of_coprime`). -/

namespace CyclicScan

variable {N inc p r n : Nat} {good : Nat → Bool}

/-- Where the scan stops, if it does in `n` steps. -/
def scan (N inc : Nat) (good : Nat → Bool) : Nat → Nat → Option Nat
  | 0, _ => none
  | n + 1, p => if good p then some p else scan N inc good n ((p + inc) % N)

/-- What is found is good. -/
theorem scan_some (hp : p < N) (h : scan N inc good n p = some r) : good r = true ∧ r < N := by
  induction n generalizing p with
  | zero => cases h
  | succ n ih =>
      rw [scan] at h
      split at h
      · rename_i hgood
        obtain rfl := Option.some.inj h
        exact ⟨hgood, hp⟩
      · exact ih (Nat.mod_lt _ (Nat.zero_lt_of_lt hp)) h

/-- Nothing is found if and only if nothing that is visited is good. -/
theorem scan_eq_none (hp : p < N) :
    scan N inc good n p = none ↔ ∀ i < n, good ((p + i * inc) % N) = false := by
  induction n generalizing p with
  | zero => exact ⟨fun _ i hi => absurd hi (Nat.not_lt_zero i), fun _ => rfl⟩
  | succ n ih =>
      have hshift : ∀ i, ((p + inc) % N + i * inc) % N = (p + (i + 1) * inc) % N := by
        intro i
        rw [Nat.mod_add_mod, Nat.add_assoc, Nat.add_comm inc, ← Nat.succ_mul]
      have hzero : (p + 0 * inc) % N = p := by
        rw [Nat.zero_mul, Nat.add_zero, Nat.mod_eq_of_lt hp]
      rw [scan]
      constructor
      · intro h i hi
        split at h
        · cases h
        rename_i hno
        cases i with
        | zero =>
            rw [hzero]
            exact Bool.eq_false_of_not_eq_true hno
        | succ i =>
            rw [← hshift]
            exact (ih (Nat.mod_lt _ (Nat.zero_lt_of_lt hp))).mp h i (Nat.lt_of_succ_lt_succ hi)
      · intro h
        have hno := h 0 (Nat.succ_pos n)
        rw [hzero] at hno
        rw [if_neg (by rw [hno]; exact Bool.noConfusion)]
        refine (ih (Nat.mod_lt _ (Nat.zero_lt_of_lt hp))).mpr fun i hi => ?_
        rw [hshift]
        exact h (i + 1) (Nat.succ_lt_succ hi)

/-- What the scan found is the first that it wanted. -/
theorem scan_first (h : scan N 1 good n p = some r) (hpn : p + n ≤ N) :
    p ≤ r ∧ ∀ q, p ≤ q → q < r → good q = false := by
  induction n generalizing p with
  | zero => cases h
  | succ n ih =>
      rw [scan] at h
      split at h
      · obtain rfl := Option.some.inj h
        exact ⟨Nat.le_refl _, fun q hpq hqr => absurd hqr (Nat.not_lt.mpr hpq)⟩
      rename_i hno
      cases n with
      | zero => cases h
      | succ n =>
          rw [Nat.mod_eq_of_lt (by omega)] at h
          obtain ⟨hle, hrest⟩ := ih h (by omega)
          refine ⟨by omega, ?_⟩
          intro q hpq hqr
          rcases Nat.eq_or_lt_of_le hpq with rfl | hlt
          · exact Bool.eq_false_of_not_eq_true hno
          · exact hrest q hlt hqr

/-- Every residue is a step of the scan. -/
theorem exists_step (hcop : Nat.Coprime N inc) (hr : r < N) : ∃ i < N, (p + i * inc) % N = r := by
  have hN : 0 < N := Nat.zero_lt_of_lt hr
  let f : Fin N → Fin N := fun i => ⟨(p + i * inc) % N, Nat.mod_lt _ hN⟩
  have hinj : Function.Injective f := by
    intro i j hij
    have hmod : p + i * inc ≡ p + j * inc [MOD N] := Fin.mk.inj hij
    have hmul : (i : Nat) ≡ j [MOD N] :=
      Nat.ModEq.cancel_right_of_coprime hcop (Nat.ModEq.add_left_cancel' p hmod)
    exact Fin.ext (Nat.ModEq.eq_of_lt_of_lt hmul i.isLt j.isLt)
  obtain ⟨i, hi⟩ := (Finite.injective_iff_surjective.mp hinj) ⟨r, hr⟩
  exact ⟨i, i.isLt, Fin.mk.inj hi⟩

/-- In `N` steps the scan misses nothing. -/
theorem scan_eq_none_of_coprime (hcop : Nat.Coprime N inc) (hp : p < N) :
    scan N inc good N p = none ↔ ∀ r < N, good r = false := by
  rw [scan_eq_none hp]
  constructor
  · intro h r hr
    obtain ⟨i, hi, rfl⟩ := exists_step (p := p) hcop hr
    exact h i hi
  · intro h i _
    exact h _ (Nat.mod_lt _ (Nat.zero_lt_of_lt hp))

end CyclicScan
