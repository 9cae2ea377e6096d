import Mathlib.Data.Nat.Size
import Mathlib.Order.Bounds.Basic
import Mathlib.Tactic.Ring

/-! # Rounding to the elements of a set

    A number is rounded down to the greatest element of a set that is not above it,
    and up to the least one that is not below it.  Both are monotone, and they agree
    exactly on the set (`eq_iff_mem`).  For zero and the powers of two they are given
    by the number of significant bits. -/

namespace Rounding

section Order

variable {α : Type*} [PartialOrder α] {S : Set α} {x x' y y' : α}

/-- `y` is `x` rounded down to `S`. -/
def Down (S : Set α) (x y : α) : Prop := IsGreatest {p | p ∈ S ∧ p ≤ x} y

/-- `y` is `x` rounded up to `S`. -/
def Up (S : Set α) (x y : α) : Prop := IsLeast {p | p ∈ S ∧ x ≤ p} y

/-- Rounding down is monotone. -/
theorem Down.mono (h : Down S x y) (h' : Down S x' y') (hx : x ≤ x') : y ≤ y' := by
  refine IsGreatest.mono h h' ?_
  intro p hp
  exact ⟨hp.1, hp.2.trans hx⟩

/-- Rounding up is monotone. -/
theorem Up.mono (h : Up S x y) (h' : Up S x' y') (hx : x ≤ x') : y ≤ y' := by
  refine IsLeast.mono h' h ?_
  intro p hp
  exact ⟨hp.1, hx.trans hp.2⟩

/-- An element of the set stays where it is. -/
theorem down_self (hx : x ∈ S) : Down S x x := ⟨⟨hx, le_rfl⟩, fun _ hp => hp.2⟩

/-- A member is rounded up to itself. -/
theorem up_self (hx : x ∈ S) : Up S x x := ⟨⟨hx, le_rfl⟩, fun _ hp => hp.2⟩

/-- **AGREEMENT**: the two roundings are the same exactly on the set. -/
theorem eq_iff_mem (h : Down S x y) (h' : Up S x y') : y = y' ↔ x ∈ S := by
  constructor
  · intro heq
    have hx : x = y := le_antisymm (heq ▸ h'.1.2) h.1.2
    rw [hx]
    exact h.1.1
  · intro hx
    rw [h.unique (down_self hx), h'.unique (up_self hx)]

end Order

/-! ## Powers of two -/

/-- Zero and the powers of two. -/
def pow2 : Set Nat := {p | p = 0 ∨ p.isPowerOfTwo}

variable {x y n : Nat}

/-- As many bits as are needed. -/
theorem isLeast_size (x : Nat) : IsLeast {k | x < 2 ^ k} x.size :=
  ⟨Nat.lt_size_self x, fun _ hk => Nat.size_le.mpr hk⟩

/-- The highest bit is the power of two below. -/
theorem down_pow2 (hx : x ≠ 0) : Down pow2 x (2 ^ (x.size - 1)) := by
  have hsize : 0 < x.size := Nat.size_pos.mpr (Nat.pos_of_ne_zero hx)
  constructor
  · exact ⟨Or.inr ⟨_, rfl⟩, Nat.lt_size.mp (Nat.sub_lt hsize Nat.one_pos)⟩
  · rintro p ⟨rfl | ⟨k, rfl⟩, hp⟩
    · exact Nat.zero_le _
    · have hk : k < x.size := Nat.lt_size.mpr hp
      exact Nat.pow_le_pow_right Nat.two_pos (Nat.le_sub_one_of_lt hk)

/-- The bits of the number before decide which one is above. -/
theorem up_pow2 (hx : x ≠ 0) : Up pow2 x (2 ^ (x - 1).size) := by
  constructor
  · have hlt := Nat.lt_size_self (x - 1)
    exact ⟨Or.inr ⟨_, rfl⟩, by omega⟩
  · rintro p ⟨rfl | ⟨k, rfl⟩, hp⟩
    · exact absurd (Nat.le_zero.mp hp) hx
    · have hk : (x - 1).size ≤ k := Nat.size_le.mpr (by omega)
      exact Nat.pow_le_pow_right Nat.two_pos hk

/-- Without zero, for a number that is not zero. -/
theorem Down.isGreatest (h : Down pow2 x y) (hy : y ≠ 0) :
    IsGreatest {p | p.isPowerOfTwo ∧ p ≤ x} y := by
  constructor
  · exact ⟨h.1.1.resolve_left hy, h.1.2⟩
  · intro p hp
    exact h.2 ⟨Or.inr hp.1, hp.2⟩

/-- Rounding up to a power of two gives the least one. -/
theorem Up.isLeast (h : Up pow2 x y) (hy : y ≠ 0) :
    IsLeast {p | p.isPowerOfTwo ∧ x ≤ p} y := by
  constructor
  · exact ⟨h.1.1.resolve_left hy, h.1.2⟩
  · intro p hp
    exact h.2 ⟨Or.inr hp.1, hp.2⟩

/-- There is none between two that follow each other. -/
theorem notMem_pow2 (hlow : 2 ^ n < x) (hhigh : x < 2 ^ (n + 1)) : x ∉ pow2 := by
  rintro (rfl | ⟨k, rfl⟩)
  · exact Nat.not_lt_zero _ hlow
  · have hn : n < k := (Nat.pow_lt_pow_iff_right (by decide)).mp hlow
    have hk : k < n + 1 := (Nat.pow_lt_pow_iff_right (by decide)).mp hhigh
    omega

end Rounding
