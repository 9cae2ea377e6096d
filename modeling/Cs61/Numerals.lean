import Mathlib.Data.List.Forall2
import Mathlib.Data.List.Induction
import Mathlib.Data.Nat.Digits.Defs

/-! # Numerals — digit lists, most significant digit first

    `value` is what a digit list is worth, `numeral` the canonical list of a
    number: no leading zero, and one digit for 0. -/

namespace Numerals

variable {b n : Nat} {ds es : List Nat}

/-! ## Values -/

/-- The number that a list of digits stands for, with base `b`. -/
def value (b : Nat) (ds : List Nat) : Nat := ds.foldl (fun x d => x * b + d) 0

@[simp] theorem value_nil (b : Nat) : value b [] = 0 := rfl

@[simp] theorem value_append_one (b : Nat) (ds : List Nat) (d : Nat) :
    value b (ds ++ [d]) = value b ds * b + d := by
  rw [value, List.foldl_append]
  rfl

/-- The value of two numerals, one behind the other. -/
theorem value_append (b : Nat) (ds es : List Nat) :
    value b (ds ++ es) = value b ds * b ^ es.length + value b es := by
  induction es using List.reverseRecOn with
  | nil => simp
  | append_singleton es e ih =>
      rw [← List.append_assoc, value_append_one, ih, value_append_one, List.length_append,
        List.length_singleton, Nat.pow_succ, Nat.add_mul, Nat.mul_assoc, Nat.add_assoc]

/-- The value of a numeral, from its first digit. -/
theorem value_cons (b d : Nat) (ds : List Nat) :
    value b (d :: ds) = d * b ^ ds.length + value b ds := by
  have h := value_append b [d] ds
  rwa [show value b [d] = d by simp [value]] at h

/-- Larger digits are worth more. -/
theorem value_le_value (h : List.Forall₂ (· ≤ ·) ds es) : value b ds ≤ value b es := by
  induction h with
  | nil => exact Nat.le_refl 0
  | cons hle htail ih =>
      rw [value_cons, value_cons, htail.length_eq]
      exact Nat.add_le_add (Nat.mul_le_mul_right _ hle) ih

/-- Digits that are no larger and give the same value are the same. -/
theorem eq_of_value_eq (hb : 0 < b) (h : List.Forall₂ (· ≤ ·) ds es)
    (heq : value b ds = value b es) : ds = es := by
  induction h with
  | nil => rfl
  | @cons d e ds es hle htail ih =>
      rw [value_cons, value_cons, htail.length_eq] at heq
      have hhead : d * b ^ es.length ≤ e * b ^ es.length := Nat.mul_le_mul_right _ hle
      have hrest := value_le_value (b := b) htail
      have hmul : d * b ^ es.length = e * b ^ es.length := by omega
      have hde : d = e := Nat.eq_of_mul_eq_mul_right (Nat.pow_pos hb) hmul
      rw [hde, ih (by omega)]

/-! ## Canonical numerals -/

/-- The canonical numeral of a number. -/
def numeral (b n : Nat) : List Nat := if n = 0 then [0] else (Nat.digits b n).reverse

/-- One digit. -/
theorem numeral_of_lt (hn : n < b) : numeral b n = [n] := by
  rw [numeral]
  split
  · rename_i h
    rw [h]
  · rename_i h
    rw [Nat.digits_of_lt b n h hn]
    rfl

/-- The last digit, and the others. -/
theorem numeral_of_ge (hb : 2 ≤ b) (hn : b ≤ n) :
    numeral b n = numeral b (n / b) ++ [n % b] := by
  have hpos : 0 < n := by omega
  have hdiv : n / b ≠ 0 := Nat.ne_of_gt (Nat.div_pos hn (by omega))
  rw [numeral, if_neg (Nat.ne_of_gt hpos), numeral, if_neg hdiv, Nat.digits_def' hb hpos,
    List.reverse_cons]

/-- Induction along the digits of a number. -/
theorem digits_induction {P : Nat → Prop} (hb : 2 ≤ b) (hlt : ∀ n < b, P n)
    (hge : ∀ n, b ≤ n → P (n / b) → P n) (n : Nat) : P n := by
  induction n using Nat.strongRecOn with
  | _ n ih =>
      by_cases hn : n < b
      · exact hlt n hn
      · exact hge n (Nat.le_of_not_lt hn) (ih _ (Nat.div_lt_self (by omega) hb))

@[simp] theorem value_numeral (hb : 2 ≤ b) (n : Nat) : value b (numeral b n) = n := by
  induction n using digits_induction hb with
  | hlt n hn =>
      rw [numeral_of_lt hn, value_cons, value_nil]
      simp
  | hge n hn ih =>
      rw [numeral_of_ge hb hn, value_append_one, ih]
      exact Nat.div_add_mod' n b

/-- Digits are below the base. -/
theorem numeral_lt (hb : 2 ≤ b) (n : Nat) : ∀ d ∈ numeral b n, d < b := by
  induction n using digits_induction hb with
  | hlt n hn =>
      rw [numeral_of_lt hn, List.forall_mem_singleton]
      exact hn
  | hge n hn ih =>
      rw [numeral_of_ge hb hn, List.forall_mem_append, List.forall_mem_singleton]
      exact ⟨ih, Nat.mod_lt n (by omega)⟩

theorem numeral_length_pos (b n : Nat) : 0 < (numeral b n).length := by
  rw [numeral]
  split
  · exact Nat.one_pos
  · rename_i h
    rw [List.length_reverse]
    exact List.length_pos_iff.mpr (Nat.digits_ne_nil_iff_ne_zero.mpr h)

theorem numeral_length_of_ge (hb : 2 ≤ b) (hn : b ≤ n) :
    (numeral b n).length = (numeral b (n / b)).length + 1 := by
  rw [numeral_of_ge hb hn, List.length_append, List.length_singleton]

/-- How many digits there can be. -/
theorem numeral_length_le (hb : 2 ≤ b) {k : Nat} (hk : 0 < k) (hn : n < b ^ k) :
    (numeral b n).length ≤ k := by
  induction k generalizing n with
  | zero => exact absurd hk (Nat.lt_irrefl 0)
  | succ k ih =>
      by_cases hlt : n < b
      · rw [numeral_of_lt hlt]
        exact Nat.succ_le_succ (Nat.zero_le k)
      · have hge : b ≤ n := Nat.le_of_not_lt hlt
        have hpos : 0 < k := by
          refine Nat.pos_of_ne_zero ?_
          rintro rfl
          rw [Nat.zero_add, Nat.pow_one] at hn
          exact hlt hn
        rw [numeral_length_of_ge hb hge]
        exact Nat.succ_le_succ (ih hpos (Nat.div_lt_of_lt_mul (Nat.pow_succ' ▸ hn)))

end Numerals
