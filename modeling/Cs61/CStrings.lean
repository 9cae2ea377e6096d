import Mathlib.Data.List.Basic

/-! # NUL-terminated strings

    A string is its bytes without the terminator.  A read behind the terminator
    is an `Overrun`. -/

/-- A string: no byte of it is the terminator. -/
structure CString where
  bytes : List UInt8
  nulFree : ∀ b ∈ bytes, b ≠ 0

namespace CString

/-- A read behind the terminator of a string. -/
structure Overrun where
  index : Nat
deriving DecidableEq

/-- `s[i]`. -/
def byte (s : CString) (i : Nat) : Except Overrun UInt8 :=
  match s.bytes[i]? with
  | some b => .ok b
  | none => if i = s.bytes.length then .ok 0 else .error ⟨i⟩

variable {s : CString} {i : Nat}

/-- `s[i]` is the first byte of what is left behind `i`, or the terminator. -/
theorem byte_drop {rest : List UInt8} (h : s.bytes.drop i = rest) (hi : i ≤ s.bytes.length) :
    s.byte i = .ok (rest.headD 0) := by
  have hget : s.bytes[i]? = rest.head? := by
    rw [← h, List.head?_drop]
  rw [byte, hget]
  cases rest with
  | nil =>
      have hend : s.bytes.length ≤ i := List.drop_eq_nil_iff.mp h
      exact if_pos (Nat.le_antisymm hi hend)
  | cons b rest => rfl

/-- No other byte is zero. -/
theorem headD_eq_zero {front rest : List UInt8} (h : s.bytes = front ++ rest) :
    rest.headD 0 = 0 ↔ rest = [] := by
  cases rest with
  | nil => exact iff_of_true rfl rfl
  | cons b rest =>
      have hb : b ∈ s.bytes := by
        rw [h]
        exact List.mem_append_right _ List.mem_cons_self
      exact iff_of_false (s.nulFree b hb) (List.cons_ne_nil b rest)

end CString
