import Mathlib.Data.List.Basic

/-! # Binary searches

    A binary search probes the middle of what is left, and goes on to the right
    or to the left of it.  Where every probe points to one position, the search
    gets there (`search_of_towards`); what it finds is what some position says
    (`exists_of_search`). -/

namespace BinarySearch

variable {α : Type}

/-- What a probe says. -/
inductive Probe (α : Type) where
  | found (a : α)
  | left
  | right

/-- The loop, which halves the range `[l, r)` until the probe hits or the range is empty. -/
def search (probe : Nat → Probe α) (l r : Nat) : Option α :=
  if _h : l < r then
    match probe (l + (r - l) / 2) with
    | .found a => some a
    | .right => search probe (l + (r - l) / 2 + 1) r
    | .left => search probe l (l + (r - l) / 2)
  else none
termination_by r - l

/-- The way from `a` to `m`. -/
def towards (m a : Nat) : Probe α := if a < m then .right else .left

variable {probe : Nat → Probe α} {l r m : Nat}

/-- **WHAT IS FOUND**: a search whose other probes all lead to `m` finds what `m`
    says. -/
theorem search_of_towards {x : α} (hl : l ≤ m) (hr : m < r) (hfound : probe m = .found x)
    (hall : ∀ a, a < r → a ≠ m → probe a = towards m a) : search probe l r = some x := by
  induction hn : r - l using Nat.strongRecOn generalizing l r with
  | _ n ih =>
      have hlt : l < r := by omega
      rw [search, dif_pos hlt]
      rcases Nat.lt_trichotomy (l + (r - l) / 2) m with h | h | h
      · rw [hall _ (by omega) (Nat.ne_of_lt h), towards, if_pos h]
        exact ih _ (by omega) (by omega) hr hall rfl
      · rw [h, hfound]
      · rw [hall _ (by omega) (Nat.ne_of_gt h), towards, if_neg (Nat.lt_asymm h)]
        exact ih _ (by omega) hl h (fun a ha hne => hall a (by omega) hne) rfl

/-- What a search finds is what some position says. -/
theorem exists_of_search {x : α} (h : search probe l r = some x) :
    ∃ m, l ≤ m ∧ m < r ∧ probe m = .found x := by
  fun_induction search probe l r with
  | case1 l r hlt a hprobe =>
      obtain rfl := Option.some.inj h
      exact ⟨_, by omega, by omega, hprobe⟩
  | case2 l r hlt hprobe ih =>
      obtain ⟨m, hlm, hmr, hm⟩ := ih h
      exact ⟨m, by omega, hmr, hm⟩
  | case3 l r hlt hprobe ih =>
      obtain ⟨m, hlm, hmr, hm⟩ := ih h
      exact ⟨m, hlm, by omega, hm⟩
  | case4 => cases h

end BinarySearch
