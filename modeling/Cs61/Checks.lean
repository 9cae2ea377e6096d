import Mathlib.Data.List.Basic

/-! # Chains of checks

    A check is a computation that may stop the program.  A validation makes one
    check after the other and leaves with the first complaint.  `Gives x Q` says
    that `x` does not stop and that `Q` holds of its value; `Passes x P`, that `x`
    does not stop, and that `P` holds unless it complains.  The rules follow the
    text of a validation from its start to its end. -/

namespace Checks

variable {ε κ α β : Type}

/-- `a || b`. -/
def either (a b : Except ε Bool) : Except ε Bool :=
  a >>= fun yes => if yes then .ok true else b

/-- `a && b`. -/
def both (a b : Except ε Bool) : Except ε Bool :=
  a >>= fun yes => if yes then b else .ok false

/-- `if (bad) complain; else rest` -/
def rejectIf (bad : Except ε Bool) (complaint : Except ε κ) (rest : Except ε (Option κ)) :
    Except ε (Option κ) :=
  bad >>= fun yes => if yes then complaint.map some else rest

/-- `for (i = from; i != from + n; ++i)`, up to the first complaint. -/
def firstComplaint (check : Nat → Except ε (Option κ)) : Nat → Nat → Except ε (Option κ)
  | _, 0 => .ok none
  | i, n + 1 => check i >>= fun c =>
      match c with
      | some c => .ok (some c)
      | none => firstComplaint check (i + 1) n

/-! ## Computations that do not stop -/

/-- The check ends, and its result is as `Q` says. -/
def Gives (x : Except ε α) (Q : α → Prop) : Prop := ∃ a, x = .ok a ∧ Q a

/-- The check ends without a read outside the file. -/
def Defined (x : Except ε α) : Prop := ∃ a, x = .ok a

/-- `x` does not stop; without a complaint, `P`. -/
def Passes (x : Except ε (Option κ)) (P : Prop) : Prop := Gives x fun c => c = none → P

variable {x : Except ε α} {Q R : α → Prop} {a b : Except ε Bool} {P P' : Prop}

theorem Gives.ok {v : α} (h : Q v) : Gives (.ok v : Except ε α) Q := ⟨v, rfl, h⟩

theorem Gives.map {f : α → β} {Q : β → Prop} (h : Gives x fun v => Q (f v)) :
    Gives (x.map f) Q := by
  obtain ⟨v, rfl, hv⟩ := h
  exact ⟨f v, rfl, hv⟩

/-- The result says less. -/
theorem Gives.mono (h : Gives x Q) (hQ : ∀ v, Q v → R v) : Gives x R := by
  obtain ⟨v, hx, hv⟩ := h
  exact ⟨v, hx, hQ v hv⟩

/-- A check with a result has not trapped. -/
theorem Gives.defined (h : Gives x Q) : Defined x := by
  obtain ⟨v, hx, -⟩ := h
  exact ⟨v, hx⟩

/-- What a computation gives behind its first part. -/
theorem ok_of_bind {f : α → Except ε β} {w : β} (h : (x >>= f) = .ok w) :
    ∃ v, x = .ok v ∧ f v = .ok w := by
  cases x with
  | error e => cases h
  | ok v => exact ⟨v, rfl, h⟩

/-- A computation that does not stop has come through its first part. -/
theorem Defined.bind_inv {f : α → Except ε β} (h : Defined (x >>= f)) :
    Gives x fun v => Defined (f v) := by
  obtain ⟨w, hw⟩ := h
  obtain ⟨v, hx, hv⟩ := ok_of_bind hw
  exact ⟨v, hx, w, hv⟩

theorem Defined.map_inv {f : α → β} (h : Defined (x.map f)) : Defined x := by
  obtain ⟨w, hw⟩ := h
  cases x with
  | error e => cases hw
  | ok v => exact ⟨v, rfl⟩

theorem map_error_inv {f : α → β} {stop : ε} (h : x.map f = .error stop) : x = .error stop := by
  cases x with
  | error e => exact congrArg _ (Except.error.inj h)
  | ok v => cases h

/-- `x` does not stop and finds out whether `P`. -/
def Decides (x : Except ε Bool) (P : Prop) : Prop := Gives x fun yes => yes = true ↔ P

theorem Decides.ok {yes : Bool} (h : yes = true ↔ P) : Decides (.ok yes : Except ε Bool) P :=
  ⟨yes, rfl, h⟩

theorem Decides.congr (h : Decides a P) (hP : P ↔ P') : Decides a P' :=
  Gives.mono h fun _ hyes => hyes.trans hP

/-- A check of what is false. -/
theorem Decides.eq_false (h : Decides a P) (hP : ¬ P) : a = .ok false := by
  obtain ⟨yes, rfl, hyes⟩ := h
  rw [eq_false_of_ne_true (mt hyes.mp hP)]

/-- `b` is made only if `a` is false. -/
theorem Decides.either (ha : Decides a P) (hb : ¬ P → Decides b P') :
    Decides (Checks.either a b) (P ∨ P') := by
  obtain ⟨yes, rfl, hyes⟩ := ha
  cases yes with
  | true => exact Decides.ok (iff_of_true rfl (Or.inl (hyes.mp rfl)))
  | false =>
      have hP : ¬ P := mt hyes.mpr Bool.false_ne_true
      exact Decides.congr (hb hP) (or_iff_right hP).symm

/-- `b` is made only if `a` is true. -/
theorem Decides.both (ha : Decides a P) (hb : P → Decides b P') :
    Decides (Checks.both a b) (P ∧ P') := by
  obtain ⟨yes, rfl, hyes⟩ := ha
  cases yes with
  | true => exact Decides.congr (hb (hyes.mp rfl)) (and_iff_right (hyes.mp rfl)).symm
  | false =>
      have hP : ¬ P := mt hyes.mpr Bool.false_ne_true
      exact Decides.ok (iff_of_false Bool.false_ne_true fun h => hP h.1)

/-- One check before the others. -/
theorem Decides.rejectIf {complaint : Except ε κ} {rest : Except ε (Option κ)} (ha : Decides a P)
    (hcomplaint : P → Defined complaint) (hrest : ¬ P → Passes rest P') :
    Passes (Checks.rejectIf a complaint rest) P' := by
  obtain ⟨yes, rfl, hyes⟩ := ha
  cases yes with
  | true =>
      obtain ⟨c, rfl⟩ := hcomplaint (hyes.mp rfl)
      exact ⟨some c, rfl, fun h => absurd h (Option.some_ne_none c)⟩
  | false => exact hrest (mt hyes.mpr Bool.false_ne_true)

theorem Passes.mono {x : Except ε (Option κ)} (h : Passes x P) (hP : P → P') : Passes x P' :=
  Gives.mono h fun _ hc hnone => hP (hc hnone)

theorem Passes.done (h : P) : Passes (.ok none : Except ε (Option κ)) P := ⟨_, rfl, fun _ => h⟩

/-- A check whose complaint is passed on. -/
theorem Passes.bind {x : Except ε (Option κ)} {rest : Except ε (Option κ)}
    {f : Option κ → Except ε (Option κ)} (hsome : ∀ c, f (some c) = .ok (some c))
    (hnone : f none = rest) (h : Passes x P) (hrest : P → Passes rest P') :
    Passes (x >>= f) P' := by
  obtain ⟨c, rfl, hc⟩ := h
  cases c with
  | some c => exact ⟨some c, hsome c, fun h => absurd h (Option.some_ne_none c)⟩
  | none =>
      show Passes (f none) P'
      rw [hnone]
      exact hrest (hc rfl)

/-- **LOOP RULE**: every pass is made, or one of them complains. -/
theorem Passes.firstComplaint {check : Nat → Except ε (Option κ)} {P : Nat → Prop} {i n : Nat}
    (h : ∀ k, k < n → Passes (check (i + k)) (P (i + k))) :
    Passes (Checks.firstComplaint check i n) (∀ k, k < n → P (i + k)) := by
  induction n generalizing i with
  | zero => exact Passes.done fun k hk => absurd hk (Nat.not_lt_zero k)
  | succ n ih =>
      refine Passes.bind (fun _ => rfl) rfl (h 0 (Nat.succ_pos n)) ?_
      intro hfirst
      have hrest : ∀ k, k < n → Passes (check (i + 1 + k)) (P (i + 1 + k)) := by
        intro k hk
        rw [Nat.add_assoc, Nat.add_comm 1 k]
        exact h (k + 1) (Nat.succ_lt_succ hk)
      refine (ih hrest).mono ?_
      intro hall k hk
      cases k with
      | zero => exact hfirst
      | succ k =>
          have hnext := hall k (Nat.lt_of_succ_lt_succ hk)
          rwa [Nat.add_assoc, Nat.add_comm 1 k] at hnext

/-- A check of each of the entries. -/
theorem Passes.countUp {check : Nat → Except ε (Option κ)} {n : Nat} (P : Nat → Prop)
    (h : ∀ k, k < n → Passes (check k) (P k)) :
    Passes (Checks.firstComplaint check 0 n) (∀ k, k < n → P k) := by
  have hfrom : ∀ k, k < n → Passes (check (0 + k)) (P (0 + k)) := by
    intro k hk
    rw [Nat.zero_add]
    exact h k hk
  refine (Passes.firstComplaint hfrom).mono ?_
  intro hall k hk
  have hpass := hall k hk
  rwa [Nat.zero_add] at hpass

/-- A loop in which no pass complains. -/
theorem firstComplaint_none {check : Nat → Except ε (Option κ)} {i n : Nat}
    (h : ∀ k, k < n → check (i + k) = .ok none) : firstComplaint check i n = .ok none := by
  induction n generalizing i with
  | zero => rfl
  | succ n ih =>
      have hrest : ∀ k, k < n → check (i + 1 + k) = .ok none := by
        intro k hk
        rw [Nat.add_assoc, Nat.add_comm 1 k]
        exact h (k + 1) (Nat.succ_lt_succ hk)
      rw [firstComplaint, show check i = .ok none from h 0 (Nat.succ_pos n)]
      exact ih hrest

/-- A check that finds nothing goes on with the rest. -/
theorem rejectIf_false {complaint : Except ε κ} {rest : Except ε (Option κ)}
    (h : a = .ok false) : rejectIf a complaint rest = rest := by
  rw [h]
  rfl

end Checks
