import Mathlib.Data.List.Nodup
import Mathlib.Logic.Function.Basic

/-! # Copies in one memory — the order in which the cells are copied

    Cell `src k` is copied to cell `dst k`, for each `k` of a list in turn.  The
    ranges may overlap: an order is safe if no cell is written before it is read
    (`Safe`), and a safe copy leaves what was in the sources (`copyAll_moves`). -/

namespace OrderedCopies

variable {α β κ : Type} [DecidableEq α]

/-- One cell after the other. -/
def copyAll (dst src : κ → α) : List κ → (α → β) → α → β
  | [], m => m
  | k :: order, m => copyAll dst src order (Function.update m (dst k) (m (src k)))

/-- No source is a destination of an earlier copy, and no destination is one twice. -/
def Safe (dst src : κ → α) (order : List κ) : Prop :=
  order.Pairwise fun i j => dst i ≠ src j ∧ dst i ≠ dst j

variable {dst src : κ → α} {order : List κ}

/-- **FRAME**: a cell that is no destination keeps its value. -/
theorem copyAll_frame (m : α → β) {a : α} (ha : ∀ k ∈ order, a ≠ dst k) :
    copyAll dst src order m a = m a := by
  induction order generalizing m with
  | nil => rfl
  | cons k order ih =>
      rw [copyAll, ih _ fun j hj => ha j (List.mem_cons_of_mem _ hj)]
      exact Function.update_of_ne (ha k List.mem_cons_self) _ _

/-- **COPY**: the destinations get what the sources held at the start. -/
theorem copyAll_moves (hsafe : Safe dst src order) (m : α → β) :
    ∀ k ∈ order, copyAll dst src order m (dst k) = m (src k) := by
  induction order generalizing m with
  | nil => exact fun k hk => absurd hk List.not_mem_nil
  | cons i order ih =>
      obtain ⟨hlater, hrest⟩ := List.pairwise_cons.mp hsafe
      intro k hk
      rw [copyAll]
      rcases List.mem_cons.mp hk with rfl | hk
      · -- written first, and not again
        rw [copyAll_frame _ fun j hj => (hlater j hj).2]
        exact Function.update_self ..
      · rw [ih hrest _ k hk]
        exact Function.update_of_ne (hlater k hk).1.symm _ _

end OrderedCopies
