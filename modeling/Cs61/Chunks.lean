import Mathlib.Data.List.Basic

/-! # Chunks — a list cut at its delimiters

    `chunks p L` cuts `L` at the elements that satisfy `p`.  A chunk comes with
    the delimiter that ended it; a last chunk without elements is dropped.

    * `chunks_append` — the first chunk, and the rest;
    * `chunks_map` — chunks depend on what the delimiters see. -/

namespace Chunks

variable {α β : Type} {p : α → Bool}

/-- A list cut behind every element that is as `p` says. -/
def chunks (p : α → Bool) : List α → List (List α × Option α)
  | [] => []
  | x :: L =>
      if p x = true then ([], some x) :: chunks p L
      else match chunks p L with
        | [] => [([x], none)]
        | (c, d) :: cs => (x :: c, d) :: cs

/-- A chunk that runs to the end of the list. -/
theorem chunks_last {c : List α} (hne : c ≠ []) (hc : ∀ x ∈ c, ¬ p x = true) :
    chunks p c = [(c, none)] := by
  induction c with
  | nil => exact absurd rfl hne
  | cons x c ih =>
      rw [chunks, if_neg (hc x List.mem_cons_self)]
      cases c with
      | nil => rfl
      | cons y c => rw [ih (List.cons_ne_nil y c) (fun z hz => hc z (List.mem_cons_of_mem x hz))]

/-- A chunk that a delimiter ends. -/
theorem chunks_append {c L : List α} {d : α} (hc : ∀ x ∈ c, ¬ p x = true) (hd : p d = true) :
    chunks p (c ++ d :: L) = (c, some d) :: chunks p L := by
  induction c with
  | nil => rw [List.nil_append, chunks, if_pos hd]
  | cons x c ih =>
      rw [List.cons_append, chunks, if_neg (hc x List.mem_cons_self),
        ih (fun y hy => hc y (List.mem_cons_of_mem x hy))]

/-- A list is one chunk, or a chunk, its delimiter and the rest. -/
theorem exists_chunk (p : α → Bool) (L : List α) : (∀ x ∈ L, ¬ p x = true)
    ∨ ∃ c d L', (∀ x ∈ c, ¬ p x = true) ∧ p d = true ∧ L = c ++ d :: L' := by
  induction L with
  | nil =>
      refine Or.inl ?_
      rintro x ⟨⟩
  | cons x L ih =>
      by_cases hx : p x = true
      · refine Or.inr ⟨[], x, L, ?_, hx, rfl⟩
        rintro y ⟨⟩
      rcases ih with hL | ⟨c, d, L', hc, hd, rfl⟩
      · refine Or.inl ?_
        rintro y (_ | ⟨_, hy⟩)
        · exact hx
        · exact hL y hy
      · refine Or.inr ⟨x :: c, d, L', ?_, hd, rfl⟩
        rintro y (_ | ⟨_, hy⟩)
        · exact hx
        · exact hc y hy

theorem chunks_map (f : β → α) (L : List β) : chunks p (L.map f)
    = (chunks (fun b => p (f b)) L).map (fun c => (c.1.map f, c.2.map f)) := by
  induction L with
  | nil => rfl
  | cons x L ih =>
      rw [List.map_cons, chunks, chunks, ih]
      by_cases hx : p (f x) = true
      · rw [if_pos hx, if_pos hx]
        rfl
      · rw [if_neg hx, if_neg hx]
        cases chunks (fun b => p (f b)) L <;> rfl

end Chunks
