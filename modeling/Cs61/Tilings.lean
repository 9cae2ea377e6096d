import Cs61.LoopRules

/-! # Tilings — loops that cover a range piece by piece

    A loop state stands for a piece of the natural numbers, from `start s` to
    `stop s`.  When every pass goes on where the piece ends, the loop ends
    (`collect_tiles`), and its pieces cover the range up to the limit without
    gap or overlap. -/

namespace Tilings

open LoopRules

variable {σ : Type} (start stop : σ → Nat) (limit : Nat)

/-- Each piece begins where the one before it ends, from `a` to `limit`. -/
def Tiles : Nat → List σ → Prop
  | a, [] => a = limit
  | a, s :: L => start s = a ∧ a < stop s ∧ Tiles (stop s) L

variable {start stop limit}

/-- A tiling starts below the limit. -/
theorem Tiles.le_limit {a : Nat} {L : List σ} (h : Tiles start stop limit a L) : a ≤ limit := by
  induction L generalizing a with
  | nil => exact Nat.le_of_eq h
  | cons s L ih =>
      obtain ⟨-, hlt, hrest⟩ := h
      have := ih hrest
      omega

/-- Every number of the range is in a piece. -/
theorem Tiles.covers {a x : Nat} {L : List σ} (h : Tiles start stop limit a L)
    (hx : a ≤ x) (hlim : x < limit) : ∃ s ∈ L, start s ≤ x ∧ x < stop s := by
  induction L generalizing a with
  | nil =>
      have hlimit : a = limit := h
      omega
  | cons s L ih =>
      obtain ⟨hstart, -, hrest⟩ := h
      by_cases hin : x < stop s
      · exact ⟨s, List.mem_cons_self, by omega, hin⟩
      · obtain ⟨t, ht, hx'⟩ := ih hrest (by omega)
        exact ⟨t, List.mem_cons_of_mem _ ht, hx'⟩

/-- A piece lies within the range. -/
theorem Tiles.mem_range {a : Nat} {L : List σ} (h : Tiles start stop limit a L) :
    ∀ s ∈ L, a ≤ start s ∧ start s < stop s ∧ stop s ≤ limit := by
  induction L generalizing a with
  | nil =>
      intro s hs
      cases hs
  | cons s L ih =>
      obtain ⟨hstart, hlt, hrest⟩ := h
      intro t ht
      rcases List.mem_cons.mp ht with rfl | ht
      · exact ⟨by omega, by omega, hrest.le_limit⟩
      · have := ih hrest t ht
        omega

/-- The pieces come in order. -/
theorem Tiles.pairwise {a : Nat} {L : List σ} (h : Tiles start stop limit a L) :
    L.Pairwise (fun s t => stop s ≤ start t) := by
  induction L generalizing a with
  | nil => exact List.Pairwise.nil
  | cons s L ih =>
      obtain ⟨-, -, hrest⟩ := h
      exact List.Pairwise.cons (fun t ht => (hrest.mem_range t ht).1) (ih hrest)

/-- **TILING LOOPS**: a loop whose every pass starts the next piece where the
    last one ended, and stops at the limit, ends and tiles the range. -/
theorem collect_tiles {cond : σ → Bool} {next : σ → Option σ} (I : σ → Prop)
    (hstep : ∀ s, I s → cond s = true → start s < stop s ∧ stop s ≤ limit ∧
      ∃ s', next s = some s' ∧
        ((stop s = limit ∧ cond s' = false) ∨
         (stop s < limit ∧ cond s' = true ∧ I s' ∧ start s' = stop s))) :
    ∀ s, I s → cond s = true →
      ∃ L, Returns (fun n => collect cond next n s) L ∧ Tiles start stop limit (start s) L
        ∧ ∀ t ∈ L, I t := by
  intro s
  -- what is left of the range gets smaller
  induction hμ : limit - start s using Nat.strongRecOn generalizing s with
  | _ m ih =>
      intro hI hc
      obtain ⟨hlt, hle, s', hnext, hcase⟩ := hstep s hI hc
      rcases hcase with ⟨hlast, hstop⟩ | ⟨hmore, hc', hI', hstart⟩
      · refine ⟨[s], returns_step hc hnext (returns_stop hstop), ⟨rfl, hlt, hlast⟩, ?_⟩
        intro t ht
        rw [List.mem_singleton.mp ht]
        exact hI
      · obtain ⟨L, hret, htiles, hall⟩ := ih (limit - start s') (by omega) s' rfl hI' hc'
        rw [hstart] at htiles
        refine ⟨s :: L, returns_step hc hnext hret, ⟨rfl, hlt, htiles⟩, ?_⟩
        intro t ht
        rcases List.mem_cons.mp ht with rfl | ht
        · exact hI
        · exact hall t ht

end Tilings
