import Mathlib.Data.List.Perm.Subperm
import Mathlib.Tactic.SplitIfs

/-! # Taking turns

    Positions `0` to `N - 1` take turns: after `p` it is the turn of the first
    position after `p`, cyclically, that is ready.  Which positions are ready may
    change from turn to turn.  One that stays ready waits while the others have at
    most one turn each (`Turns.wait`). -/

namespace RoundRobin

variable {N p q r target : Nat} {ready : Nat → Prop} {L : List Nat}

/-- How far it is from `p` to `q`, going up and around. -/
def ahead (N p q : Nat) : Nat := if p < q then q - p else q + N - p

/-- It is the turn of `q` after `p`. -/
structure IsNext (N : Nat) (ready : Nat → Prop) (p q : Nat) : Prop where
  lt : q < N
  isReady : ready q
  first : ∀ r, r < N → ready r → ahead N p q ≤ ahead N p r

/-- The turns after `p`.  At every one of them `target` is ready. -/
inductive Turns (N target : Nat) : Nat → List Nat → Prop
  | nil (p : Nat) : Turns N target p []
  | cons {p q : Nat} {ready : Nat → Prop} {L : List Nat} (next : IsNext N ready p q)
      (stays : ready target) (rest : Turns N target q L) : Turns N target p (q :: L)

theorem ahead_pos (hp : p < N) : 0 < ahead N p q := by
  rw [ahead]
  split_ifs <;> omega

theorem ahead_le (hq : q < N) : ahead N p q ≤ N := by
  rw [ahead]
  split_ifs <;> omega

/-- Two positions that are equally far ahead are one. -/
theorem ahead_inj (hp : p < N) (hq : q < N) (hr : r < N) (h : ahead N p q = ahead N p r) :
    q = r := by
  rw [ahead, ahead] at h
  split_ifs at h <;> omega

/-- Going on from `q`, if one does not get back to `p`. -/
theorem ahead_trans (hp : p < N) (hq : q < N)
    (h : ahead N p q + ahead N q r ≤ N) : ahead N p r = ahead N p q + ahead N q r := by
  simp only [ahead] at h ⊢
  split_ifs at h ⊢ <;> omega

/-- What is left of the way to `r`, after a part of it. -/
theorem ahead_rest (hp : p < N) (hq : q < N) (hr : r < N) (h : ahead N p q < ahead N p r) :
    ahead N p r = ahead N p q + ahead N q r := by
  simp only [ahead] at h ⊢
  split_ifs at h ⊢ <;> omega

/-! ## Looking for the next turn -/

/-- From `p` to `q` nothing was ready. -/
def Passed (N : Nat) (ready : Nat → Prop) (p q : Nat) : Prop :=
  q < N ∧ ∃ k, ∀ r < N, ready r → ahead N p r = k + ahead N q r

theorem Passed.refl (hp : p < N) : Passed N ready p p :=
  ⟨hp, 0, fun _ _ _ => (Nat.zero_add _).symm⟩

/-- The next position comes first. -/
theorem ahead_succ (hq : q < N) : ahead N q ((q + 1) % N) = 1 := by
  rcases Nat.lt_or_ge (q + 1) N with hlt | hge
  · rw [Nat.mod_eq_of_lt hlt, ahead, if_pos (Nat.lt_succ_self q)]
    omega
  · obtain rfl : N = q + 1 := by omega
    rw [Nat.mod_self, ahead, if_neg (Nat.not_lt_zero q)]
    omega

/-- An idle position is passed. -/
theorem Passed.skip (h : Passed N ready p q) (hno : ¬ ready ((q + 1) % N)) :
    Passed N ready p ((q + 1) % N) := by
  obtain ⟨hq, k, hk⟩ := h
  have hlt : (q + 1) % N < N := Nat.mod_lt _ (by omega)
  refine ⟨hlt, k + 1, ?_⟩
  intro r hr hready
  have hone := ahead_succ hq
  have hpos : 0 < ahead N q r := ahead_pos hq
  have hne : ahead N q r ≠ 1 := by
    intro heq
    exact hno (ahead_inj hq hlt hr (hone.trans heq.symm) ▸ hready)
  rw [hk r hr hready, ahead_rest hq hlt hr (by omega), hone]
  omega

/-- The first one that is ready. -/
theorem Passed.found (h : Passed N ready p q) (hready : ready ((q + 1) % N)) :
    IsNext N ready p ((q + 1) % N) := by
  obtain ⟨hq, k, hk⟩ := h
  have hlt : (q + 1) % N < N := Nat.mod_lt _ (by omega)
  refine ⟨hlt, hready, ?_⟩
  intro r hr hr'
  have hpos : 0 < ahead N q r := ahead_pos hq
  rw [hk _ hlt hready, hk r hr hr', ahead_succ hq]
  omega

/-- What is passed stays so when fewer positions become ready. -/
theorem Passed.congr {ready' : Nat → Prop} (h : Passed N ready p q)
    (hsub : ∀ r < N, ready' r → ready r) : Passed N ready' p q := by
  obtain ⟨hq, k, hk⟩ := h
  exact ⟨hq, k, fun r hr hready => hk r hr (hsub r hr hready)⟩

/-! ## Waiting -/

/-- The turns before that of `target` go its way, one after the other. -/
theorem Turns.between (h : Turns N target p L) (hp : p < N) (ht : target < N) (hL : target ∉ L) :
    L.Pairwise (fun q r => ahead N p q < ahead N p r)
      ∧ ∀ q ∈ L, q < N ∧ ahead N p q < ahead N p target := by
  induction h with
  | nil => exact ⟨List.Pairwise.nil, fun q hq => absurd hq List.not_mem_nil⟩
  | @cons p q ready L next stays rest ih =>
      have hq := next.lt
      have hne : target ≠ q := fun heq => hL (heq ▸ List.mem_cons_self)
      have hlt : ahead N p q < ahead N p target :=
        Nat.lt_of_le_of_ne (next.first target ht stays) fun heq => hne (ahead_inj hp ht hq heq.symm)
      have hsplit := ahead_rest hp hq ht hlt
      have hle := ahead_le (p := p) ht
      obtain ⟨hpairs, hway⟩ := ih hq fun hmem => hL (List.mem_cons_of_mem _ hmem)
      -- distances from `p` are distances from `q`, shifted
      have hshift : ∀ r ∈ L, ahead N p r = ahead N p q + ahead N q r := by
        intro r hr
        obtain ⟨hrN, hrt⟩ := hway r hr
        exact ahead_trans hp hq (by omega)
      refine ⟨List.pairwise_cons.mpr ⟨?_, ?_⟩, ?_⟩
      · intro r hr
        have hpos := ahead_pos (q := r) hq
        rw [hshift r hr]
        omega
      · refine hpairs.imp_of_mem ?_
        intro r r' hr hr' hrr
        rw [hshift r hr, hshift r' hr']
        omega
      · intro r hr
        rcases List.mem_cons.mp hr with rfl | hr
        · exact ⟨hq, hlt⟩
        · obtain ⟨hrN, hrt⟩ := hway r hr
          refine ⟨hrN, ?_⟩
          rw [hshift r hr]
          omega

/-- **BOUNDED WAITING**: before the turn of `target`, no position has two turns,
    and there are fewer turns than positions. -/
theorem Turns.wait (h : Turns N target p L) (hp : p < N) (ht : target < N) (hL : target ∉ L) :
    L.Nodup ∧ L.length < N := by
  obtain ⟨hpairs, hway⟩ := h.between hp ht hL
  have hnodup : L.Nodup := by
    refine hpairs.imp ?_
    rintro q r hlt rfl
    exact absurd hlt (Nat.lt_irrefl _)
  refine ⟨hnodup, ?_⟩
  -- with `target`, they are different numbers below `N`
  have hall : (target :: L).Nodup := List.nodup_cons.mpr ⟨hL, hnodup⟩
  have hsub : target :: L ⊆ List.range N := by
    intro q hq
    rcases List.mem_cons.mp hq with rfl | hq
    · exact List.mem_range.mpr ht
    · exact List.mem_range.mpr (hway q hq).1
  have hlen := (List.subperm_of_subset hall hsub).length_le
  rw [List.length_range, List.length_cons] at hlen
  omega

end RoundRobin
